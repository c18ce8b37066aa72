import Mathlib.Data.List.GetD
import Knp.MrphDpnd
import Knp.SmCode
import Knp.SurfaceCase

/-!
# The functions of feature patterns (`check_function`)

A pattern `&…` of a rule is a test of a morpheme or a bunsetsu. The text of the pattern
names the test and may go on with an argument, which is read where it stands.

> `&形態素長:N-` cuts the hyphen off the text of the rule, so that the next test asks for the
> length N. Two tests use what earlier calls have left in memory: that of a marker which
> `sm2code` does not find, and that of a level which is none.

A string of a unit is a list of bytes, and a read behind its end gives 0. The texts of
rules and features are strings in UTF-8.
-/

namespace Knp.Feature

/-! ## Types of characters -/

def TYPE_KATAKANA : Nat := 1
def TYPE_HIRAGANA : Nat := 2
def TYPE_KANJI : Nat := 4
def TYPE_SUUJI : Nat := 8
def TYPE_EIGO : Nat := 16
def TYPE_KIGOU : Nat := 32
def TYPE_PUNC : Nat := 64

/-- `check_char_type`, for Unicode. -/
def checkCharType (code : Nat) : Nat :=
  if code > 0x303f && code < 0x30a0 then TYPE_HIRAGANA
  else if (code > 0x309f && code < 0x30fb) || code = 0x30fc then TYPE_KATAKANA
  else if (code > 0x2fff && code < 0x3003) || code = 0xff0c || code = 0xff0e then TYPE_PUNC
  else if code > 0xff0f && code < 0xff1a then TYPE_SUUJI
  else if (code > 0xff20 && code < 0xff3b) || (code > 0xff40 && code < 0xff5b) then TYPE_EIGO
  else if (code > 0x4dff && code < 0xa000) || code = 0x3005 then TYPE_KANJI
  else TYPE_KIGOU

/-- The type of the first character, and the number of its bytes. -/
def firstChar (ucp : List UInt8) : Nat × Nat :=
  let c := (byteAt ucp 0).toNat
  let low (i : Nat) := (byteAt ucp i).toNat &&& 0x3f
  if c > 0xfb then (0, 6)
  else if c > 0xf7 then (0, 5)
  else if c > 0xef then (0, 4)
  else if c > 0xdf then (checkCharType (((c &&& 0x0f) <<< 12) + (low 1 <<< 6) + low 2), 3)
  else if c > 0x7f then (checkCharType (((c &&& 0x1f) <<< 6) + low 1), 2)
  else (checkCharType c, 1)

/-- The loop of `check_str_type`; `left` is `length - i`. -/
def strTypeLoop (allowed : Nat) : Nat → List UInt8 → Int → Nat → Bool
  | 0, _, _, _ => true
  | fuel + 1, ucp, left, precode =>
      if left ≤ 0 then true
      else
        let (code, size) := firstChar ucp
        if allowed ≠ 0 && code &&& allowed = 0 then false
        -- code is mixed
        else if allowed = 0 && precode ≠ 0 && precode ≠ code then false
        else strTypeLoop allowed fuel (ucp.drop size) (left - size) code

def checkStrType (ucp : List UInt8) (allowed : Nat) (length : Int) : Bool :=
  let length := if length = 0 then (ucp.length : Int) else length
  strTypeLoop allowed length.toNat ucp length 0

/-! ## The units that are tested -/

/-- A unit in the tree of the sentence. `head` are the features of the morpheme at `head_ptr`. A
unit with `para_top_p` has a child. -/
inductive UnitTree
  | node (f : List String) (head : Option (List String)) (child : List UnitTree)
  | para (f : List String) (head : Option (List String)) (first : UnitTree) (rest : List UnitTree)

namespace UnitTree

def f : UnitTree → List String
  | node f _ _ => f
  | para f _ _ _ => f

def head : UnitTree → Option (List String)
  | node _ head _ => head
  | para _ head _ _ => head

def child : UnitTree → List UnitTree
  | node _ _ child => child
  | para _ _ first rest => first :: rest

/-- <PARA>ならばその子どもをみる -/
def belowPara : UnitTree → UnitTree
  | node f head child => node f head child
  | para _ _ first _ => belowPara first

end UnitTree

/-- Codes of semantic markers, each of `size` bytes. -/
structure CodeText (size : Nat) where
  text : List UInt8
  whole : size ∣ text.length
  nonzero : ∀ b ∈ text, b ≠ 0

def BGH_CODE_SIZE : Nat := 11

/-- A morpheme or a bunsetsu, with what its tests read. -/
structure TestUnit where
  tree : UnitTree
  parent : Option UnitTree
  /-- the place in its array -/
  num : Int
  goi : List UInt8
  goi2 : List UInt8
  /-- the bytes in front of `Goi2` -/
  goi2Front : List UInt8
  SM : Option (CodeText SM_CODE_SIZE)
  smCode : CodeText SM_CODE_SIZE
  bghCode : CodeText BGH_CODE_SIZE
  jirituGo : List UInt8
  /-- `SCASE_code`, and the byte in front of it -/
  scaseCode : Int → UInt8
  voice : Nat

def TestUnit.f (u : TestUnit) : List String := u.tree.f

/-- The databases and options of the analysis. For a noun, `nvMi` has the entries of the verbs, with
the rank that `sscanf` reads. -/
structure FunctionEnv where
  sm : SmEnv
  options : List String
  nvMi : Option (String → Option (List (String × Option Int)))

/-- What the memory holds before a call: `cont_str`, and the places of the variables
`level1` and `level2` on the stack. -/
structure Remains where
  contStr : List UInt8
  level1 : Int
  level2 : Int

/-! ## Markers -/

/-- The places at which `for (i = 0; codes[i]; i += size)` stops. -/
def codePtrs (size : Nat) : Nat → List UInt8 → List (List UInt8)
  | 0, _ => []
  | fuel + 1, codes =>
      if byteAt codes 0 = 0 then [] else codes :: codePtrs size fuel (codes.drop size)

def codesAt (size : Nat) (codes : List UInt8) : List (List UInt8) :=
  codePtrs size codes.length codes

/-- `*cp & 0x80`: 漢字だったら意味属性名, それ以外ならコードそのまま -/
def isName (cp : String) : Bool := byteAt (utf8 cp) 0 ≥ 0x80

def markerCode (env : FunctionEnv) (r : Remains) (cp : String) : Option (List UInt8) :=
  if isName cp then
    if env.sm.sm2codeExist then some (sm2code env.sm r.contStr (utf8 cp)) else none
  else some (utf8 cp)

/-- `_sm_match_score`, with `SM_NO_EXPAND_NE` for a name and `SM_CHECK_FULL` for a code. -/
def markerScore (name : Bool) (cpp cpd : List UInt8) : Nat :=
  if name then smMatchScore cpp cpd else compSmLoop cpp cpd SM_CODE_SIZE

/-- The loop of `comp_bgh` from `i` on, over `n` characters. -/
def compBghLoop (cpp cpd : List UInt8) (i : Nat) : Nat → Nat
  | 0 => BGH_CODE_SIZE
  | n + 1 =>
      if byteAt cpp i = '*'.toUInt8 then i
      else if byteAt cpp i ≠ byteAt cpd i then 0
      else compBghLoop cpp cpd (i + 1) n

def compBgh (cpp cpd : List UInt8) : Nat :=
  if byteAt cpp 0 = byteAt cpd 0 then compBghLoop cpp cpd 1 (BGH_CODE_SIZE - 1)
  else if byteAt cpp 0 ≠ '4'.toUInt8 && byteAt cpd 0 ≠ '4'.toUInt8 &&
      byteAt cpp 1 = byteAt cpd 1 then compBghLoop cpp cpd 2 2
  else 0

/-- The loop of `sm_all_match`. -/
def smAllLoop (target : List UInt8) : List (List UInt8) → Bool → Bool
  | [], flag => flag
  | p :: ps, flag =>
      -- 固有名詞のときをのぞく
      if byteAt p 0 = '2'.toUInt8 then smAllLoop target ps flag
      else if compSm target p = 0 then false
      else smAllLoop target ps true

def smAllMatch (c target : List UInt8) : Bool := smAllLoop target (codesAt SM_CODE_SIZE c) false

/-- `&意味素` -/
def checkMarker (env : FunctionEnv) (r : Remains) (cp : String) (u : TestUnit) : Bool :=
  match env.sm.thesaurus, u.SM, markerCode env r cp with
  | .ntt, some codes, some code =>
      (codesAt SM_CODE_SIZE codes.text).any fun s => markerScore (isName cp) code s ≠ 0
  | _, _, _ => false

/-- `&文節意味素` -/
def checkBnstMarker (env : FunctionEnv) (r : Remains) (cp : String) (u : TestUnit) : Bool :=
  match env.sm.thesaurus, markerCode env r cp with
  | .ntt, some code =>
      (codesAt SM_CODE_SIZE u.smCode.text).any fun s => 0 < markerScore (isName cp) code s
  | .bgh, some code => (codesAt BGH_CODE_SIZE u.bghCode.text).any fun s => 0 < compBgh code s
  | _, _ => false

/-- `&文節全意味素`. With `USE_BGH` the codes are gone through in steps of `SM_CODE_SIZE` as well. -/
def checkBnstAllMarker (env : FunctionEnv) (r : Remains) (cp : String) (u : TestUnit) : Bool :=
  match env.sm.thesaurus, markerCode env r cp with
  | .ntt, some code => u.smCode.text ≠ [] && smAllMatch u.smCode.text code
  | .bgh, some code => u.bghCode.text ≠ [] && smAllMatch u.bghCode.text code
  | _, _ => false

/-! ## Levels -/

/-- `none` is an invalid level. -/
def levelOf (cp : String) : Option Int :=
  if cp = "A-" then some 1
  else if cp = "A" then some 2
  else if cp = "B-" then some 3
  else if cp = "B" then some 4
  else if cp = "B+" then some 5
  else if cp = "C" then some 6
  else none

/-- The variable of an invalid level is not set. -/
def levelcmp (r : Remains) (cp1 cp2 : String) : Int :=
  (levelOf cp1).getD r.level1 - (levelOf cp2).getD r.level2

/-- The text behind `n` characters. -/
def textAfter (n : Nat) (cp : String) : String := String.ofList (cp.toList.drop n)

/-- The level among the features, without `レベル:`. -/
def featureLevel (f : List String) : Option String := (checkFeature f "レベル").map (textAfter 4)

def subordinateLevelComp (r : Remains) (f1 f2 : List String) : Bool :=
  match featureLevel f1, featureLevel f2 with
  | none, _ => true
  | some _, none => false
  | some level1, some level2 => levelcmp r level1 level2 ≤ 0

def subordinateLevelCheck (r : Remains) (cp : String) (f : List String) : Bool :=
  match featureLevel f with
  | none => false
  | some level2 => levelcmp r cp level2 ≤ 0

/-! ## Other tests -/

/-- The loop of `check_category` over the categories between semicolons. -/
def categoryLoop (fname : List Char) : Nat → List Char → Bool
  | 0, _ => false
  | fuel + 1, cp =>
      if cp = fname || (fname ++ [';']).isPrefixOf cp then true
      else match cp.dropWhile (· != ';') with
        | [] => false
        | _ :: rest => categoryLoop fname fuel rest

def checkCategory (fp : List String) (fname : String) (strict : Bool) : Bool :=
  match checkFeature fp "カテゴリ" with
  | none => false
  | some cp =>
      if strict && cp.toList.contains ';' then false
      else categoryLoop fname.toList cp.length (cp.toList.drop 5)

def VOICE_SHIEKI : Nat := 1
def VOICE_UKEMI : Nat := 2
def VOICE_SHIEKI_UKEMI : Nat := 4

def checkVoice (cp : String) (voice : Nat) : Bool :=
  (cp = "能動" && voice = 0) ||
    (cp = "受動" && (voice &&& VOICE_UKEMI ≠ 0 || voice &&& VOICE_SHIEKI_UKEMI ≠ 0)) ||
    (cp = "使役" && (voice &&& VOICE_SHIEKI ≠ 0 || voice &&& VOICE_SHIEKI_UKEMI ≠ 0))

/-- `SCASE_code[case2num(cp)]` -/
def surfaceCase (u : TestUnit) (cp : String) : Bool :=
  u.scaseCode (((case2num (utf8 cp)).map Int.ofNat).getD (-1)) ≠ 0

def INT_MAX : Int := 2147483647

/-- `get_mrph_rep_from_f`, of the morpheme at `head_ptr`. -/
def headRep (u : UnitTree) : Option String :=
  u.head.bind fun f => (checkFeature f "代表表記").map (textAfter 5)

def checkNvMi (env : FunctionEnv) (n v : UnitTree) : Int :=
  match env.nvMi, headRep n, headRep v with
  | some lookup, some noun, some verb =>
      match (lookup noun).bind fun tokens =>
          tokens.find? fun token => verb.toList.isPrefixOf token.1.toList with
      | some (_, some rank) => rank
      | _ => INT_MAX
  | _, _, _ => INT_MAX

def checkNvMiParentAndChildren (env : FunctionEnv) (v : TestUnit) (threshold : Int) : Bool :=
  (v.tree.child.any fun c => hasFeature c.f "格要素" && checkNvMi env c v.tree < threshold) ||
    match v.parent with
    | some p => hasFeature v.f "係:連格" && checkNvMi env p v.tree < threshold
    | none => false

def strcasecmp (s t : String) : Bool := s.toLower = t.toLower

/-- `strstr` -/
def contains (s t : List UInt8) : Bool := s.tails.any t.isPrefixOf

/-! ## The functions -/

/-- The tests, each with the text of its argument. -/
inductive FeatureFunction
  | strType (allowed : Nat)
  | kanji
  | lastHiragana
  | lastText (cp : String)
  | mixed
  | oneChar
  | category (cp : String)
  | marker (cp : String)
  | bnstMarker (cp : String)
  | bnstAllMarker (cp : String)
  | mrphLength (cp : String)
  | digitLength (cp : String)
  | mrphEnd (cp : String)
  | surface (cp : String)
  | distance (cp : String)
  | strongLevel
  | level (cp : String)
  | dependant (cp : String)
  | childCheck (cp : String)
  | parentCheck (cp : String)
  | sameWord
  | substring (cp : String)
  | threshold
  | optCheck (cp : String)
  | voice (cp : String)
  | remember
  | nvMi (cp : String)
  | unknown

/-- A turn of the chain of `else if`: by `strcmp` if `exact`, else by `strncmp`. -/
structure FunctionEntry where
  name : String
  exact : Bool
  make : String → FeatureFunction

def FunctionEntry.accepts (e : FunctionEntry) (rule : String) : Bool :=
  if e.exact then rule = e.name else e.name.toList.isPrefixOf rule.toList

open FeatureFunction in
def functionTable : List FunctionEntry :=
  [⟨"&記英数カ", true, fun _ => strType (TYPE_KIGOU ||| TYPE_EIGO ||| TYPE_SUUJI ||| TYPE_KATAKANA)⟩,
    ⟨"&漢字", true, fun _ => kanji⟩,
    ⟨"&かな漢字", true, fun _ => strType (TYPE_KANJI ||| TYPE_HIRAGANA)⟩,
    ⟨"&ひらがな", true, fun _ => strType TYPE_HIRAGANA⟩,
    ⟨"&末尾ひらがな", true, fun _ => lastHiragana⟩,
    ⟨"&末尾文字列:", false, lastText⟩,
    ⟨"&カタカナ", true, fun _ => strType TYPE_KATAKANA⟩,
    ⟨"&数字", true, fun _ => strType TYPE_SUUJI⟩,
    ⟨"&英記号", true, fun _ => strType (TYPE_EIGO ||| TYPE_KIGOU ||| TYPE_PUNC)⟩,
    ⟨"&記号", true, fun _ => strType (TYPE_KIGOU ||| TYPE_PUNC)⟩,
    ⟨"&混合", true, fun _ => mixed⟩,
    ⟨"&一文字", true, fun _ => oneChar⟩,
    ⟨"&カテゴリ:", false, category⟩,
    ⟨"&意味素:", false, marker⟩,
    ⟨"&文節意味素:", false, bnstMarker⟩,
    ⟨"&文節全意味素:", false, bnstAllMarker⟩,
    ⟨"&形態素長:", false, mrphLength⟩,
    ⟨"&数字長:", false, digitLength⟩,
    ⟨"&形態素末尾:", false, mrphEnd⟩,
    ⟨"&表層:", false, surface⟩,
    ⟨"&D:", false, distance⟩,
    ⟨"&レベル:強", true, fun _ => strongLevel⟩,
    ⟨"&レベル:", false, level⟩,
    ⟨"&係側:", false, dependant⟩,
    ⟨"&係側チェック:", false, childCheck⟩,
    ⟨"&受側チェック:", false, parentCheck⟩,
    ⟨"&自立語一致", false, fun _ => sameWord⟩,
    ⟨"&文字列照合:", false, substring⟩,
    ⟨"&ST", false, fun _ => threshold⟩,
    ⟨"&OptCheck:", false, optCheck⟩,
    ⟨"&態:", false, FeatureFunction.voice⟩,
    ⟨"&記憶", true, fun _ => remember⟩,
    ⟨"&名動相互情報量:", false, nvMi⟩]

def readFunction (rule : String) : FeatureFunction :=
  match functionTable.find? (·.accepts rule) with
  | some e => e.make (textAfter e.name.length rule)
  | none => .unknown

/-- 数字の後に"-"がついていれば, 指定長さ以上でOK -/
def hasHyphen (cp : String) : Bool := cp.toList.getLast? = some '-'

def withoutLast (cp : String) : String := String.ofList cp.toList.dropLast

/-- What a test returns; it is about the unit `p2`, or about `p1` and its head `p2`. -/
def FeatureFunction.value (env : FunctionEnv) (r : Remains) (fd : List String) (p1 p2 : TestUnit) :
    FeatureFunction → Bool
  | strType allowed => checkStrType p2.goi2 allowed 0
  | kanji =>
      -- 先頭の「か」「カ」「ヶ」は OK
      if (["か", "カ", "ヶ"].any fun c => (utf8 c).isPrefixOf p2.goi2) then
        p2.goi2.length = BYTES4CHAR || checkStrType (p2.goi2.drop BYTES4CHAR) TYPE_KANJI 0
      else checkStrType p2.goi2 TYPE_KANJI 0
  | lastHiragana =>
      let memory := p2.goi2Front ++ p2.goi2
      let ucp := (memory.drop (memory.length - BYTES4CHAR)).takeWhile (· ≠ 0)
      checkStrType ucp TYPE_HIRAGANA 0
  | lastText cp => (utf8 cp).isSuffixOf p2.goi2
  | mixed => !checkStrType p2.goi2 0 0
  | oneChar => p2.goi2.length ≤ BYTES4CHAR
  | category cp => checkCategory p2.f cp (cp = "時間")
  | marker cp => checkMarker env r cp p2
  | bnstMarker cp => checkBnstMarker env r cp p2
  | bnstAllMarker cp => checkBnstAllMarker env r cp p2
  | mrphLength cp =>
      let code := atoi (if hasHyphen cp then withoutLast cp else cp)
      (p2.goi2.length : Int) = code * BYTES4CHAR ||
        (hasHyphen cp && (p2.goi2.length : Int) > code * BYTES4CHAR)
  | digitLength cp =>
      let code := atoi cp * BYTES4CHAR
      if (p2.goi2.length : Int) < code then false else checkStrType p2.goi2 TYPE_SUUJI code
  | mrphEnd cp => cp ≠ "" && (utf8 cp).isSuffixOf p2.goi2
  | surface cp =>
      if cp = "照合" then
        match checkFeature p1.f "係" with
        | none => false
        | some cp => surfaceCase p2 (textAfter 2 cp)
      else surfaceCase p2 cp
  | distance cp => p2.num - p1.num ≤ atoi cp
  | strongLevel => subordinateLevelComp r p1.f p2.f
  | level cp => subordinateLevelCheck r cp fd
  | dependant cp =>
      if cp.toList.head? ≠ some '^' then hasFeature p1.f cp
      else !hasFeature p1.f (textAfter 1 cp)
  | childCheck cp => p2.tree.belowPara.child.any fun c => hasFeature c.f cp
  | parentCheck cp => p2.parent.any fun p => hasFeature p.f cp
  | sameWord => p1.jirituGo = p2.jirituGo
  | substring cp => contains p2.goi (utf8 cp)
  -- ここでは無視
  | threshold => true
  | optCheck cp =>
      -- '-'を含んでいたら飛ばす
      let cp := if cp.toList.head? = some '-' then textAfter 1 cp else cp
      env.options.any (strcasecmp cp)
  | voice cp => checkVoice cp p2.voice
  | remember => true
  | nvMi cp => checkNvMiParentAndChildren env p2 (atoi cp)
  | unknown => true

/-- The value, the text of the rule after the test, and whether `matched_ptr` is set to `p2`. -/
structure FunctionResult where
  value : Bool
  rule : String
  matched : Bool

def checkFunction (env : FunctionEnv) (r : Remains) (rule : String) (fd : List String)
    (p1 p2 : TestUnit) : FunctionResult where
  value := (readFunction rule).value env r fd p1 p2
  rule := match readFunction rule with
    | .mrphLength cp => if hasHyphen cp then withoutLast rule else rule
    | _ => rule
  matched := match readFunction rule with
    | .remember => true
    | _ => false

/-! ## The text of a rule -/

/-- The form `&形態素長:N-`. -/
def RangeForm (rule : String) : Prop :=
  ∃ cp, rule = "&形態素長:" ++ cp ∧ hasHyphen cp = true

theorem take_isPrefixOf {e : FunctionEntry} {name cp : String}
    (h : e.accepts (name ++ cp) = true) :
    (e.name.toList.take name.length).isPrefixOf name.toList = true := by
  have hprefix : e.name.toList <+: name.toList ++ cp.toList := by
    unfold FunctionEntry.accepts at h
    split_ifs at h with hexact
    · have heq : name ++ cp = e.name := by simpa using h
      have hlist : e.name.toList = name.toList ++ cp.toList := by
        rw [← heq, String.toList_append]
      exact hlist ▸ List.prefix_refl _
    · rw [String.toList_append] at h
      exact List.isPrefixOf_iff_prefix.mp h
  refine List.isPrefixOf_iff_prefix.mpr (List.prefix_of_prefix_length_le
    ((List.take_prefix _ _).trans hprefix) (List.prefix_append _ _) ?_)
  rw [String.length_toList]
  exact List.length_take_le _ _

theorem readFunction_mrphLength (cp : String) :
    readFunction ("&形態素長:" ++ cp) = .mrphLength cp := by
  have hfront : ∀ e ∈ functionTable.take 16,
      ¬(e.name.toList.take "&形態素長:".length).isPrefixOf "&形態素長:".toList = true := by decide
  have hnone : (functionTable.take 16).find? (·.accepts ("&形態素長:" ++ cp)) = none :=
    List.find?_eq_none.mpr fun e he haccepts => hfront e he (take_isPrefixOf haccepts)
  have htable : functionTable = functionTable.take 16 ++
      ⟨"&形態素長:", false, .mrphLength⟩ :: functionTable.drop 17 := rfl
  have haccepts : (⟨"&形態素長:", false, .mrphLength⟩ : FunctionEntry).accepts
      ("&形態素長:" ++ cp) = true := by
    simp only [FunctionEntry.accepts, Bool.false_eq_true, if_false, String.toList_append]
    exact List.isPrefixOf_iff_prefix.mpr (List.prefix_append _ _)
  unfold readFunction
  rw [htable, List.find?_append, hnone, Option.none_or, List.find?_cons]
  simp only [haccepts]
  show FeatureFunction.mrphLength (textAfter "&形態素長:".length ("&形態素長:" ++ cp)) = _
  rw [textAfter, String.toList_append, List.drop_left' String.length_toList, String.ofList_toList]

/-- The entry of the test is the only one that makes it. -/
theorem eq_of_readFunction {rule cp : String} (h : readFunction rule = .mrphLength cp) :
    rule = "&形態素長:" ++ cp := by
  unfold readFunction at h
  cases hfind : functionTable.find? (·.accepts rule) with
  | none => simp [hfind] at h
  | some e =>
      rw [hfind] at h
      have hentry : e = ⟨"&形態素長:", false, .mrphLength⟩ := by
        have hmem := List.mem_of_find?_eq_some hfind
        simp only [functionTable, List.mem_cons, List.not_mem_nil, or_false] at hmem
        rcases hmem with rfl | rfl | rfl | rfl | rfl | rfl | rfl | rfl | rfl | rfl | rfl | rfl |
          rfl | rfl | rfl | rfl | rfl | rfl | rfl | rfl | rfl | rfl | rfl | rfl | rfl | rfl |
          rfl | rfl | rfl | rfl | rfl | rfl | rfl <;> first | rfl | cases h
      have haccepts := List.find?_some hfind
      subst hentry
      obtain rfl : textAfter "&形態素長:".length rule = cp := FeatureFunction.mrphLength.inj h
      simp only [FunctionEntry.accepts, Bool.false_eq_true, if_false] at haccepts
      obtain ⟨rest, hrest⟩ := List.isPrefixOf_iff_prefix.mp haccepts
      rw [textAfter, ← hrest, List.drop_left' String.length_toList]
      exact String.toList_inj.mp (by
        rw [← hrest, String.toList_append, String.toList_ofList, String.toList_ofList])

/-- A call before the one that is looked at. -/
structure Test where
  r : Remains
  fd : List String
  p1 : TestUnit
  p2 : TestUnit

/-- The text of the rule after the tests. -/
def ruleAfter (env : FunctionEnv) (rule : String) (tests : List Test) : String :=
  tests.foldl (fun rule t => (checkFunction env t.r rule t.fd t.p1 t.p2).rule) rule

theorem checkFunction_rule {env : FunctionEnv} {r : Remains} {rule : String} {fd : List String}
    {p1 p2 : TestUnit} : (checkFunction env r rule fd p1 p2).rule = rule ↔ ¬RangeForm rule := by
  constructor
  · rintro h ⟨cp, rfl, hhyphen⟩
    have hcut : withoutLast ("&形態素長:" ++ cp) = "&形態素長:" ++ cp := by
      simpa [checkFunction, readFunction_mrphLength, hhyphen] using h
    have hlen := congrArg (fun s => s.toList.length) hcut
    have hpos : 0 < ("&形態素長:" ++ cp).toList.length := by
      rw [String.toList_append, List.length_append]
      exact Nat.add_pos_left (by decide) _
    simp only [withoutLast, String.toList_ofList, List.length_dropLast] at hlen
    omega
  · intro h
    unfold checkFunction
    cases hread : readFunction rule with
    | mrphLength cp =>
        have hhyphen : hasHyphen cp = false := by
          by_contra hne
          exact h ⟨cp, eq_of_readFunction hread, by simpa using hne⟩
        simp [hhyphen]
    | _ => rfl

/-- The text of a rule never changes, unless it has the form with a hyphen. -/
theorem ruleAfter_iff (env : FunctionEnv) (rule : String) (t : Test) :
    (∀ tests, ruleAfter env rule tests = rule) ↔ ¬RangeForm rule := by
  constructor
  · intro h
    exact checkFunction_rule.mp (h [t])
  · intro h tests
    induction tests with
    | nil => rfl
    | cons t tests ih =>
        rw [ruleAfter, List.foldl_cons, checkFunction_rule.mpr h]
        exact ih

/-! ## What earlier calls have left -/

/-- `sm2code` does not find the name, and returns what is in `cont_str`. -/
def Unfound (env : FunctionEnv) (cp : String) : Prop :=
  isName cp = true ∧ env.sm.sm2codeExist = true ∧ env.sm.sm2codeDb (utf8 cp) = none

/-- All codes are those of proper nouns. -/
def OnlyProper (codes : List UInt8) : Prop :=
  ∀ s ∈ codesAt SM_CODE_SIZE codes, byteAt s 0 = '2'.toUInt8

/-- No level that is compared is invalid, and no name that is not found is compared with a code. -/
def FeatureFunction.Settled (env : FunctionEnv) (fd : List String) (p1 p2 : TestUnit) :
    FeatureFunction → Prop
  | strongLevel => ∀ level1 ∈ featureLevel p1.f, ∀ level2 ∈ featureLevel p2.f,
      (levelOf level1).isSome ∧ (levelOf level2).isSome
  | level cp => ∀ level2 ∈ featureLevel fd, (levelOf cp).isSome ∧ (levelOf level2).isSome
  | marker cp => Unfound env cp → env.sm.thesaurus = .ntt → ∀ codes ∈ p2.SM, codes.text = []
  | bnstMarker cp => Unfound env cp →
      (env.sm.thesaurus = .ntt → p2.smCode.text = []) ∧
        (env.sm.thesaurus = .bgh → p2.bghCode.text = [])
  | bnstAllMarker cp => Unfound env cp →
      (env.sm.thesaurus = .ntt → OnlyProper p2.smCode.text) ∧
        (env.sm.thesaurus = .bgh → OnlyProper p2.bghCode.text)
  | _ => True

section Settled

variable {env : FunctionEnv} {fd : List String} {p1 p2 : TestUnit} {cp level1 level2 : String}

theorem levelcmp_const_iff : (∀ r r' : Remains,
      decide (levelcmp r level1 level2 ≤ 0) = decide (levelcmp r' level1 level2 ≤ 0)) ↔
    (levelOf level1).isSome ∧ (levelOf level2).isSome := by
  unfold levelcmp
  cases h1 : levelOf level1 with
  | none =>
      simp only [Option.getD_none, Option.isSome_none, Bool.false_eq_true, false_and, iff_false]
      intro h
      cases h2 : levelOf level2 with
      | none => exact absurd (h ⟨[], 0, 0⟩ ⟨[], 1, 0⟩) (by simp [h2])
      | some l => exact absurd (h ⟨[], l, 0⟩ ⟨[], l + 1, 0⟩) (by simp [h2])
  | some k =>
      cases h2 : levelOf level2 with
      | none =>
          simp only [Option.getD_none, Option.getD_some, Option.isSome_none, Bool.false_eq_true,
            and_false, iff_false]
          intro h
          exact absurd (h ⟨[], 0, k⟩ ⟨[], 0, k - 1⟩) (by simp)
      | some l => simp

theorem strongLevel_const_iff :
    (∀ r r' : Remains, subordinateLevelComp r p1.f p2.f = subordinateLevelComp r' p1.f p2.f) ↔
      FeatureFunction.strongLevel.Settled env fd p1 p2 := by
  show _ ↔ ∀ level1 ∈ featureLevel p1.f, ∀ level2 ∈ featureLevel p2.f,
    (levelOf level1).isSome ∧ (levelOf level2).isSome
  unfold subordinateLevelComp
  cases featureLevel p1.f with
  | none => simp
  | some level1 =>
      cases featureLevel p2.f with
      | none => simp
      | some level2 => simpa using levelcmp_const_iff

theorem level_const_iff :
    (∀ r r' : Remains, subordinateLevelCheck r cp fd = subordinateLevelCheck r' cp fd) ↔
      (FeatureFunction.level cp).Settled env fd p1 p2 := by
  show _ ↔ ∀ level2 ∈ featureLevel fd, (levelOf cp).isSome ∧ (levelOf level2).isSome
  unfold subordinateLevelCheck
  cases featureLevel fd with
  | none => simp
  | some level2 => simpa using levelcmp_const_iff

theorem not_isPrefixOf_name (hname : isName cp = true) :
    neCodes.find? (fun ne => ne.1.isPrefixOf (utf8 cp)) = none := by
  have hascii : ∀ ne ∈ neCodes, ne.1 ≠ [] ∧ byteAt ne.1 0 < 0x80 := by decide
  refine List.find?_eq_none.mpr fun ne hne hprefix => ?_
  obtain ⟨hnil, hlt⟩ := hascii ne hne
  obtain ⟨rest, hrest⟩ := List.isPrefixOf_iff_prefix.mp hprefix
  obtain ⟨b, bs, hb⟩ := List.exists_cons_of_ne_nil hnil
  have hge : byteAt (utf8 cp) 0 ≥ 0x80 := by simpa [isName] using hname
  rw [hb] at hlt
  rw [← hrest, hb] at hge
  exact absurd hlt (UInt8.not_lt.mpr hge)

theorem markerCode_of_unfound {r : Remains} (h : Unfound env cp)
    (hother : env.sm.thesaurus ≠ .other) : markerCode env r cp = some r.contStr := by
  obtain ⟨hname, hexist, hdb⟩ := h
  simp [markerCode, sm2code, hname, hexist, hdb, hother, not_isPrefixOf_name hname]

theorem markerCode_of_found (h : ¬Unfound env cp) (r r' : Remains) :
    markerCode env r cp = markerCode env r' cp := by
  unfold markerCode
  split_ifs with hname hexist
  · cases hdb : env.sm.sm2codeDb (utf8 cp) with
    | none => exact absurd ⟨hname, hexist, hdb⟩ h
    | some code => simp [sm2code, hexist, hdb]
  · rfl
  · rfl

/-! ### Codes in a row -/

theorem mem_codePtrs {size : Nat} {s : List UInt8} : ∀ {fuel : Nat} {codes : List UInt8},
    size ∣ codes.length → (∀ b ∈ codes, b ≠ 0) → s ∈ codePtrs size fuel codes →
      size ≤ s.length ∧ ∀ b ∈ s, b ≠ 0
  | 0, _, _, _, h => absurd h List.not_mem_nil
  | fuel + 1, codes, hwhole, hnonzero, h => by
      unfold codePtrs at h
      split_ifs at h with hend
      · exact absurd h List.not_mem_nil
      · have hpos : 0 < codes.length := by
          by_contra hnil
          have : codes = [] := List.length_eq_zero_iff.mp (by omega)
          exact hend (by simp [this, byteAt])
        have hle : size ≤ codes.length := Nat.le_of_dvd hpos hwhole
        rcases List.mem_cons.mp h with rfl | h
        · exact ⟨hle, hnonzero⟩
        · refine mem_codePtrs ?_ (fun b hb => hnonzero b (List.mem_of_mem_drop hb)) h
          rw [List.length_drop]
          exact Nat.dvd_sub hwhole (dvd_refl size)

theorem codesAt_eq_nil {size : Nat} (codes : CodeText size) :
    codesAt size codes.text = [] ↔ codes.text = [] := by
  constructor
  · intro h
    cases htext : codes.text with
    | nil => rfl
    | cons b bs =>
        have hb : b ≠ 0 := codes.nonzero b (by simp [htext])
        rw [htext] at h
        simp [codesAt, codePtrs, byteAt, hb] at h
  · intro h
    simp [h, codesAt, codePtrs]

theorem byteAt_ne_zero {s : List UInt8} (hnonzero : ∀ b ∈ s, b ≠ 0) {i : Nat} (hi : i < s.length) :
    byteAt s i ≠ 0 := by
  rw [byteAt, List.getD_eq_getElem _ _ hi]
  exact hnonzero _ (List.getElem_mem hi)

/-- The first turn of `comp_sm`. -/
theorem compSm_eq (cpp cpd : List UInt8) : compSm cpp cpd =
    if byteAt cpp 1 = '*'.toUInt8 then 1
    else if byteAt cpd 1 = '*'.toUInt8 then 0
    else if byteAt cpp 1 ≠ byteAt cpd 1 then 0
    else compSmLoop cpp cpd 10 := rfl

theorem smMatchScore_nil {s : List UInt8} (hlen : 2 ≤ s.length) (hnonzero : ∀ b ∈ s, b ≠ 0) :
    smMatchScore [] s = 0 := by
  have h1 : byteAt s 1 ≠ 0 := byteAt_ne_zero hnonzero (by omega)
  have hcomp : compSm [] s = 0 := by
    have hdiff : byteAt [] 1 ≠ byteAt s 1 := h1.symm
    have hstar : byteAt [] 1 ≠ '*'.toUInt8 := by decide
    rw [compSm_eq, if_neg hstar]
    split_ifs <;> rfl
  have hx : byteAt [] 0 ≠ 'x'.toUInt8 := by decide
  have h2 : byteAt [] 0 ≠ '2'.toUInt8 := by decide
  unfold smMatchScore
  rw [if_neg hx, if_neg h2, if_pos h2, hcomp]
  split_ifs <;> rfl

/-- A text that begins as a code and goes on with `*` matches it. -/
theorem smMatchScore_star (s : List UInt8) : 0 < smMatchScore [byteAt s 0, '*'.toUInt8] s := by
  have hcomp : compSm [byteAt s 0, '*'.toUInt8] s = 1 := rfl
  have hhead : byteAt [byteAt s 0, '*'.toUInt8] 0 = byteAt s 0 := rfl
  unfold smMatchScore
  rw [hcomp, hhead]
  split_ifs <;> simp_all [SM_CODE_SIZE]

theorem compBgh_nil {s : List UInt8} (hlen : 2 ≤ s.length) (hnonzero : ∀ b ∈ s, b ≠ 0) :
    compBgh [] s = 0 := by
  have h0 : byteAt [] 0 ≠ byteAt s 0 := (byteAt_ne_zero hnonzero (by omega)).symm
  have h1 : byteAt [] 1 ≠ byteAt s 1 := (byteAt_ne_zero hnonzero (by omega)).symm
  unfold compBgh
  rw [if_neg h0, if_neg (by simp [h1])]

theorem compBgh_star (s : List UInt8) : 0 < compBgh [byteAt s 0, '*'.toUInt8] s := by
  have hhead : byteAt [byteAt s 0, '*'.toUInt8] 0 = byteAt s 0 := rfl
  unfold compBgh
  rw [if_pos hhead]
  exact Nat.one_pos

/-- What is in memory is compared in vain only if there are no codes: the empty text matches none,
and each is matched by some text. -/
theorem codes_const_iff {size : Nat} (hsize : 2 ≤ size) (codes : CodeText size)
    (score : List UInt8 → List UInt8 → Nat)
    (hnil : ∀ s : List UInt8, 2 ≤ s.length → (∀ b ∈ s, b ≠ 0) → score [] s = 0)
    (hstar : ∀ s, 0 < score [byteAt s 0, '*'.toUInt8] s) :
    (∀ r r' : Remains, ((codesAt size codes.text).any fun s => 0 < score r.contStr s) =
        (codesAt size codes.text).any fun s => 0 < score r'.contStr s) ↔ codes.text = [] := by
  rw [← codesAt_eq_nil codes]
  constructor
  · intro h
    have hempty : ((codesAt size codes.text).any fun s => 0 < score [] s) = false :=
      List.any_eq_false.mpr fun s hs => by
        obtain ⟨hlen, hnonzero⟩ := mem_codePtrs codes.whole codes.nonzero hs
        simp [hnil s (hsize.trans hlen) hnonzero]
    cases hcodes : codesAt size codes.text with
    | nil => rfl
    | cons s l =>
        have heq := h ⟨[byteAt s 0, '*'.toUInt8], 0, 0⟩ ⟨[], 0, 0⟩
        rw [hempty, hcodes, List.any_cons] at heq
        simp [hstar s] at heq
  · intro h r r'
    simp [h]

/-! ### All codes -/

variable {target : List UInt8} {ps : List (List UInt8)}

theorem smAllLoop_proper (h : ∀ p ∈ ps, byteAt p 0 = '2'.toUInt8) (flag : Bool) :
    smAllLoop target ps flag = flag := by
  induction ps with
  | nil => rfl
  | cons p ps ih =>
      rw [smAllLoop, if_pos (h p List.mem_cons_self)]
      exact ih fun q hq => h q (List.mem_cons_of_mem _ hq)

theorem smAllLoop_star (flag : Bool) : smAllLoop [0, '*'.toUInt8] ps flag =
    (flag || ps.any fun p => byteAt p 0 ≠ '2'.toUInt8) := by
  induction ps generalizing flag with
  | nil => simp [smAllLoop]
  | cons p ps ih =>
      have hcomp : compSm [0, '*'.toUInt8] p ≠ 0 := Nat.one_ne_zero
      rw [smAllLoop, List.any_cons, if_neg hcomp, ih, ih]
      by_cases hp : byteAt p 0 = '2'.toUInt8
      · simp [hp]
      · simp [hp]

/-- A text that differs from the first code that is looked at matches not all codes. -/
theorem exists_smAllLoop_false {p : List UInt8} (hmem : p ∈ ps) (hp : byteAt p 0 ≠ '2'.toUInt8)
    (flag : Bool) : ∃ target, smAllLoop target ps flag = false := by
  induction ps with
  | nil => exact absurd hmem List.not_mem_nil
  | cons q ps ih =>
      by_cases hq : byteAt q 0 = '2'.toUInt8
      · rcases List.mem_cons.mp hmem with rfl | hmem
        · exact absurd hq hp
        · obtain ⟨target, htarget⟩ := ih hmem
          exact ⟨target, by rw [smAllLoop, if_pos hq, htarget]⟩
      · obtain ⟨b, hb, hstar⟩ : ∃ b : UInt8, b ≠ byteAt q 1 ∧ b ≠ '*'.toUInt8 := by
          by_cases h1 : byteAt q 1 = 1
          · exact ⟨2, by rw [h1]; decide, by decide⟩
          · exact ⟨1, Ne.symm h1, by decide⟩
        refine ⟨[0, b], ?_⟩
        have hcomp : compSm [0, b] q = 0 := by
          have hbyte : byteAt [0, b] 1 = b := rfl
          rw [compSm_eq, hbyte, if_neg hstar, if_pos hb]
          split_ifs <;> rfl
        rw [smAllLoop, if_neg hq, if_pos hcomp]

theorem smAllMatch_const_iff (codes : List UInt8) :
    (∀ r r' : Remains, (decide (codes ≠ []) && smAllMatch codes r.contStr) =
        (decide (codes ≠ []) && smAllMatch codes r'.contStr)) ↔ OnlyProper codes := by
  constructor
  · intro h s hs
    by_contra hne
    have hcodes : codes ≠ [] := by
      rintro rfl
      exact absurd hs List.not_mem_nil
    obtain ⟨target, htarget⟩ := exists_smAllLoop_false hs hne false
    have hany : (codesAt SM_CODE_SIZE codes).any (fun p => byteAt p 0 ≠ '2'.toUInt8) = true :=
      List.any_eq_true.mpr ⟨s, hs, by simpa using hne⟩
    have heq := h ⟨[0, '*'.toUInt8], 0, 0⟩ ⟨target, 0, 0⟩
    rw [smAllMatch, smAllMatch, smAllLoop_star, hany, htarget] at heq
    simp [hcodes] at heq
  · intro h r r'
    simp [smAllMatch, smAllLoop_proper h]

/-! ### The values -/

theorem marker_const_iff :
    (∀ r r' : Remains, checkMarker env r cp p2 = checkMarker env r' cp p2) ↔
      (FeatureFunction.marker cp).Settled env fd p1 p2 := by
  show _ ↔ (Unfound env cp → env.sm.thesaurus = .ntt → ∀ codes ∈ p2.SM, codes.text = [])
  by_cases hun : Unfound env cp
  · unfold checkMarker
    cases hth : env.sm.thesaurus with
    | ntt =>
        cases p2.SM with
        | none => simp
        | some codes =>
            simp only [markerCode_of_unfound hun (by simp [hth]), hun.1, markerScore, if_true,
              ← Nat.pos_iff_ne_zero]
            rw [codes_const_iff (by decide) codes smMatchScore (fun _ => smMatchScore_nil)
              smMatchScore_star]
            simp [hun]
    | bgh => simp
    | other => simp
  · simp only [hun, false_imp_iff, iff_true]
    intro r r'
    rw [checkMarker, markerCode_of_found hun r r']
    rfl

theorem bnstMarker_const_iff :
    (∀ r r' : Remains, checkBnstMarker env r cp p2 = checkBnstMarker env r' cp p2) ↔
      (FeatureFunction.bnstMarker cp).Settled env fd p1 p2 := by
  show _ ↔ (Unfound env cp → (env.sm.thesaurus = .ntt → p2.smCode.text = []) ∧
    (env.sm.thesaurus = .bgh → p2.bghCode.text = []))
  by_cases hun : Unfound env cp
  · unfold checkBnstMarker
    cases hth : env.sm.thesaurus with
    | ntt =>
        simp only [markerCode_of_unfound hun (by simp [hth]), hun.1, markerScore, if_true]
        rw [codes_const_iff (by decide) p2.smCode smMatchScore (fun _ => smMatchScore_nil)
          smMatchScore_star]
        simp [hun]
    | bgh =>
        simp only [markerCode_of_unfound hun (by simp [hth])]
        rw [codes_const_iff (by decide) p2.bghCode compBgh (fun _ => compBgh_nil) compBgh_star]
        simp [hun]
    | other => simp
  · simp only [hun, false_imp_iff, iff_true]
    intro r r'
    rw [checkBnstMarker, markerCode_of_found hun r r']
    rfl

theorem bnstAllMarker_const_iff :
    (∀ r r' : Remains, checkBnstAllMarker env r cp p2 = checkBnstAllMarker env r' cp p2) ↔
      (FeatureFunction.bnstAllMarker cp).Settled env fd p1 p2 := by
  show _ ↔ (Unfound env cp → (env.sm.thesaurus = .ntt → OnlyProper p2.smCode.text) ∧
    (env.sm.thesaurus = .bgh → OnlyProper p2.bghCode.text))
  by_cases hun : Unfound env cp
  · unfold checkBnstAllMarker
    cases hth : env.sm.thesaurus with
    | ntt =>
        simp only [markerCode_of_unfound hun (by simp [hth])]
        rw [smAllMatch_const_iff]
        simp [hun]
    | bgh =>
        simp only [markerCode_of_unfound hun (by simp [hth])]
        rw [smAllMatch_const_iff]
        simp [hun]
    | other => simp
  · simp only [hun, false_imp_iff, iff_true]
    intro r r'
    rw [checkBnstAllMarker, markerCode_of_found hun r r']
    rfl

/-- A test gives the same answer whatever is left in memory if and only if it is settled. -/
theorem value_const_iff (fn : FeatureFunction) :
    (∀ r r' : Remains, fn.value env r fd p1 p2 = fn.value env r' fd p1 p2) ↔
      fn.Settled env fd p1 p2 := by
  cases fn with
  | marker cp => exact marker_const_iff
  | bnstMarker cp => exact bnstMarker_const_iff
  | bnstAllMarker cp => exact bnstAllMarker_const_iff
  | strongLevel => exact strongLevel_const_iff
  | level cp => exact level_const_iff
  | _ => exact ⟨fun _ => trivial, fun _ _ _ => rfl⟩

end Settled

/-! ## Matching is read-only -/

/-- The tests before change neither the text of the rule nor the answer for the unit. -/
def ReadOnly (env : FunctionEnv) (rule : String) (fd : List String) (p1 p2 : TestUnit) : Prop :=
  (∀ tests, ruleAfter env rule tests = rule) ∧
    ∀ tests tests' r r',
      (checkFunction env r (ruleAfter env rule tests) fd p1 p2).value =
        (checkFunction env r' (ruleAfter env rule tests') fd p1 p2).value

theorem checkFunction_readOnly_iff (env : FunctionEnv) (rule : String) (fd : List String)
    (p1 p2 : TestUnit) : ReadOnly env rule fd p1 p2 ↔
      ¬RangeForm rule ∧ (readFunction rule).Settled env fd p1 p2 := by
  unfold ReadOnly
  rw [ruleAfter_iff env rule ⟨⟨[], 0, 0⟩, fd, p1, p2⟩, ← value_const_iff]
  refine and_congr_right fun hrange => ?_
  have hrule : ∀ tests, ruleAfter env rule tests = rule :=
    (ruleAfter_iff env rule ⟨⟨[], 0, 0⟩, fd, p1, p2⟩).mpr hrange
  simp only [hrule, forall_const]
  rfl

/-- An environment without databases and options. -/
def emptyEnv : FunctionEnv := ⟨⟨.other, false, fun _ => none, false, fun _ => none⟩, [], none⟩

/-- A morpheme of the given text. -/
def mrphOf (goi2 : String) : TestUnit where
  tree := .node [] none []
  parent := none
  num := 0
  goi := utf8 goi2
  goi2 := utf8 goi2
  goi2Front := [0, 0, 0]
  SM := none
  smCode := ⟨[], dvd_zero _, by simp⟩
  bghCode := ⟨[], dvd_zero _, by simp⟩
  jirituGo := []
  scaseCode _ := 0
  voice := 0

/-- The second test of a morpheme of three characters asks for exactly two. -/
theorem range_cut : ¬∀ (env : FunctionEnv) (rule : String) (fd : List String) (p1 p2 : TestUnit),
    ReadOnly env rule fd p1 p2 := by
  intro h
  have hunit := (h emptyEnv "&形態素長:2-" [] (mrphOf "ことば") (mrphOf "ことば")).2
  have := hunit [] [⟨⟨[], 0, 0⟩, [], mrphOf "ことば", mrphOf "ことば"⟩] ⟨[], 0, 0⟩ ⟨[], 0, 0⟩
  exact absurd this (by decide)

end Knp.Feature
