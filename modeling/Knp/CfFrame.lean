import Knp.Loop
import Knp.NullArray
import Knp.SurfaceCase
import Knp.TagTarget
import Knp.Tokens

/-!
# Case frames in the database (`case_ipal.c`)

`get_ipal_frame` reads an entry of a case frame file into the static structure
`CF_frame`: strings that each end with NUL (the id, the reading, the notation,
the features, and three for each case slot), then what the features say, into
arrays that end with `END_M` or `NULL`. Of what was read before, nothing is
cleared.

> Whatever was read before, the structure holds the content of the entry.

A pair of an array is `none` for `END_M`.
-/

namespace Knp

open Tokens

def CF_ELEMENT_MAX : Nat := 24

def CF_ALIGNMENT_MAX : Nat := 5

/-- The columns `kstr` and `code` of `PP_str_to_code`. -/
def ppStrToCode : List (List UInt8 × Int) :=
  [("φ", 0), ("ガ", 1), ("ヲ", 2), ("ニ", 3), ("カラ", 4), ("ヘ", 5), ("ヨリ", 6), ("ト", 7),
    ("デ", 8), ("ニヨッテ", 9), ("ヲメグル", 10), ("ヲツウジル", 11), ("ヲツウズル", 12),
    ("ヲフクメル", 13), ("ヲハジメル", 14), ("ニカラム", 15), ("ニソウ", 16), ("ニムケル", 17),
    ("ニトモナウ", 18), ("ニモトヅク", 19), ("ヲノゾク", 20), ("ニヨル", 21), ("ニタイスル", 22),
    ("ニカンスル", 23), ("ニカワル", 24), ("ニオク", 25), ("ニツク", 26), ("ニトル", 27),
    ("ニクワエル", 28), ("ニカギル", 29), ("ニツヅク", 30), ("ニアワセル", 31), ("ニクラベル", 32),
    ("ニナラブ", 33), ("トスル", 34), ("ニヨルヌ", 35), ("ニカギルヌ", 36), ("トイウ", 37),
    ("時間", 38), ("マデ", 39), ("修飾", 40), ("ノ", 41), ("ガ２", 42), ("外の関係", 43),
    ("ガガ", 42), ("外ノ関係", 43), ("ハ", 1), ("未", -3), ("＊", -2)].map fun e => (utf8 e.1, e.2)

/-- `pp_kstr_to_code`; `none` for `END_M`. -/
def ppKstrToCode (cp : List UInt8) : Option Int :=
  if cp = utf8 "NIL" then none
  else match ppStrToCode.lookup cp with
    | some code => some code
    | none => if cp = utf8 "ニトッテ" then ppStrToCode.lookup (utf8 "ニヨッテ") else none

/-! ## The structures -/

/-- `CF_CASE_SLOT` -/
structure CfCaseSlot where
  kakuKeishiki : List UInt8
  meishiku : List UInt8
  imisosei : List UInt8
deriving DecidableEq

/-- `CF_FRAME`, with the arrays of `CF_ALIGNMENT` apart. -/
structure CfFrame where
  address : Nat
  yomi : List UInt8
  hyoki : List UInt8
  feature : List UInt8
  predType : List UInt8
  voice : Nat
  etcflag : Nat
  casenum : Nat
  cs : Nat → CfCaseSlot
  samecase : Nat → Option (Int × Int)
  cfId : Nat → Option (List UInt8)
  alignedCase : Nat → Nat → Option (Int × Int)
  data : List UInt8

/-- The file: predicates or nouns. -/
inductive CfFlag
  | pred
  | noun
deriving DecidableEq

/-! ## Reading -/

/-- What a word in the features says. -/
inductive FeatureItem
  | etc (bit : Nat)
  | voice (bit : Nat)
  | alignment (str : List UInt8)
  | merged (c₁ c₂ : Int)
  | unknown

def etcWords : List (List UInt8 × Nat) := [(utf8 "和フレーム", 1), (utf8 "格フレーム変化", 4)]

def voiceWords : List (List UInt8 × Nat) :=
  [("ヲ使役", 1), ("ニ使役", 2), ("直受1", 4), ("直受2", 8), ("間受", 16), ("可能", 32), ("尊敬", 64),
    ("自発", 128)].map fun e => (utf8 e.1, e.2)

/-- A token of the features; 数が小さい格を前に入れる. -/
def featureItem (flag : CfFlag) (token : List UInt8) : FeatureItem :=
  match etcWords.lookup token with
  | some bit => .etc bit
  | none => match voiceWords.lookup token with
    | some bit => .voice bit
    | none =>
        if (utf8 "格フレーム対応:").isPrefixOf token then
          .alignment (token.drop (utf8 "格フレーム対応:").length)
        else match if flag = .pred then cutAt (utf8 "＝") token else none with
          | none => .unknown
          | some (buf, cp) => match ppKstrToCode buf, ppKstrToCode cp with
              | some c₁, some c₂ => if c₂ < c₁ then .merged c₂ c₁ else .merged c₁ c₂
              | _, _ => .unknown

/-- A token of an alignment; the second case may be NIL. -/
def alignedPair (token : List UInt8) : Option (Int × Int) :=
  match cutAt (utf8 "＝") token with
  | none => none
  | some (buf, cp) => (ppKstrToCode buf).map fun c₁ => (c₁, (ppKstrToCode cp).getD END_M)

/-- The loop over the tokens in `get_cf_alignment`, with `count` pairs so far. -/
def alignTokens (n : Nat) : List (List UInt8) → Nat → CfFrame → Nat × CfFrame
  | [], count, f => (count, f)
  | token :: tokens, count, f =>
      match alignedPair token with
      | none => alignTokens n tokens count f
      | some p =>
          if count < CF_ELEMENT_MAX - 1 then
            alignTokens n tokens (count + 1)
              { f with alignedCase :=
                  Function.update f.alignedCase n (Function.update (f.alignedCase n) count (some p)) }
          else alignTokens n tokens count f

/-- `get_cf_alignment`; `none` where there is no id and it copies a NULL. -/
def getCfAlignment (str : List UInt8) (n : Nat) (f : CfFrame) : Option CfFrame :=
  match strtok 59 str with
  | [] => none
  | token :: tokens =>
      let (count, f) :=
        alignTokens n tokens 0 { f with cfId := Function.update f.cfId n (some token) }
      some { f with alignedCase :=
        Function.update f.alignedCase n (Function.update (f.alignedCase n) count none) }

/-- The frame with the numbers of its pairs of same cases and of its alignments. -/
structure FeatureState where
  frame : CfFrame
  count : Nat
  cfAlignedNum : Nat

/-- A word that is no alignment. -/
def addItem (s : FeatureState) : FeatureItem → FeatureState
  | .etc bit => { s with frame := { s.frame with etcflag := s.frame.etcflag ||| bit } }
  | .voice bit => { s with frame := { s.frame with voice := s.frame.voice ||| bit } }
  | .merged c₁ c₂ =>
      if s.count < CF_ELEMENT_MAX - 1 then
        { s with
          frame := { s.frame with
            samecase := Function.update s.frame.samecase s.count (some (c₁, c₂)) }
          count := s.count + 1 }
      else s
  | _ => s

/-- The loop over the tokens of the features. `strtok` remembers one place: behind an alignment it
goes on in the copy that `get_cf_alignment` has taken to pieces and freed, and is at its end. -/
def addTokens (flag : CfFlag) : List (List UInt8) → FeatureState → Option FeatureState
  | [], s => some s
  | token :: tokens, s => match featureItem flag token with
      | .alignment str =>
          if s.cfAlignedNum < CF_ALIGNMENT_MAX - 1 then
            (getCfAlignment str s.cfAlignedNum s.frame).map fun f =>
              { s with frame := f, cfAlignedNum := s.cfAlignedNum + 1 }
          else addTokens flag tokens s
      | item => addTokens flag tokens (addItem s item)

/-- The string behind the NUL number `count` (読み, 表記, 素性を設定). -/
def setString (count : Nat) (s : List UInt8) (f : CfFrame) : CfFrame :=
  if count = 0 then { f with yomi := s }
  else if count = 1 then { f with hyoki := s }
  else if count = 2 then { f with feature := s }
  else
    let n := count / 3 - 1
    if count % 3 = 0 then
      { f with
        cs := Function.update f.cs n { f.cs n with kakuKeishiki := s }
        casenum := f.casenum + 1 }
    else if count % 3 = 1 then
      { f with cs := Function.update f.cs n { f.cs n with meishiku := s } }
    else { f with cs := Function.update f.cs n { f.cs n with imisosei := s } }

/-- The loop over the bytes, from NUL to NUL; it ends where there is no room for a slot, after
the first string of the slot has been set. -/
def setStrings : Nat → List (List UInt8) → CfFrame → CfFrame
  | _, [], f => f
  | count, s :: ss, f =>
      if 3 ≤ count ∧ count % 3 = 0 ∧ CASE_MAX_NUM < f.casenum + 1 then
        let n := count / 3 - 1
        { f with cs := Function.update f.cs n { f.cs n with kakuKeishiki := s } }
      else setStrings (count + 1) ss (setString count s f)

/-- `get_ipal_frame`, up to the cache: `none` where the program ends or fails. The static structure
is `old`; the last byte of an entry is NUL. -/
def getIpalFrame (file : CfFlag → List UInt8) (old : CfFrame) (address size : Nat) (flag : CfFlag) :
    Option CfFrame :=
  let bytes := ((file flag).drop address).take size
  if bytes.length < size then none
  else match bytes.dropLast.splitOn 0 with
    | [] => none
    | data :: strings =>
        let f := setStrings 0 strings { old with address := address, data := data, casenum := 0 }
        let f := { f with voice := 0, etcflag := 0 }
        (addTokens flag (strtok 32 f.feature) ⟨f, 0, 0⟩).map fun s =>
          { s.frame with
            cfId := Function.update s.frame.cfId s.cfAlignedNum none
            alignedCase := Function.update s.frame.alignedCase s.cfAlignedNum
              (Function.update (s.frame.alignedCase s.cfAlignedNum) 0 none)
            samecase := Function.update s.frame.samecase s.count none
            predType := match cutAt [58] s.frame.data with
              | some (_, cp) => cp.take BYTES4CHAR
              | none => [] }

/-! ## The content of an entry -/

/-- An entry of the file. -/
structure CfEntry where
  id : List UInt8
  yomi : List UInt8
  hyoki : List UInt8
  feature : List UInt8
  slots : List CfCaseSlot

def CfCaseSlot.strings (slot : CfCaseSlot) : List (List UInt8) :=
  [slot.kakuKeishiki, slot.meishiku, slot.imisosei]

namespace CfEntry

def strings (e : CfEntry) : List (List UInt8) :=
  e.id :: e.yomi :: e.hyoki :: e.feature :: e.slots.flatMap CfCaseSlot.strings

def bytes (e : CfEntry) : List UInt8 := join e.strings

/-- The words that are read of the features. -/
def items (e : CfEntry) (flag : CfFlag) : List FeatureItem :=
  (strtok 32 e.feature).map (featureItem flag)

end CfEntry

def FeatureItem.isAlignment : FeatureItem → Bool
  | .alignment _ => true
  | _ => false

def FeatureItem.etcBit : FeatureItem → Nat
  | .etc bit => bit
  | _ => 0

def FeatureItem.voiceBit : FeatureItem → Nat
  | .voice bit => bit
  | _ => 0

def FeatureItem.pair? : FeatureItem → Option (Int × Int)
  | .merged c₁ c₂ => some (c₁, c₂)
  | _ => none

/-- The id and the pairs of an alignment. -/
def FeatureItem.aligned? : FeatureItem → Option (List UInt8 × List (Int × Int))
  | .alignment str => match strtok 59 str with
      | [] => none
      | token :: tokens => some (token, (tokens.filterMap alignedPair).take (CF_ELEMENT_MAX - 1))
  | _ => none

/-- What a case frame says. -/
@[ext] structure CfContent where
  address : Nat
  yomi : List UInt8
  hyoki : List UInt8
  feature : List UInt8
  predType : List UInt8
  voice : Nat
  etcflag : Nat
  slots : List CfCaseSlot
  samecase : List (Int × Int)
  aligned : List (List UInt8 × List (Int × Int))
  id : List UInt8

/-- The words up to the first alignment. -/
def frontItems (items : List FeatureItem) : List FeatureItem :=
  items.takeWhile fun item => !item.isAlignment

/-- The pairs of same cases behind those in `l`, as far as there is room. -/
def pairsOf (l : List (Int × Int)) (items : List FeatureItem) : List (Int × Int) :=
  (l ++ (frontItems items).filterMap FeatureItem.pair?).take (CF_ELEMENT_MAX - 1)

def alignedOf (items : List FeatureItem) : List (List UInt8 × List (Int × Int)) :=
  ((items.find? FeatureItem.isAlignment).bind FeatureItem.aligned?).toList

def CfEntry.content (e : CfEntry) (address : Nat) (flag : CfFlag) : CfContent where
  address := address
  yomi := e.yomi
  hyoki := e.hyoki
  feature := e.feature
  predType := match cutAt [58] e.id with
    | some (_, cp) => cp.take BYTES4CHAR
    | none => []
  voice := ((frontItems (e.items flag)).map FeatureItem.voiceBit).foldl (· ||| ·) 0
  etcflag := ((frontItems (e.items flag)).map FeatureItem.etcBit).foldl (· ||| ·) 0
  slots := e.slots.take CASE_MAX_NUM
  samecase := pairsOf [] (e.items flag)
  aligned := alignedOf (e.items flag)
  id := e.id

/-- The arrays of a frame hold the content. -/
structure CfFrame.Holds (f : CfFrame) (c : CfContent) : Prop where
  address : f.address = c.address
  yomi : f.yomi = c.yomi
  hyoki : f.hyoki = c.hyoki
  feature : f.feature = c.feature
  predType : f.predType = c.predType
  voice : f.voice = c.voice
  etcflag : f.etcflag = c.etcflag
  casenum : f.casenum = c.slots.length
  cs : ∀ i (h : i < c.slots.length), f.cs i = c.slots[i]
  samecase : NullArray.Reads f.samecase c.samecase
  cfId : NullArray.Reads f.cfId (c.aligned.map Prod.fst)
  alignedCase : ∀ i (h : i < c.aligned.length), NullArray.Reads (f.alignedCase i) c.aligned[i].2
  data : f.data = c.id

/-! ## What is read holds the content -/

section Read

open NullArray

variable {f : CfFrame} {n : Nat}

theorem setString_kakuKeishiki (s : List UInt8) : setString (3 * (n + 1)) s f =
    { f with
      cs := Function.update f.cs n { f.cs n with kakuKeishiki := s }
      casenum := f.casenum + 1 } := by
  rw [setString, if_neg (by omega), if_neg (by omega), if_neg (by omega)]
  dsimp only
  rw [if_pos (by omega), show 3 * (n + 1) / 3 - 1 = n by omega]

theorem setString_meishiku (s : List UInt8) : setString (3 * (n + 1) + 1) s f =
    { f with cs := Function.update f.cs n { f.cs n with meishiku := s } } := by
  rw [setString, if_neg (by omega), if_neg (by omega), if_neg (by omega)]
  dsimp only
  rw [if_neg (by omega), if_pos (by omega), show (3 * (n + 1) + 1) / 3 - 1 = n by omega]

theorem setString_imisosei (s : List UInt8) : setString (3 * (n + 1) + 1 + 1) s f =
    { f with cs := Function.update f.cs n { f.cs n with imisosei := s } } := by
  rw [setString, if_neg (by omega), if_neg (by omega), if_neg (by omega)]
  dsimp only
  rw [if_neg (by omega), if_neg (by omega), show (3 * (n + 1) + 1 + 1) / 3 - 1 = n by omega]

/-- The three strings of one slot. -/
theorem setStrings_slot (slot : CfCaseSlot) (ss : List (List UInt8)) (hn : f.casenum = n)
    (hlt : n < CASE_MAX_NUM) :
    setStrings (3 * (n + 1)) (slot.strings ++ ss) f =
      setStrings (3 * (n + 1 + 1)) ss
        { f with cs := Function.update f.cs n slot, casenum := n + 1 } := by
  simp only [CfCaseSlot.strings, List.cons_append, List.nil_append, setStrings]
  rw [if_neg (by omega), if_neg (by omega), if_neg (by omega), setString_kakuKeishiki,
    setString_meishiku, setString_imisosei, hn]
  simp only [Function.update_self, Function.update_idem]
  rfl

/-- The strings of the slots, as far as there is room: the other fields stay. -/
theorem setStrings_slots : ∀ (slots : List CfCaseSlot) (n : Nat) (f : CfFrame),
    f.casenum = n → n ≤ CASE_MAX_NUM →
    ∃ cs, setStrings (3 * (n + 1)) (slots.flatMap CfCaseSlot.strings) f =
        { f with cs := cs, casenum := n + (slots.take (CASE_MAX_NUM - n)).length } ∧
      (∀ i < n, cs i = f.cs i) ∧
      ∀ i (h : i < (slots.take (CASE_MAX_NUM - n)).length),
        cs (n + i) = (slots.take (CASE_MAX_NUM - n))[i]
  | [], n, f, hn, _ => by
      refine ⟨f.cs, ?_, fun _ _ => rfl, fun i h => by simp at h⟩
      simp [setStrings, ← hn]
  | slot :: slots, n, f, hn, hle => by
      rcases Nat.eq_or_lt_of_le hle with hfull | hlt
      · refine ⟨Function.update f.cs n { f.cs n with kakuKeishiki := slot.kakuKeishiki }, ?_,
          fun i hi => Function.update_of_ne hi.ne .., fun i h => by simp [hfull] at h⟩
        simp only [List.flatMap_cons, CfCaseSlot.strings, List.cons_append, setStrings]
        rw [if_pos (by omega), show 3 * (n + 1) / 3 - 1 = n by omega, hfull, Nat.sub_self,
          List.take_zero, List.length_nil, Nat.add_zero, ← hfull, ← hn]
      · obtain ⟨cs, heq, hbefore, hcs⟩ := setStrings_slots slots (n + 1)
          { f with cs := Function.update f.cs n slot, casenum := n + 1 } rfl hlt
        have htake : (slot :: slots).take (CASE_MAX_NUM - n) =
            slot :: slots.take (CASE_MAX_NUM - (n + 1)) := by
          rw [show CASE_MAX_NUM - n = CASE_MAX_NUM - (n + 1) + 1 by omega, List.take_succ_cons]
        refine ⟨cs, ?_, fun i hi => ?_, ?_⟩
        · rw [List.flatMap_cons, setStrings_slot slot _ hn hlt, heq, htake, List.length_cons]
          congr 1
          omega
        · rw [hbefore i (by omega)]
          exact Function.update_of_ne hi.ne ..
        · rw [htake]
          intro i h
          cases i with
          | zero =>
              rw [Nat.add_zero, hbefore n (Nat.lt_succ_self n)]
              exact Function.update_self ..
          | succ i =>
              rw [List.getElem_cons_succ, ← hcs i (by simpa using h)]
              congr 1
              omega

/-- The pairs of an alignment, as far as there is room. -/
theorem alignTokens_starts : ∀ (tokens : List (List UInt8)) (l : List (Int × Int)) (f : CfFrame),
    Starts (f.alignedCase n) l → l.length < CF_ELEMENT_MAX →
    ∃ a, alignTokens n tokens l.length f =
        (((l ++ tokens.filterMap alignedPair).take (CF_ELEMENT_MAX - 1)).length,
          { f with alignedCase := Function.update f.alignedCase n a }) ∧
      Starts a ((l ++ tokens.filterMap alignedPair).take (CF_ELEMENT_MAX - 1))
  | [], l, f, hl, hlen => by
      have htake : (l ++ [].filterMap alignedPair).take (CF_ELEMENT_MAX - 1) = l := by
        rw [List.filterMap_nil, List.append_nil, List.take_of_length_le (by omega)]
      refine ⟨f.alignedCase n, ?_, by rwa [htake]⟩
      rw [htake, alignTokens, Function.update_eq_self]
  | token :: tokens, l, f, hl, hlen => by
      unfold alignTokens
      cases hpair : alignedPair token with
      | none =>
          rw [List.filterMap_cons_none hpair]
          exact alignTokens_starts tokens l f hl hlen
      | some p =>
          rw [List.filterMap_cons_some hpair]
          dsimp only
          by_cases hroom : l.length < CF_ELEMENT_MAX - 1
          · obtain ⟨a, heq, ha⟩ := alignTokens_starts tokens (l ++ [p])
              { f with alignedCase :=
                Function.update f.alignedCase n (Function.update (f.alignedCase n) l.length (some p)) }
              (by simpa using hl.snoc p) (by rw [List.length_append, List.length_singleton]; omega)
            rw [List.append_assoc, List.singleton_append] at heq ha
            refine ⟨a, ?_, ha⟩
            rw [List.length_append, List.length_singleton] at heq
            rw [if_pos hroom, heq, Function.update_idem]
          · obtain ⟨a, heq, ha⟩ := alignTokens_starts tokens l f hl hlen
            have htake : ∀ m : List (Int × Int), (l ++ m).take (CF_ELEMENT_MAX - 1) = l := fun m => by
              rw [List.take_append_of_le_length (by omega), List.take_of_length_le (by omega)]
            rw [htake] at heq ha
            refine ⟨a, ?_, ?_⟩
            · rw [if_neg hroom, heq, htake]
            · rwa [htake]

/-- An alignment is read into the entry `n` of the arrays. -/
theorem getCfAlignment_reads {str id : List UInt8} {pairs : List (Int × Int)}
    (h : (FeatureItem.alignment str).aligned? = some (id, pairs)) (n : Nat) (f : CfFrame) :
    ∃ a, getCfAlignment str n f = some { f with
        cfId := Function.update f.cfId n (some id)
        alignedCase := Function.update f.alignedCase n a } ∧
      Reads a pairs := by
  unfold FeatureItem.aligned? at h
  unfold getCfAlignment
  cases htokens : strtok 59 str with
  | nil => simp [htokens] at h
  | cons token tokens =>
      simp only [htokens, Option.some.injEq, Prod.mk.injEq] at h
      obtain ⟨rfl, rfl⟩ := h
      obtain ⟨a, heq, ha⟩ := alignTokens_starts tokens []
        { f with cfId := Function.update f.cfId n (some token) } starts_nil (by decide)
      rw [List.nil_append] at heq ha
      rw [List.length_nil] at heq
      refine ⟨_, ?_, ha.close⟩
      dsimp only
      rw [heq]
      simp only [Function.update_self, Function.update_idem]

theorem addItem_starts {s : FeatureState} {l : List (Int × Int)} {item : FeatureItem}
    (hl : Starts s.frame.samecase l) (hcount : s.count = l.length) (hlen : l.length < CF_ELEMENT_MAX)
    (hitem : item.isAlignment = false) :
    ∃ a, addItem s item =
        ⟨{ s.frame with
            voice := s.frame.voice ||| item.voiceBit
            etcflag := s.frame.etcflag ||| item.etcBit
            samecase := a },
          ((l ++ item.pair?.toList).take (CF_ELEMENT_MAX - 1)).length, s.cfAlignedNum⟩ ∧
      Starts a ((l ++ item.pair?.toList).take (CF_ELEMENT_MAX - 1)) := by
  have hsame : item.pair? = none → (l ++ item.pair?.toList).take (CF_ELEMENT_MAX - 1) = l := by
    intro h
    rw [h, Option.toList_none, List.append_nil, List.take_of_length_le (by omega)]
  cases item with
  | alignment str => cases hitem
  | merged c₁ c₂ =>
      by_cases hroom : l.length < CF_ELEMENT_MAX - 1
      · have hpair : (l ++ (FeatureItem.merged c₁ c₂).pair?.toList).take (CF_ELEMENT_MAX - 1) =
            l ++ [(c₁, c₂)] :=
          List.take_of_length_le (by
            change (l ++ [(c₁, c₂)]).length ≤ _
            rw [List.length_append, List.length_singleton]
            omega)
        rw [hpair]
        refine ⟨_, ?_, hl.snoc (c₁, c₂)⟩
        simp only [addItem, hcount, if_pos hroom, FeatureItem.voiceBit, FeatureItem.etcBit,
          Nat.or_zero, List.length_append, List.length_singleton]
      · have hpair : (l ++ (FeatureItem.merged c₁ c₂).pair?.toList).take (CF_ELEMENT_MAX - 1) = l := by
          rw [List.take_append_of_le_length (by omega), List.take_of_length_le (by omega)]
        rw [← hcount] at hroom
        rw [hpair, ← hcount]
        refine ⟨s.frame.samecase, ?_, hl⟩
        simp only [addItem, if_neg hroom, FeatureItem.voiceBit, FeatureItem.etcBit, Nat.or_zero]
  | etc bit =>
      rw [hsame rfl, ← hcount]
      refine ⟨s.frame.samecase, ?_, hl⟩
      simp only [addItem, FeatureItem.voiceBit, FeatureItem.etcBit, Nat.or_zero]
  | voice bit =>
      rw [hsame rfl, ← hcount]
      refine ⟨s.frame.samecase, ?_, hl⟩
      simp only [addItem, FeatureItem.voiceBit, FeatureItem.etcBit, Nat.or_zero]
  | unknown =>
      rw [hsame rfl, ← hcount]
      refine ⟨s.frame.samecase, ?_, hl⟩
      simp only [addItem, FeatureItem.voiceBit, FeatureItem.etcBit, Nat.or_zero]

section Items

variable {item : FeatureItem} {items : List FeatureItem} {l : List (Int × Int)}

theorem frontItems_cons (h : item.isAlignment = false) :
    frontItems (item :: items) = item :: frontItems items :=
  List.takeWhile_cons_of_pos (by rw [h]; rfl)

theorem frontItems_cons_alignment (h : item.isAlignment = true) : frontItems (item :: items) = [] :=
  List.takeWhile_cons_of_neg (by rw [h]; exact Bool.false_ne_true)

theorem alignedOf_cons (h : item.isAlignment = false) : alignedOf (item :: items) = alignedOf items := by
  rw [alignedOf, List.find?_cons_of_neg (by rw [h]; exact Bool.false_ne_true), alignedOf]

theorem pairsOf_of_front_nil (h : frontItems items = []) (hlen : l.length < CF_ELEMENT_MAX) :
    pairsOf l items = l := by
  rw [pairsOf, h, List.filterMap_nil, List.append_nil, List.take_of_length_le (by omega)]

theorem take_take_append {α : Type*} (n : Nat) (l m : List α) :
    (l.take n ++ m).take n = (l ++ m).take n := by
  rw [List.take_append, List.take_append, List.take_take, Nat.min_self, List.length_take]
  congr 2
  omega

theorem pairsOf_cons (h : item.isAlignment = false) : pairsOf l (item :: items) =
    pairsOf ((l ++ item.pair?.toList).take (CF_ELEMENT_MAX - 1)) items := by
  have hfilter : (frontItems (item :: items)).filterMap FeatureItem.pair? =
      item.pair?.toList ++ (frontItems items).filterMap FeatureItem.pair? := by
    rw [frontItems_cons h]
    cases hpair : item.pair? with
    | none => rw [List.filterMap_cons_none hpair, Option.toList_none, List.nil_append]
    | some p => rw [List.filterMap_cons_some hpair, Option.toList_some, List.singleton_append]
  rw [pairsOf, pairsOf, hfilter, ← List.append_assoc, take_take_append]

end Items

theorem addTokens_cons {flag : CfFlag} {token : List UInt8} {tokens : List (List UInt8)}
    {s : FeatureState} (h : (featureItem flag token).isAlignment = false) :
    addTokens flag (token :: tokens) s = addTokens flag tokens (addItem s (featureItem flag token)) := by
  rw [addTokens]
  cases hitem : featureItem flag token with
  | alignment str => rw [hitem] at h; cases h
  | _ => rfl

/-- The words up to the first alignment are read, and the alignment. -/
theorem addTokens_reads (flag : CfFlag) : ∀ (tokens : List (List UInt8)) {s : FeatureState}
    {l : List (Int × Int)}, Starts s.frame.samecase l → s.count = l.length →
    l.length < CF_ELEMENT_MAX → s.cfAlignedNum = 0 →
    (∀ item, (tokens.map (featureItem flag)).find? FeatureItem.isAlignment = some item →
      item.aligned?.isSome) →
    let items := tokens.map (featureItem flag)
    ∃ sc ids al, addTokens flag tokens s = some
        ⟨{ s.frame with
            voice := ((frontItems items).map FeatureItem.voiceBit).foldl (· ||| ·) s.frame.voice
            etcflag := ((frontItems items).map FeatureItem.etcBit).foldl (· ||| ·) s.frame.etcflag
            samecase := sc
            cfId := ids
            alignedCase := al }, (pairsOf l items).length, (alignedOf items).length⟩ ∧
      Starts sc (pairsOf l items) ∧ Starts ids ((alignedOf items).map Prod.fst) ∧
      ∀ i (h : i < (alignedOf items).length), Reads (al i) (alignedOf items)[i].2
  | [], s, l, hl, hcount, hlen, hnum, _ => by
      have hpairs : pairsOf l (([] : List (List UInt8)).map (featureItem flag)) = l :=
        pairsOf_of_front_nil rfl hlen
      refine ⟨s.frame.samecase, s.frame.cfId, s.frame.alignedCase, ?_, by rwa [hpairs],
        starts_nil, fun i h => absurd h (Nat.not_lt_zero i)⟩
      rw [hpairs, ← hcount]
      change some s = some ⟨s.frame, s.count, 0⟩
      rw [← hnum]
  | token :: tokens, s, l, hl, hcount, hlen, hnum, hids => by
      by_cases halign : (featureItem flag token).isAlignment = true
      · obtain ⟨str, hstr⟩ : ∃ str, featureItem flag token = .alignment str := by
          cases hitem : featureItem flag token with
          | alignment str => exact ⟨str, rfl⟩
          | _ => rw [hitem] at halign; cases halign
        have hfind : ((token :: tokens).map (featureItem flag)).find? FeatureItem.isAlignment =
            some (.alignment str) := by
          rw [List.map_cons, hstr]
          rfl
        obtain ⟨⟨id, pairs⟩, hid⟩ := Option.isSome_iff_exists.mp (hids _ hfind)
        obtain ⟨a, heq, ha⟩ := getCfAlignment_reads hid s.cfAlignedNum s.frame
        have hfront : frontItems ((token :: tokens).map (featureItem flag)) = [] :=
          frontItems_cons_alignment halign
        have hof : alignedOf ((token :: tokens).map (featureItem flag)) = [(id, pairs)] := by
          rw [alignedOf, hfind, Option.bind_some, hid]
          rfl
        dsimp only
        rw [hof, hfront, pairsOf_of_front_nil hfront hlen]
        rw [hnum] at heq
        refine ⟨s.frame.samecase, Function.update s.frame.cfId 0 (some id),
          Function.update s.frame.alignedCase 0 a, ?_, hl, starts_nil.snoc id, fun i h => ?_⟩
        · rw [addTokens, hstr]
          dsimp only
          rw [hnum, if_pos (by decide), heq, ← hcount]
          rfl
        · obtain rfl : i = 0 := Nat.lt_one_iff.mp h
          rwa [Function.update_self]
      · rw [Bool.not_eq_true] at halign
        obtain ⟨sc, hadd, hsc⟩ := addItem_starts hl hcount hlen halign
        obtain ⟨sc', ids, al, heq, hsc', hids', hal⟩ := addTokens_reads flag tokens
          (s := addItem s (featureItem flag token)) (by rw [hadd]; exact hsc) (by rw [hadd])
          (by rw [List.length_take]; omega) (by rw [hadd]; exact hnum) (fun item hitem => hids item (by
            rw [List.map_cons, List.find?_cons_of_neg (by rw [halign]; exact Bool.false_ne_true)]
            exact hitem))
        dsimp only
        rw [List.map_cons, alignedOf_cons halign, pairsOf_cons halign, frontItems_cons halign]
        refine ⟨sc', ids, al, ?_, hsc', hids', hal⟩
        rw [addTokens_cons halign, heq, hadd]
        rfl

/-- The file has the entry at the address. -/
structure Stored (file : CfFlag → List UInt8) (address size : Nat) (flag : CfFlag) (e : CfEntry) :
    Prop where
  bytes : ((file flag).drop address).take size = e.bytes
  size : size = e.bytes.length
  noNul : ∀ s ∈ e.strings, 0 ∉ s
  ids : ∀ item, (e.items flag).find? FeatureItem.isAlignment = some item → item.aligned?.isSome

/-- The three strings in front of those of the slots. -/
theorem setStrings_entry (e : CfEntry) (f : CfFrame) :
    setStrings 0 (e.yomi :: e.hyoki :: e.feature :: e.slots.flatMap CfCaseSlot.strings) f =
      setStrings (3 * (0 + 1)) (e.slots.flatMap CfCaseSlot.strings)
        { f with yomi := e.yomi, hyoki := e.hyoki, feature := e.feature } := rfl

/-- Whatever was read before, `get_ipal_frame` reads the content of the entry. -/
theorem getIpalFrame_holds {file : CfFlag → List UInt8} {address size : Nat} {flag : CfFlag}
    {e : CfEntry} (h : Stored file address size flag e) (old : CfFrame) :
    ∃ f, getIpalFrame file old address size flag = some f ∧ f.Holds (e.content address flag) := by
  have hsplit : e.bytes.dropLast.splitOn 0 = e.strings := splitOn_join (List.cons_ne_nil _ _) h.noNul
  obtain ⟨cs, hstrings, -, hcs⟩ := setStrings_slots e.slots 0
    { old with
      address := address, data := e.id, casenum := 0, yomi := e.yomi, hyoki := e.hyoki,
      feature := e.feature } rfl (Nat.zero_le _)
  obtain ⟨sc, ids, al, htokens, hsc, hids, hal⟩ := addTokens_reads flag
    (strtok 32 e.feature)
    (s := ⟨{ old with
      address := address, data := e.id, casenum := 0 + (e.slots.take (CASE_MAX_NUM - 0)).length
      yomi := e.yomi, hyoki := e.hyoki, feature := e.feature, cs := cs
      voice := 0, etcflag := 0 }, 0, 0⟩) starts_nil rfl (by decide) rfl h.ids
  unfold getIpalFrame
  dsimp only
  rw [h.bytes, if_neg (by rw [h.size]; exact lt_irrefl _), hsplit]
  unfold CfEntry.strings
  dsimp only
  rw [setStrings_entry, hstrings]
  dsimp only
  rw [htokens]
  refine ⟨_, rfl, ?_⟩
  refine ⟨rfl, rfl, rfl, rfl, rfl, rfl, rfl, ?_, ?_, hsc.close, ?_, ?_, rfl⟩
  · exact Nat.zero_add _
  · intro i hi
    have := hcs i hi
    rwa [Nat.zero_add] at this
  · have := hids.close
    rwa [List.length_map] at this
  · intro i hi
    have hi' : i < (alignedOf (e.items flag)).length := hi
    change Reads (Function.update al (alignedOf (e.items flag)).length _ i) _
    rw [Function.update_of_ne hi'.ne]
    exact hal i hi

end Read

end Knp
