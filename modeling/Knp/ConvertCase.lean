import Knp.Annotation
import Knp.MrphMerge
import Knp.RelaxCompare

/-!
# Case results in the output of the anaphora analysis (`anaphora.c`)

`convert_case_result` turns the feature 格解析結果 of a predicate into 述語項構造: behind each
colon or semicolon it reads a slot again, and puts the number of the entity that is mentioned at
the tag behind it.

> A slot comes out as it is if its word is read to the end, each of its colons and semicolons
> stands in front of a slash, and some entity is mentioned at its tag.

Behind any other colon or semicolon one more slot is put in. If no entity is mentioned at the tag,
`get_eid` comes to its end without a return.

A result is `none` where the C code uses a value that is not set, or writes behind the end of a
buffer.
-/

namespace Knp

open Scanf

def CF_ID_LEN_MAX : Nat := 280

/-! ## The function -/

/-- `MENTION` -/
structure CaseMention where
  type : UInt8
  sentNum : Int
  tagNum : Int

/-- `ENTITY` -/
structure CaseEntity where
  num : Int
  mention : List CaseMention

/-- The type is 'S' or '=', and the mention is at this tag. -/
def CaseEntity.overtAt (tagNum sentNum : Int) (e : CaseEntity) : Bool :=
  e.mention.any fun m => (m.type = 83 || m.type = 61) && m.sentNum = sentNum && m.tagNum = tagNum

/-- `get_eid`; `none` where nothing is returned. -/
def getEid (entities : List CaseEntity) (tagNum sentNum : Int) : Option Int :=
  (entities.find? (CaseEntity.overtAt tagNum sentNum)).map CaseEntity.num

/-- `"%[^/]/%c/%[^/]/%[^/]/%[^/]"` -/
def convertPattern : List Directive :=
  [.until 47, .lit 47, .chr, .lit 47, .until 47, .lit 47, .until 47, .lit 47, .until 47]

/-- The variables of `convert_case_result`; `none` as long as they are not set. -/
structure ConvertVars where
  rel : Option (List UInt8)
  type : Option UInt8
  entityName : Option (List UInt8)
  tagNumStr : Option (List UInt8)
  sentNumStr : Option (List UInt8)

/-- A field is written to a buffer of a size. -/
def fieldSet (vs : List Value) (k size : Nat) (old : Option (List UInt8)) :
    Option (Option (List UInt8)) :=
  match vs[k]? with
  | some (.str s) => if s.length < size then some (some s) else none
  | _ => some old

def chrSet (vs : List Value) (k : Nat) (old : Option UInt8) : Option UInt8 :=
  match vs[k]? with
  | some (.chr c) => some c
  | _ => old

def ConvertVars.sscanf (v : ConvertVars) (text : List UInt8) : Option ConvertVars := do
  let vs := scan convertPattern text
  let rel ← fieldSet vs 0 SMALL_DATA_LEN v.rel
  let entityName ← fieldSet vs 2 REPNAME_LEN_MAX v.entityName
  let tagNumStr ← fieldSet vs 3 SMALL_DATA_LEN v.tagNumStr
  let sentNumStr ← fieldSet vs 4 SMALL_DATA_LEN v.sentNumStr
  return ⟨rel, chrSet vs 1 v.type, entityName, tagNumStr, sentNumStr⟩

/-- The result of `sscanf` is not 0: a field is converted, or the text is empty (`EOF`). -/
def converted (text : List UInt8) : Bool := text.isEmpty || !(scan convertPattern text).isEmpty

def atoiText (s : List UInt8) : Int := ((scanInt s).map Prod.fst).getD 0

/-- `"%c%s/%c/%s/%s/%s/%s"` -/
def slotText (c : UInt8) (rel : List UInt8) (type : UInt8) (entityName sentNumStr tagNumStr
    eid : List UInt8) : List UInt8 :=
  c :: (rel ++ 47 :: type :: 47 :: (entityName ++ 47 :: (sentNumStr ++ 47 :: (tagNumStr ++
    47 :: eid))))

section Convert

variable (entities : List CaseEntity) (senNum : Int)

/-- The number that is printed, or '-'. -/
def eidStr (tagNumStr sentNumStr : List UInt8) : Option (List UInt8) :=
  if tagNumStr ≠ [45] then
    (getEid entities (atoiText tagNumStr) (senNum - atoiText sentNumStr)).map putInt
  else some [45]

/-- What is put into `temp`. -/
def ConvertVars.temp (v : ConvertVars) (c : UInt8) : Option (List UInt8) := do
  let rel ← v.rel
  let type ← v.type
  let entityName ← v.entityName
  let tagNumStr ← v.tagNumStr
  let sentNumStr ← v.sentNumStr
  let eid ← eidStr entities senNum tagNumStr sentNumStr
  let temp := slotText c rel type entityName sentNumStr tagNumStr eid
  if temp.length < SMALL_DATA_LEN then some temp else none

/-- The loop over the text, with what is appended to `buf` one after the other. -/
def convertLoop : ConvertVars → List UInt8 → Option (List (List UInt8))
  | _, [] => some []
  | v, c :: cs =>
      if c = 59 ∨ c = 58 then do
        let v ← v.sscanf cs
        if converted cs then
          let temp ← v.temp entities senNum c
          (convertLoop v cs).map (temp :: ·)
        else convertLoop v cs
      else convertLoop v cs

/-- `"格解析結果:%[^:]:%[^:]:"` -/
def headPattern : List Directive :=
  (utf8 "格解析結果:").map .lit ++ [.until 58, .lit 58, .until 58, .lit 58]

/-- From the third colon on: `NULL + 1 - 1` is `NULL` again. -/
def thirdColon (feature : List UInt8) : Option (List UInt8) :=
  match feature.dropWhile (· ≠ 58) with
  | [] => none
  | _ :: cp => match cp.dropWhile (· ≠ 58) with
      | [] => none
      | _ :: cp => some (cp.dropWhile (· ≠ 58))

/-- `convert_case_result`: what `buf` is put together from. -/
def convertCaseResult (feature : List UInt8) : Option (List (List UInt8)) := do
  let vs := scan headPattern feature
  let predName ← (← fieldSet vs 0 CF_ID_LEN_MAX none)
  let id ← (← fieldSet vs 1 CF_ID_LEN_MAX none)
  let pieces ← convertLoop entities senNum ⟨none, none, none, none, none⟩ (← thirdColon feature)
  let buf := (utf8 "述語項構造:" ++ (predName ++ 58 :: id)) :: pieces
  if buf.flatten.length < DATA_LEN then some buf else none

end Convert

/-! ## What is written about a predicate -/

namespace CcPiece

def caseStr : CcPiece → List UInt8
  | unassigned s => s
  | unspecified s => s
  | component c => c.ppStr

def flag : CcPiece → UInt8
  | unassigned _ => 85
  | unspecified _ => 69
  | component c => if c.tagN < 0 then 85 else ccFlag c.ccType

def word : CcPiece → List UInt8
  | unassigned _ => [45]
  | unspecified _ => utf8 "不特定:人"
  | component c => if c.tagN < 0 then [45] else c.word

/-- The tag, and how many sentences before. -/
def place : CcPiece → Option (Int × Int)
  | component c => if c.tagN < 0 then none else some (c.tagN, c.dist)
  | _ => none

def sid : CcPiece → List UInt8
  | component c => if c.tagN < 0 then [45] else c.sid
  | _ => [45]

def tagStr (p : CcPiece) : List UInt8 := (p.place.map fun t => putInt t.1).getD [45]

def distStr (p : CcPiece) : List UInt8 := (p.place.map fun t => putInt t.2).getD [45]

end CcPiece

/-- A name of a case without a sign that the reader stops at. -/
structure IsPlain (s : List UInt8) : Prop where
  ne_nil : s ≠ []
  slash : 47 ∉ s
  colon : 58 ∉ s
  semicolon : 59 ∉ s

/-- The result for a predicate, with a case frame of the form name:type-number. -/
structure CaseResult where
  name : List UInt8
  id : List UInt8
  pieces : List CcPiece
  name_ne : name ≠ []
  name_colon : 58 ∉ name
  id_ne : id ≠ []
  id_colon : 58 ∉ id
  plain : ∀ p ∈ pieces, IsPlain p.caseStr

/-- The sign in front of each piece. -/
def withSigns : List CcPiece → List (UInt8 × CcPiece)
  | [] => []
  | p :: ps => (58, p) :: ps.map (Prod.mk 59)

def signedText (x : UInt8 × CcPiece) : List UInt8 := x.1 :: x.2.text false

namespace CaseResult

variable (r : CaseResult) (entities : List CaseEntity) (senNum : Int)

/-- `feature` -/
def feature : List UInt8 :=
  utf8 "格解析結果:" ++ (r.name ++ 58 :: (r.id ++ (withSigns r.pieces).flatMap signedText))

end CaseResult

section Law

variable (entities : List CaseEntity) (senNum : Int)

/-- The number of the entity that is mentioned there, or '-'. -/
def IsEid (place : Option (Int × Int)) (eid : List UInt8) : Prop :=
  match place with
  | none => eid = [45]
  | some (tagNum, dist) =>
      (∃ e ∈ entities, e.overtAt tagNum (senNum - dist) = true ∧ eid = putInt e.num) ∨
        (∀ e ∈ entities, e.overtAt tagNum (senNum - dist) = false) ∧ eid = [45]

/-- A slot with its own relation, type, word, distance, tag and entity. -/
def IsConverted (x : UInt8 × CcPiece) (temp : List UInt8) : Prop :=
  ∃ eid, IsEid entities senNum x.2.place eid ∧
    temp = slotText x.1 x.2.caseStr x.2.flag x.2.word x.2.distStr x.2.tagStr eid

/-- The law: the same slots in the same order. -/
def CaseResult.Converts (r : CaseResult) : Prop :=
  ∃ temps, convertCaseResult entities senNum r.feature =
      some ((utf8 "述語項構造:" ++ (r.name ++ 58 :: r.id)) :: temps) ∧
    List.Forall₂ (IsConverted entities senNum) (withSigns r.pieces) temps

/-- What comes out for a piece. -/
def convertedText (x : UInt8 × CcPiece) : List UInt8 :=
  slotText x.1 x.2.caseStr x.2.flag x.2.word x.2.distStr x.2.tagStr
    (match x.2.place with
      | none => [45]
      | some (tagNum, dist) => ((getEid entities tagNum (senNum - dist)).map putInt).getD [45])

/-- A piece that is converted. -/
structure CcPiece.Convertible (p : CcPiece) : Prop where
  word_ne : p.word ≠ []
  word_slash : 47 ∉ p.word
  signs : ∀ c back, c :: back <:+ p.text false → c = 59 ∨ c = 58 → back.head? = some 47
  mentioned : ∀ tagNum dist, p.place = some (tagNum, dist) →
    ∃ e ∈ entities, e.overtAt tagNum (senNum - dist) = true
  fits : (convertedText entities senNum (59, p)).length < SMALL_DATA_LEN

structure CaseResult.Convertible (r : CaseResult) : Prop where
  name_fits : r.name.length < CF_ID_LEN_MAX
  id_fits : r.id.length < CF_ID_LEN_MAX
  pieces : ∀ p ∈ r.pieces, p.Convertible entities senNum
  room : ((utf8 "述語項構造:" ++ (r.name ++ 58 :: r.id)) ::
    (withSigns r.pieces).map (convertedText entities senNum)).flatten.length < DATA_LEN

end Law

/-! ## The text of a piece -/

theorem slash_notMem_putInt (n : Int) : 47 ∉ putInt n := by
  intro h
  rcases mem_putInt h with h | h
  · cases h
  · cases h

theorem putInt_ne_nil (n : Int) : putInt n ≠ [] := by
  unfold putInt
  split
  · exact List.cons_ne_nil _ _
  · exact putNat_ne_nil _

/-- A number is not the sign for nothing. -/
theorem putInt_ne_hyphen (n : Int) : putInt n ≠ [45] := by
  unfold putInt
  split
  · intro h
    exact putNat_ne_nil _ (List.cons.inj h).2
  · intro h
    have hdigit := isDigit_of_mem_putNat (h ▸ List.mem_singleton_self 45)
    cases hdigit

theorem scanInt_putInt_end (n : Int) : (scanInt (putInt n)).map Prod.fst = some n := by
  unfold putInt
  split
  next hneg =>
    have hminus : scanInt (45 :: putNat n.natAbs) =
        (scanDigits (putNat n.natAbs)).map fun p => (-(p.1 : Int), p.2) := rfl
    have hdigits : ∀ c ∈ putNat n.natAbs, isDigit c = true := fun c hc => isDigit_of_mem_putNat hc
    rw [hminus, scanDigits, List.takeWhile_eq_self_iff.mpr hdigits, if_neg (putNat_ne_nil _),
      number_putNat]
    simp only [Option.map_some, Option.some.injEq]
    omega
  next =>
    rw [scanInt_putNat, Option.map_some]
    congr 1
    omega

theorem atoiBytes_putInt (n : Int) : atoiText (putInt n) = n := by
  rw [atoiText, scanInt_putInt_end]
  rfl

namespace CcPiece

variable (p : CcPiece)

theorem text_eq : p.text false = p.caseStr ++ 47 :: p.flag :: 47 :: (p.word ++ 47 :: (p.tagStr ++
    47 :: (p.distStr ++ 47 :: p.sid))) := by
  have hnone : utf8 "/U/-/-/-/-" = [47, 85, 47, 45, 47, 45, 47, 45, 47, 45] := by decide +kernel
  cases p with
  | unassigned s => rw [text, hnone]; rfl
  | unspecified s =>
      have hperson : utf8 "/E/不特定:人/-/-/-" =
          47 :: 69 :: 47 :: (utf8 "不特定:人" ++ [47, 45, 47, 45, 47, 45]) := by decide +kernel
      rw [text, if_neg Bool.false_ne_true, hperson]
      rfl
  | component c =>
      rw [text, makeCcString]
      by_cases hneg : c.tagN < 0
      · rw [if_pos hneg, if_neg Bool.false_ne_true, hnone]
        simp [caseStr, flag, word, tagStr, distStr, place, sid, hneg]
      · rw [if_neg hneg, if_neg Bool.false_ne_true]
        simp [caseStr, flag, word, tagStr, distStr, place, sid, hneg]

theorem tagStr_ne_nil : p.tagStr ≠ [] := by
  unfold tagStr
  cases p.place with
  | none => exact List.cons_ne_nil _ _
  | some t => exact putInt_ne_nil t.1

theorem slash_notMem_tagStr : 47 ∉ p.tagStr := by
  unfold tagStr
  cases p.place with
  | none => decide
  | some t => exact slash_notMem_putInt t.1

theorem distStr_ne_nil : p.distStr ≠ [] := by
  unfold distStr
  cases p.place with
  | none => exact List.cons_ne_nil _ _
  | some t => exact putInt_ne_nil t.2

theorem slash_notMem_distStr : 47 ∉ p.distStr := by
  unfold distStr
  cases p.place with
  | none => decide
  | some t => exact slash_notMem_putInt t.2

end CcPiece

/-! ## What is read of a piece -/

section Read

variable {p : CcPiece} {rest text : List UInt8} {v v' : ConvertVars}

/-- The relation and the type are read of any piece. -/
theorem scan_text (hplain : IsPlain p.caseStr) (rest : List UInt8) :
    scan convertPattern (p.text false ++ rest) = .str p.caseStr :: .chr p.flag ::
      scan [.until 47, .lit 47, .until 47, .lit 47, .until 47] (p.word ++ 47 :: (p.tagStr ++
        47 :: (p.distStr ++ 47 :: (p.sid ++ rest)))) := by
  rw [p.text_eq, convertPattern]
  simp only [List.append_assoc, List.cons_append]
  rw [scan_until hplain.ne_nil hplain.slash, scan_lit]
  rfl

theorem scan_text_eq (hplain : IsPlain p.caseStr) (hne : p.word ≠ []) (hslash : 47 ∉ p.word)
    (rest : List UInt8) : scan convertPattern (p.text false ++ rest) =
      [.str p.caseStr, .chr p.flag, .str p.word, .str p.tagStr, .str p.distStr] := by
  have hend : ∀ s : List UInt8, scan [] s = [] := fun _ => rfl
  rw [scan_text hplain, scan_until hne hslash, scan_lit, scan_until p.tagStr_ne_nil
    p.slash_notMem_tagStr, scan_lit, scan_until p.distStr_ne_nil p.slash_notMem_distStr, hend]

/-- A field is not empty and has no slash. -/
structure IsField (s : List UInt8) : Prop where
  ne_nil : s ≠ []
  slash : 47 ∉ s

theorem isField_of_scan {ds : List Directive} {s : List UInt8}
    (hds : ∀ d ∈ ds, (∃ c, d = .lit c) ∨ d = .chr ∨ d = .until 47)
    (h : .str s ∈ scan ds text) : IsField s := by
  induction ds generalizing text with
  | nil => cases h
  | cons d ds ih =>
      obtain ⟨hd, htail⟩ := List.forall_mem_cons.mp hds
      rcases hd with ⟨c, rfl⟩ | rfl | rfl
      · cases text with
        | nil => cases h
        | cons c' text =>
            rw [scan] at h
            split at h
            · exact ih htail h
            · cases h
      · cases text with
        | nil => cases h
        | cons c' text =>
            rcases List.mem_cons.mp h with h | h
            · cases h
            · exact ih htail h
      · rw [scan] at h
        split at h
        · cases h
        next hne =>
          rcases List.mem_cons.mp h with h | h
          · obtain rfl := Value.str.inj h
            refine ⟨hne, fun hmem => ?_⟩
            have hpass := List.mem_takeWhile_imp hmem
            simp at hpass
          · exact ih htail h

theorem isField_of_convertPattern {k : Nat} {s : List UInt8}
    (h : (scan convertPattern text)[k]? = some (.str s)) : IsField s := by
  have hds : ∀ d ∈ convertPattern, (∃ c, d = .lit c) ∨ d = .chr ∨ d = .until 47 := by
    intro d hd
    simp only [convertPattern, List.mem_cons, List.not_mem_nil, or_false] at hd
    rcases hd with rfl | rfl | rfl | rfl | rfl | rfl | rfl | rfl | rfl
    all_goals first
      | exact .inr (.inr rfl)
      | exact .inl ⟨_, rfl⟩
      | exact .inr (.inl rfl)
  exact isField_of_scan hds (List.mem_of_getElem? h)

/-- The strings that are set are fields. -/
structure ConvertVars.Sound (v : ConvertVars) : Prop where
  entityName : ∀ s, v.entityName = some s → IsField s
  tagNumStr : ∀ s, v.tagNumStr = some s → IsField s
  sentNumStr : ∀ s, v.sentNumStr = some s → IsField s

theorem isField_of_fieldSet {k size : Nat} {old new : Option (List UInt8)} {s : List UInt8}
    (hold : ∀ s, old = some s → IsField s)
    (h : fieldSet (scan convertPattern text) k size old = some new) (hs : new = some s) :
    IsField s := by
  unfold fieldSet at h
  split at h
  next t ht =>
    split at h
    next =>
      obtain rfl := Option.some.inj h
      obtain rfl := Option.some.inj hs
      exact isField_of_convertPattern ht
    next => cases h
  next =>
    obtain rfl := Option.some.inj h
    exact hold s hs

/-- What `sscanf` sets. -/
theorem sscanf_eq_some (h : v.sscanf text = some v') :
    fieldSet (scan convertPattern text) 0 SMALL_DATA_LEN v.rel = some v'.rel ∧
      v'.type = chrSet (scan convertPattern text) 1 v.type ∧
      fieldSet (scan convertPattern text) 2 REPNAME_LEN_MAX v.entityName = some v'.entityName ∧
      fieldSet (scan convertPattern text) 3 SMALL_DATA_LEN v.tagNumStr = some v'.tagNumStr ∧
      fieldSet (scan convertPattern text) 4 SMALL_DATA_LEN v.sentNumStr = some v'.sentNumStr := by
  obtain ⟨rel, hrel, h⟩ := Option.bind_eq_some_iff.mp h
  obtain ⟨entityName, hname, h⟩ := Option.bind_eq_some_iff.mp h
  obtain ⟨tagNumStr, htag, h⟩ := Option.bind_eq_some_iff.mp h
  obtain ⟨sentNumStr, hsent, h⟩ := Option.bind_eq_some_iff.mp h
  cases h
  exact ⟨hrel, rfl, hname, htag, hsent⟩

theorem ConvertVars.Sound.sscanf (hv : v.Sound) (h : v.sscanf text = some v') : v'.Sound := by
  obtain ⟨-, -, hname, htag, hsent⟩ := sscanf_eq_some h
  exact ⟨fun s hs => isField_of_fieldSet hv.entityName hname hs,
    fun s hs => isField_of_fieldSet hv.tagNumStr htag hs,
    fun s hs => isField_of_fieldSet hv.sentNumStr hsent hs⟩

/-! ## How many slots come out -/

/-- How many colons and semicolons are not in front of a slash. -/
def openSigns : List UInt8 → Nat
  | [] => 0
  | c :: cs => (if (c = 59 ∨ c = 58) ∧ cs.head? ≠ some 47 then 1 else 0) + openSigns cs

theorem converted_iff : converted text = true ↔ text.head? ≠ some 47 := by
  cases text with
  | nil => simp [converted]
  | cons c cs =>
      by_cases hc : c = 47
      · simp [converted, convertPattern, scan, hc]
      · simp [converted, convertPattern, scan, hc]

/-- In front of a slash nothing is read. -/
theorem sscanf_slash (v : ConvertVars) (cs : List UInt8) : v.sscanf (47 :: cs) = some v := by
  have hscan : scan convertPattern (47 :: cs) = [] := by simp [convertPattern, scan]
  rw [ConvertVars.sscanf, hscan]
  rfl

variable {entities : List CaseEntity} {senNum : Int} {temps : List (List UInt8)} {w : List UInt8}

theorem convertLoop_length (h : convertLoop entities senNum v text = some temps) :
    temps.length = openSigns text := by
  induction text generalizing v temps with
  | nil =>
      cases h
      rfl
  | cons c cs ih =>
      rw [convertLoop] at h
      rw [openSigns]
      by_cases hc : c = 59 ∨ c = 58
      · rw [if_pos hc] at h
        obtain ⟨v', -, h⟩ := Option.bind_eq_some_iff.mp h
        by_cases hconv : converted cs = true
        · rw [if_pos hconv] at h
          obtain ⟨temp, -, h⟩ := Option.bind_eq_some_iff.mp h
          obtain ⟨temps', hloop, rfl⟩ := Option.map_eq_some_iff.mp h
          rw [if_pos ⟨hc, converted_iff.mp hconv⟩, List.length_cons, ih hloop, Nat.add_comm]
        · rw [if_neg hconv] at h
          rw [if_neg fun hopen => hconv (converted_iff.mpr hopen.2), ih h, Nat.zero_add]
      · rw [if_neg hc] at h
        rw [if_neg fun hopen => hc hopen.1, ih h, Nat.zero_add]

theorem openSigns_append (hrest : rest.head? ≠ some 47) :
    openSigns (w ++ rest) = openSigns w + openSigns rest := by
  induction w with
  | nil => rw [List.nil_append, openSigns, Nat.zero_add]
  | cons c w ih =>
      rw [List.cons_append, openSigns, openSigns, ih, Nat.add_assoc]
      congr 2
      cases w with
      | nil => simp [hrest]
      | cons d w => simp

theorem openSigns_eq_zero : openSigns w = 0 ↔
    ∀ c back, c :: back <:+ w → c = 59 ∨ c = 58 → back.head? = some 47 := by
  induction w with
  | nil => simp [openSigns]
  | cons d w ih =>
      rw [openSigns, Nat.add_eq_zero_iff, ih]
      constructor
      · rintro ⟨hd, hw⟩ c back hsuffix hc
        rcases List.suffix_cons_iff.mp hsuffix with heq | hsuffix
        · obtain ⟨rfl, rfl⟩ := List.cons.inj heq
          by_contra hopen
          rw [if_pos ⟨hc, hopen⟩] at hd
          cases hd
        · exact hw c back hsuffix hc
      · intro h
        refine ⟨if_neg ?_, fun c back hsuffix => h c back (hsuffix.trans (List.suffix_cons d w))⟩
        rintro ⟨hd, hopen⟩
        exact hopen (h d w (List.suffix_refl _) hd)

/-- A text without such a sign is passed over. -/
theorem convertLoop_skip (hw : openSigns w = 0) :
    convertLoop entities senNum v (w ++ rest) = convertLoop entities senNum v rest := by
  induction w with
  | nil => rfl
  | cons c w ih =>
      rw [openSigns, Nat.add_eq_zero_iff] at hw
      rw [List.cons_append, convertLoop]
      split
      next hc =>
        have hslash : w.head? = some 47 := by
          by_contra hopen
          rw [if_pos ⟨hc, hopen⟩] at hw
          cases hw.1
        obtain ⟨w', rfl⟩ := List.head?_eq_some_iff.mp hslash
        have hconv : ¬converted (47 :: w' ++ rest) = true := fun h => converted_iff.mp h rfl
        rw [List.cons_append] at hconv ⊢
        rw [sscanf_slash, Option.bind_eq_bind, Option.bind_some, if_neg hconv]
        exact ih hw.2
      next => exact ih hw.2

/-- Behind the sign of a piece there is no slash. -/
theorem head?_text (hplain : IsPlain p.caseStr) (rest : List UInt8) :
    (p.text false ++ rest).head? ≠ some 47 := by
  obtain ⟨c, s, hs⟩ := List.exists_cons_of_ne_nil hplain.ne_nil
  rw [p.text_eq, hs]
  intro h
  have hc : c = 47 := Option.some.inj h
  exact hplain.slash (by rw [hs, hc]; exact List.mem_cons_self)

variable {xs : List (UInt8 × CcPiece)} {x : UInt8 × CcPiece}

theorem head?_flatMap_signedText (hxs : ∀ x ∈ xs, x.1 = 59 ∨ x.1 = 58) :
    (xs.flatMap signedText).head? ≠ some 47 := by
  cases xs with
  | nil => simp
  | cons x xs =>
      intro h
      have hx : x.1 = 47 := Option.some.inj h
      rcases hxs x List.mem_cons_self with h59 | h58
      · rw [h59] at hx
        cases hx
      · rw [h58] at hx
        cases hx

/-- One slot for each piece, and one more for each sign in it that is not in front of a slash. -/
theorem openSigns_flatMap (hxs : ∀ x ∈ xs, (x.1 = 59 ∨ x.1 = 58) ∧ IsPlain x.2.caseStr) :
    openSigns (xs.flatMap signedText) =
      xs.length + (xs.map fun x => openSigns (x.2.text false)).sum := by
  induction xs with
  | nil => rfl
  | cons x xs ih =>
      obtain ⟨⟨hsign, hplain⟩, hxs⟩ := List.forall_mem_cons.mp hxs
      have hrest := head?_flatMap_signedText fun x hx => (hxs x hx).1
      rw [List.flatMap_cons, signedText, List.cons_append, openSigns,
        if_pos ⟨hsign, head?_text hplain _⟩, openSigns_append hrest, ih hxs, List.map_cons,
        List.sum_cons, List.length_cons]
      omega

/-! ## One piece -/

theorem sscanf_pieceText (v : ConvertVars) (hplain : IsPlain p.caseStr) (hne : p.word ≠ [])
    (hslash : 47 ∉ p.word) (hrel : p.caseStr.length < SMALL_DATA_LEN)
    (hword : p.word.length < REPNAME_LEN_MAX) (htag : p.tagStr.length < SMALL_DATA_LEN)
    (hdist : p.distStr.length < SMALL_DATA_LEN) (rest : List UInt8) :
    v.sscanf (p.text false ++ rest) =
      some ⟨some p.caseStr, some p.flag, some p.word, some p.tagStr, some p.distStr⟩ := by
  simp only [ConvertVars.sscanf, scan_text_eq hplain hne hslash, fieldSet, chrSet,
    List.getElem?_cons_zero, List.getElem?_cons_succ, if_pos hrel, if_pos hword, if_pos htag,
    if_pos hdist]
  rfl

/-- The entity of a place that is mentioned. -/
theorem temp_text (hment : ∀ tagNum dist, p.place = some (tagNum, dist) →
      ∃ e ∈ entities, e.overtAt tagNum (senNum - dist) = true) (c : UInt8) :
    ConvertVars.temp entities senNum
        ⟨some p.caseStr, some p.flag, some p.word, some p.tagStr, some p.distStr⟩ c =
      if (convertedText entities senNum (c, p)).length < SMALL_DATA_LEN then
        some (convertedText entities senNum (c, p)) else none := by
  cases hplace : p.place with
  | none =>
      have htag : p.tagStr = [45] := by rw [CcPiece.tagStr, hplace]; rfl
      simp [ConvertVars.temp, eidStr, convertedText, hplace, htag]
  | some t =>
      obtain ⟨tagNum, dist⟩ := t
      have htag : p.tagStr = putInt tagNum := by rw [CcPiece.tagStr, hplace]; rfl
      have hdist : p.distStr = putInt dist := by rw [CcPiece.distStr, hplace]; rfl
      obtain ⟨e, he, hover⟩ := hment tagNum dist hplace
      obtain ⟨e', hfind⟩ := Option.isSome_iff_exists.mp
        (List.find?_isSome.mpr ⟨e, he, hover⟩)
      have heid : getEid entities tagNum (senNum - dist) = some e'.num := by
        rw [getEid, hfind, Option.map_some]
      simp [ConvertVars.temp, eidStr, convertedText, hplace, htag, hdist, putInt_ne_hyphen,
        atoiBytes_putInt, heid]

/-- What is put in for a piece is right. -/
theorem isConverted_convertedText (hment : ∀ tagNum dist, x.2.place = some (tagNum, dist) →
      ∃ e ∈ entities, e.overtAt tagNum (senNum - dist) = true) :
    IsConverted entities senNum x (convertedText entities senNum x) := by
  refine ⟨_, ?_, rfl⟩
  cases hplace : x.2.place with
  | none => rfl
  | some t =>
      obtain ⟨tagNum, dist⟩ := t
      obtain ⟨e, he, hover⟩ := hment tagNum dist hplace
      obtain ⟨e', hfind⟩ := Option.isSome_iff_exists.mp
        (List.find?_isSome.mpr ⟨e, he, hover⟩)
      refine .inl ⟨e', List.mem_of_find?_eq_some hfind, List.find?_some hfind, ?_⟩
      dsimp only
      rw [getEid, hfind]
      rfl

theorem slotText_length (c : UInt8) (rel : List UInt8) (type : UInt8)
    (entityName sentNumStr tagNumStr eid : List UInt8) :
    (slotText c rel type entityName sentNumStr tagNumStr eid).length =
      rel.length + entityName.length + sentNumStr.length + tagNumStr.length + eid.length + 7 := by
  simp only [slotText, List.length_cons, List.length_append]
  omega

/-- The text of a slot that fits has fields that fit. -/
theorem CcPiece.Convertible.sscanf (h : p.Convertible entities senNum)
    (hplain : IsPlain p.caseStr) (v : ConvertVars) (rest : List UInt8) :
    v.sscanf (p.text false ++ rest) =
      some ⟨some p.caseStr, some p.flag, some p.word, some p.tagStr, some p.distStr⟩ := by
  have hfits := h.fits
  rw [convertedText, slotText_length] at hfits
  have hsmall : SMALL_DATA_LEN = 128 := rfl
  have hlarge : REPNAME_LEN_MAX = 256 := rfl
  dsimp only at hfits
  exact sscanf_pieceText v hplain h.word_ne h.word_slash (by omega) (by omega) (by omega) (by omega) rest

theorem convertLoop_convertible
    (hxs : ∀ x ∈ xs, (x.1 = 59 ∨ x.1 = 58) ∧ IsPlain x.2.caseStr)
    (hgood : ∀ x ∈ xs, x.2.Convertible entities senNum) :
    convertLoop entities senNum v (xs.flatMap signedText) =
      some (xs.map (convertedText entities senNum)) := by
  induction xs generalizing v with
  | nil => rfl
  | cons x xs ih =>
      obtain ⟨⟨hsign, hplain⟩, hxs⟩ := List.forall_mem_cons.mp hxs
      obtain ⟨hx, hgood⟩ := List.forall_mem_cons.mp hgood
      have hfits : (convertedText entities senNum x).length < SMALL_DATA_LEN := by
        have hlen := hx.fits
        rw [convertedText, slotText_length] at hlen ⊢
        exact hlen
      rw [List.flatMap_cons, signedText, List.cons_append, convertLoop, if_pos hsign,
        hx.sscanf hplain, Option.bind_eq_bind, Option.bind_some,
        if_pos (converted_iff.mpr (head?_text hplain _)), temp_text hx.mentioned, if_pos hfits,
        convertLoop_skip (openSigns_eq_zero.mpr hx.signs), ih hxs hgood]
      rfl

/-! ## A piece that comes out right -/

theorem fieldSet_str {vs : List Value} {k size : Nat} {old new : Option (List UInt8)}
    {s : List UInt8} (hs : vs[k]? = some (.str s)) (h : fieldSet vs k size old = some new) :
    new = some s := by
  unfold fieldSet at h
  rw [hs] at h
  dsimp only at h
  split at h
  · exact (Option.some.inj h).symm
  · cases h

/-- What is put into `temp` is made of fields. -/
theorem temp_eq_some {c : UInt8} {temp : List UInt8} (hv : v.Sound)
    (h : v.temp entities senNum c = some temp) : ∃ rel type entityName tagNumStr sentNumStr eid,
      v.rel = some rel ∧ v.type = some type ∧ v.entityName = some entityName ∧
      v.tagNumStr = some tagNumStr ∧ v.sentNumStr = some sentNumStr ∧ IsField entityName ∧
      IsField tagNumStr ∧ IsField sentNumStr ∧ 47 ∉ eid ∧
      (tagNumStr ≠ [45] → ∃ n, getEid entities (atoiText tagNumStr)
        (senNum - atoiText sentNumStr) = some n ∧ eid = putInt n) ∧
      (tagNumStr = [45] → eid = [45]) ∧
      temp = slotText c rel type entityName sentNumStr tagNumStr eid ∧
      temp.length < SMALL_DATA_LEN := by
  obtain ⟨rel, hrel, h⟩ := Option.bind_eq_some_iff.mp h
  obtain ⟨type, htype, h⟩ := Option.bind_eq_some_iff.mp h
  obtain ⟨entityName, hname, h⟩ := Option.bind_eq_some_iff.mp h
  obtain ⟨tagNumStr, htag, h⟩ := Option.bind_eq_some_iff.mp h
  obtain ⟨sentNumStr, hsent, h⟩ := Option.bind_eq_some_iff.mp h
  obtain ⟨eid, heid, h⟩ := Option.bind_eq_some_iff.mp h
  rw [eidStr] at heid
  dsimp only at h
  split at h
  next hlen =>
    obtain rfl := Option.some.inj h
    refine ⟨rel, type, entityName, tagNumStr, sentNumStr, eid, hrel, htype, hname, htag, hsent,
      hv.entityName _ hname, hv.tagNumStr _ htag, hv.sentNumStr _ hsent, ?_, ?_, ?_, rfl, hlen⟩
    · by_cases hbar : tagNumStr ≠ [45]
      · rw [if_pos hbar] at heid
        obtain ⟨n, -, rfl⟩ := Option.map_eq_some_iff.mp heid
        exact slash_notMem_putInt n
      · rw [if_neg hbar] at heid
        obtain rfl := Option.some.inj heid
        decide
    · intro hbar
      rw [if_pos hbar] at heid
      obtain ⟨n, hn, rfl⟩ := Option.map_eq_some_iff.mp heid
      exact ⟨n, hn, rfl⟩
    · intro hbar
      rw [if_neg (not_not.mpr hbar)] at heid
      exact (Option.some.inj heid).symm
  next => cases h

theorem IsEid.slash {place : Option (Int × Int)} {eid : List UInt8}
    (h : IsEid entities senNum place eid) : 47 ∉ eid := by
  cases place with
  | none =>
      obtain rfl : eid = [45] := h
      decide
  | some t =>
      rcases h with ⟨e, -, -, rfl⟩ | ⟨-, rfl⟩
      · exact slash_notMem_putInt e.num
      · decide

/-- The slashes are those of the pattern and those of the word. -/
theorem word_eq_of_slotText {c : UInt8} {rel : List UInt8} {type : UInt8}
    {name sent tag eid word dist tag' eid' : List UInt8} (hname : 47 ∉ name) (hsent : 47 ∉ sent)
    (htag : 47 ∉ tag) (heid : 47 ∉ eid) (hdist : 47 ∉ dist) (htag' : 47 ∉ tag') (heid' : 47 ∉ eid')
    (h : slotText c rel type name sent tag eid = slotText c rel type word dist tag' eid') :
    47 ∉ word ∧ name = word := by
  have hrest := (List.cons.inj (List.cons.inj (List.cons.inj
    (List.append_cancel_left (List.cons.inj h).2)).2).2).2
  have hcount := congrArg (List.count 47) hrest
  have hzero : ∀ s : List UInt8, 47 ∉ s → s.count 47 = 0 := fun s hs => List.count_eq_zero.mpr hs
  simp only [List.count_append, List.count_cons_self, hzero _ hname, hzero _ hsent, hzero _ htag,
    hzero _ heid, hzero _ hdist, hzero _ htag', hzero _ heid'] at hcount
  have hword : 47 ∉ word := List.count_eq_zero.mp (by omega)
  have hall : ∀ s : List UInt8, 47 ∉ s → ∀ a ∈ s, decide (a ≠ 47) = true := fun s hs a ha =>
    decide_eq_true fun heq : a = 47 => hs (heq ▸ ha)
  have htake := congrArg (List.takeWhile (· ≠ 47)) hrest
  rw [takeWhile_append_cons (hall name hname) (by simp),
    takeWhile_append_cons (hall word hword) (by simp)] at htake
  exact ⟨hword, htake⟩

/-- **A piece comes out right only if it is convertible.** -/
theorem convertible_of_temp {c : UInt8} {temp : List UInt8} (hplain : IsPlain p.caseStr)
    (hv : v.Sound) (hopen : openSigns (p.text false) = 0)
    (hscanf : v.sscanf (p.text false ++ rest) = some v')
    (htemp : v'.temp entities senNum c = some temp) (h : IsConverted entities senNum (c, p) temp) :
    p.Convertible entities senNum := by
  obtain ⟨hrel', htype', hname', htag', hsent'⟩ := sscanf_eq_some hscanf
  obtain ⟨rel, type, name, tag, sent, eid, hrel, htype, hname, htag, hsent, fname, ftag, fsent,
    feid, hnum, hbar, rfl, hlen⟩ := temp_eq_some (hv.sscanf hscanf) htemp
  obtain ⟨eid', heid', heq⟩ := h
  have hscan := scan_text hplain rest
  obtain rfl : rel = p.caseStr := by
    have h0 := fieldSet_str (s := p.caseStr) (by rw [hscan]; rfl) hrel'
    exact Option.some.inj (hrel.symm.trans h0)
  obtain rfl : type = p.flag := by
    rw [hscan] at htype'
    exact Option.some.inj (htype.symm.trans htype')
  obtain ⟨hslash, rfl⟩ := word_eq_of_slotText fname.slash fsent.slash ftag.slash feid
    p.slash_notMem_distStr p.slash_notMem_tagStr heid'.slash heq
  -- now all fields are those of the piece
  have hscan' := scan_text_eq hplain fname.ne_nil hslash rest
  obtain rfl : tag = p.tagStr := by
    have h3 := fieldSet_str (s := p.tagStr) (by rw [hscan']; rfl) htag'
    exact Option.some.inj (htag.symm.trans h3)
  obtain rfl : sent = p.distStr := by
    have h4 := fieldSet_str (s := p.distStr) (by rw [hscan']; rfl) hsent'
    exact Option.some.inj (hsent.symm.trans h4)
  have hplace : ∀ tagNum dist, p.place = some (tagNum, dist) → ∃ n,
      getEid entities tagNum (senNum - dist) = some n ∧ eid = putInt n := by
    intro tagNum dist hp
    have htagStr : p.tagStr = putInt tagNum := by rw [CcPiece.tagStr, hp]; rfl
    have hdistStr : p.distStr = putInt dist := by rw [CcPiece.distStr, hp]; rfl
    rw [htagStr, hdistStr, atoiBytes_putInt, atoiBytes_putInt] at hnum
    exact hnum (putInt_ne_hyphen tagNum)
  refine ⟨fname.ne_nil, hslash, openSigns_eq_zero.mp hopen, ?_, ?_⟩
  · intro tagNum dist hp
    obtain ⟨n, hn, -⟩ := hplace tagNum dist hp
    obtain ⟨e, hfind, -⟩ := Option.map_eq_some_iff.mp hn
    exact ⟨e, List.mem_of_find?_eq_some hfind, List.find?_some hfind⟩
  · rw [convertedText, slotText_length]
    rw [slotText_length] at hlen
    cases hp : p.place with
    | none =>
        have htagStr : p.tagStr = [45] := by rw [CcPiece.tagStr, hp]; rfl
        rw [hbar htagStr] at hlen
        exact hlen
    | some t =>
        obtain ⟨n, hn, rfl⟩ := hplace t.1 t.2 hp
        dsimp only
        rw [hn]
        exact hlen

theorem convertible_of_loop (hxs : ∀ x ∈ xs, (x.1 = 59 ∨ x.1 = 58) ∧ IsPlain x.2.caseStr)
    (hopen : ∀ x ∈ xs, openSigns (x.2.text false) = 0) (hv : v.Sound)
    (hloop : convertLoop entities senNum v (xs.flatMap signedText) = some temps)
    (h : List.Forall₂ (IsConverted entities senNum) xs temps) :
    ∀ x ∈ xs, x.2.Convertible entities senNum := by
  induction h generalizing v with
  | nil => exact List.forall_mem_nil _
  | @cons x temp xs temps hx _ ih =>
      obtain ⟨⟨hsign, hplain⟩, hxs⟩ := List.forall_mem_cons.mp hxs
      obtain ⟨hopenx, hopen⟩ := List.forall_mem_cons.mp hopen
      rw [List.flatMap_cons, signedText, List.cons_append, convertLoop, if_pos hsign] at hloop
      obtain ⟨v', hscanf, hloop⟩ := Option.bind_eq_some_iff.mp hloop
      rw [if_pos (converted_iff.mpr (head?_text hplain _))] at hloop
      obtain ⟨temp', htemp, hloop⟩ := Option.bind_eq_some_iff.mp hloop
      obtain ⟨temps', hrest, heq⟩ := Option.map_eq_some_iff.mp hloop
      obtain ⟨rfl, rfl⟩ := List.cons.inj heq
      rw [convertLoop_skip hopenx] at hrest
      exact List.forall_mem_cons.mpr ⟨convertible_of_temp hplain hv hopenx hscanf htemp hx,
        ih hxs hopen (hv.sscanf hscanf) hrest⟩

end Read

/-! ## The whole text -/

namespace CaseResult

variable (r : CaseResult) (entities : List CaseEntity) (senNum : Int)

/-- Behind the id comes nothing, or a colon. -/
theorem body_cases : (withSigns r.pieces).flatMap signedText = [] ∨
    ∃ s, (withSigns r.pieces).flatMap signedText = 58 :: s := by
  cases r.pieces with
  | nil => exact .inl rfl
  | cons p ps => exact .inr ⟨_, rfl⟩

theorem scan_feature : scan headPattern r.feature = [.str r.name, .str r.id] := by
  rw [headPattern, feature, scan_lits, scan_until r.name_ne r.name_colon, scan_lit]
  rcases r.body_cases with hbody | ⟨s, hbody⟩
  · rw [hbody, List.append_nil, scan_until_end r.id_ne r.id_colon]
    rfl
  · rw [hbody, scan_until r.id_ne r.id_colon, scan_lit]
    rfl

theorem thirdColon_feature :
    thirdColon r.feature = some ((withSigns r.pieces).flatMap signedText) := by
  have hname : utf8 "格解析結果:" = utf8 "格解析結果" ++ [58] := by decide +kernel
  have hfree : 58 ∉ utf8 "格解析結果" := by decide +kernel
  have hall : ∀ s : List UInt8, 58 ∉ s → ∀ a ∈ s, decide (a ≠ 58) = true := fun s hs a ha =>
    decide_eq_true fun heq : a = 58 => hs (heq ▸ ha)
  have hcolon : decide ((58 : UInt8) ≠ 58) = false := by simp
  rw [thirdColon, feature, hname, List.append_assoc, List.singleton_append,
    dropWhile_append_cons (hall _ hfree) hcolon]
  dsimp only
  rw [dropWhile_append_cons (hall _ r.name_colon) hcolon]
  dsimp only
  rcases r.body_cases with hbody | ⟨s, hbody⟩
  · rw [hbody, List.append_nil, List.dropWhile_eq_nil_iff.mpr (hall _ r.id_colon)]
  · rw [hbody, dropWhile_append_cons (hall _ r.id_colon) hcolon]

/-- The result for what is written about a predicate. -/
theorem convertCaseResult_feature (hname : r.name.length < CF_ID_LEN_MAX)
    (hid : r.id.length < CF_ID_LEN_MAX) : convertCaseResult entities senNum r.feature =
      (convertLoop entities senNum ⟨none, none, none, none, none⟩
        ((withSigns r.pieces).flatMap signedText)).bind fun pieces =>
          let buf := (utf8 "述語項構造:" ++ (r.name ++ 58 :: r.id)) :: pieces
          if buf.flatten.length < DATA_LEN then some buf else none := by
  simp only [convertCaseResult, r.scan_feature, r.thirdColon_feature, fieldSet,
    List.getElem?_cons_zero, List.getElem?_cons_succ, if_pos hname, if_pos hid]
  rfl

theorem fits_of_some {buf : List (List UInt8)}
    (h : convertCaseResult entities senNum r.feature = some buf) :
    r.name.length < CF_ID_LEN_MAX ∧ r.id.length < CF_ID_LEN_MAX := by
  simp only [convertCaseResult, r.scan_feature, fieldSet, List.getElem?_cons_zero,
    List.getElem?_cons_succ] at h
  by_cases hname : r.name.length < CF_ID_LEN_MAX
  · by_cases hid : r.id.length < CF_ID_LEN_MAX
    · exact ⟨hname, hid⟩
    · simp [hid] at h
  · simp [hname] at h

theorem withSigns_plain :
    ∀ x ∈ withSigns r.pieces, (x.1 = 59 ∨ x.1 = 58) ∧ IsPlain x.2.caseStr := by
  intro x hx
  have hplain := r.plain
  cases hps : r.pieces with
  | nil =>
      rw [hps] at hx
      cases hx
  | cons p ps =>
      rw [hps] at hx hplain
      rcases List.mem_cons.mp hx with rfl | hx
      · exact ⟨.inr rfl, hplain p List.mem_cons_self⟩
      · obtain ⟨q, hq, rfl⟩ := List.mem_map.mp hx
        exact ⟨.inl rfl, hplain q (List.mem_cons_of_mem p hq)⟩

theorem forall_withSigns {P : CcPiece → Prop} :
    (∀ x ∈ withSigns r.pieces, P x.2) ↔ ∀ p ∈ r.pieces, P p := by
  cases r.pieces with
  | nil => simp [withSigns]
  | cons p ps => simp [withSigns]

/-- **When the result is converted.** -/
theorem converts_iff : r.Converts entities senNum ↔ r.Convertible entities senNum := by
  constructor
  · rintro ⟨temps, hresult, hconv⟩
    obtain ⟨hname, hid⟩ := r.fits_of_some entities senNum hresult
    rw [r.convertCaseResult_feature entities senNum hname hid] at hresult
    obtain ⟨temps', hloop, hroom⟩ := Option.bind_eq_some_iff.mp hresult
    dsimp only at hroom
    split at hroom
    next hlt =>
      obtain ⟨-, rfl⟩ := List.cons.inj (Option.some.inj hroom)
      -- no more slots than pieces
      have hlength := hconv.length_eq
      rw [convertLoop_length hloop, openSigns_flatMap r.withSigns_plain] at hlength
      have hopen : ∀ x ∈ withSigns r.pieces, openSigns (x.2.text false) = 0 := by
        intro x hx
        have hsum : ((withSigns r.pieces).map fun x => openSigns (x.2.text false)).sum = 0 := by
          omega
        exact List.sum_eq_zero_iff_forall_eq_nat.mp hsum _ (List.mem_map_of_mem hx)
      have hv : ConvertVars.Sound ⟨none, none, none, none, none⟩ := by
        constructor
        all_goals
          intro s hs
          cases hs
      have hgood := convertible_of_loop r.withSigns_plain hopen hv hloop hconv
      have hsome := convertLoop_convertible (v := ⟨none, none, none, none, none⟩)
        r.withSigns_plain hgood
      obtain rfl := Option.some.inj (hloop.symm.trans hsome)
      exact ⟨hname, hid, r.forall_withSigns.mp hgood, hlt⟩
    next => cases hroom
  · intro h
    have hgood := r.forall_withSigns.mpr h.pieces
    refine ⟨(withSigns r.pieces).map (convertedText entities senNum), ?_, ?_⟩
    · rw [r.convertCaseResult_feature entities senNum h.name_fits h.id_fits,
        convertLoop_convertible r.withSigns_plain hgood, Option.bind_some]
      exact if_pos h.room
    · refine List.forall₂_map_right_iff.mpr ?_
      exact List.forall₂_same.mpr fun x hx =>
        isConverted_convertedText (hgood x hx).mentioned

end CaseResult

/-! ## What is written -/

theorem isPlain_ppStrToCode : ∀ k : Nat, k < 44 → ∀ s ∈ (ppStrToCode[k]?).map Prod.fst,
    s ≠ [] ∧ 47 ∉ s ∧ 58 ∉ s ∧ 59 ∉ s := by
  decide +kernel

section Write

variable {opts : CcOptions} {tag : Nat → CcTag} {sid : Option (List UInt8)} {cpm : CcResult}
  {senNum : Int} {caseStr slotStr text : List UInt8} {slot : CcSlot} {ps : List CcPiece}

theorem isPlain_ppCodeToKstrInContext {n : Int} {s : List UInt8} (hn : n < 44)
    (h : ppCodeToKstrInContext cpm n = some s) : IsPlain s := by
  have hplain : ∀ {m : Int}, m < 44 → ppCodeToKstr m = some s → IsPlain s := by
    intro m hm h
    unfold ppCodeToKstr at h
    split_ifs at h with hneg
    obtain ⟨hne, hslash, hcolon, hsemi⟩ := isPlain_ppStrToCode m.toNat (by omega) s h
    exact ⟨hne, hslash, hcolon, hsemi⟩
  unfold ppCodeToKstrInContext at h
  split_ifs at h with hno
  · have hkstr : ppCodeToKstr 41 = some (utf8 "ノ") := by decide +kernel
    exact hplain (by omega) (hkstr.trans h)
  · exact hplain hn h

theorem plain_of_assignedPieces {e : CcElem} (hcase : IsPlain caseStr) (hslot : IsPlain slotStr)
    (h : assignedPieces tag senNum sid cpm e slotStr caseStr = some ps) :
    ∀ p ∈ ps, IsPlain p.caseStr := by
  intro p hp
  unfold assignedPieces at h
  split_ifs at h
  · cases h
    rw [List.mem_singleton.mp hp]
    exact hcase
  · obtain ⟨b, -, rfl⟩ := Option.map_eq_some_iff.mp h
    rcases List.mem_append.mp hp with hchild | hself
    · unfold parallelChildren at hchild
      split_ifs at hchild
      · obtain ⟨q, -, rfl⟩ := List.mem_map.mp hchild
        exact hslot
      · cases hchild
    · rw [List.mem_singleton.mp hself]
      exact hcase

theorem plain_of_unassignedPieces {caseNum : Int} (hcase : IsPlain caseStr)
    (h : unassignedPieces opts tag sid cpm caseNum caseStr = some ps) :
    ∀ p ∈ ps, IsPlain p.caseStr := by
  unfold unassignedPieces at h
  dsimp only at h
  split at h
  · cases h
  · next c hparent =>
      cases h
      split_ifs at hparent
      · intro p hp
        rw [List.mem_singleton.mp hp, CcPiece.caseStr, (retrieveParent_own hparent).ppStr]
        exact hcase
      · cases hparent
  · cases h
    intro p hp
    rw [List.mem_singleton.mp hp]
    exact hcase

theorem plain_of_slotPieces (hpp : slot.pp < 44)
    (h : slotPieces opts tag senNum sid cpm none slot = some ps) : ∀ p ∈ ps, IsPlain p.caseStr := by
  unfold slotPieces at h
  obtain ⟨caseStr, hstr, h⟩ := Option.bind_eq_some_iff.mp h
  have hcase := isPlain_ppCodeToKstrInContext hpp hstr
  split at h
  · obtain ⟨slotStr, hstr', h⟩ := Option.bind_eq_some_iff.mp h
    exact plain_of_assignedPieces hcase (isPlain_ppCodeToKstrInContext hpp hstr') h
  · split_ifs at h
    · exact plain_of_unassignedPieces hcase h
    · cases h
      exact List.forall_mem_nil _

/-- The cases that are written are names without a sign that the reader stops at. -/
theorem plain_of_casePieces (hpp : ∀ slot ∈ cpm.slots, slot.pp < 44)
    (h : casePieces opts tag senNum sid cpm none = some ps) : ∀ p ∈ ps, IsPlain p.caseStr := by
  obtain ⟨pieces, hpieces, rfl⟩ := Option.map_eq_some_iff.mp h
  intro p hp
  obtain ⟨qs, hqs, hpq⟩ := List.mem_flatten.mp hp
  obtain ⟨slot, hslot, heq⟩ := mem_of_mapM hpieces hqs
  exact plain_of_slotPieces (hpp slot hslot) heq p hpq

/-- `record_case_analysis_result` writes the feature that is converted. -/
theorem record_eq_feature (r : CaseResult) (hsimple : opts.simple = false)
    (hcf : cpm.cfId = r.name ++ 58 :: r.id)
    (hps : casePieces opts tag senNum sid cpm none = some r.pieces)
    (h : recordCaseAnalysisResult opts tag senNum sid cpm (utf8 "格解析結果") none = some text) :
    text = r.feature := by
  obtain ⟨pieces, hpieces, hflat⟩ := Option.map_eq_some_iff.mp hps
  obtain ⟨pieces', hpieces', htext⟩ := Option.bind_eq_some_iff.mp h
  obtain rfl := Option.some.inj (hpieces'.symm.trans hpieces)
  have hname : utf8 "格解析結果:" = utf8 "格解析結果" ++ [58] := by decide +kernel
  simp only [hsimple, Bool.false_eq_true, if_false, foldl_appendPieces, hflat, hcf] at htext
  split_ifs at htext
  rw [← Option.some.inj htext, CaseResult.feature, hname]
  cases r.pieces with
  | nil => simp [appendPieces, withSigns]
  | cons p ps => simp [appendPieces, withSigns, signedText, hsimple, List.flatMap_map]

end Write

namespace CaseResult

/-- 「食べる」 with a ガ of which nothing is said but that it is some person. -/
def taberuResult : CaseResult where
  name := utf8 "食べる/たべる"
  id := utf8 "動1"
  pieces := [.unspecified (utf8 "ガ")]
  name_ne := by decide
  name_colon := by decide
  id_ne := by decide
  id_colon := by decide
  plain := by
    refine List.forall_mem_singleton.mpr ?_
    exact ⟨by decide, by decide, by decide, by decide⟩

/-- The colon in 「不特定:人」 makes a second slot. -/
theorem taberuResult_fails : ¬taberuResult.Converts [] 1 := by
  rintro ⟨temps, hresult, hconv⟩
  obtain ⟨hname, hid⟩ := taberuResult.fits_of_some [] 1 hresult
  rw [taberuResult.convertCaseResult_feature [] 1 hname hid] at hresult
  obtain ⟨temps', hloop, hroom⟩ := Option.bind_eq_some_iff.mp hresult
  dsimp only at hroom
  split at hroom
  next =>
    obtain ⟨-, rfl⟩ := List.cons.inj (Option.some.inj hroom)
    have hlength := hconv.length_eq
    rw [convertLoop_length hloop] at hlength
    revert hlength
    decide +kernel
  next => cases hroom

end CaseResult

end Knp
