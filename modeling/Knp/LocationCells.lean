import Mathlib.Data.Nat.Digits.Lemmas
import Knp.CaseMatch
import Knp.FeatureBytes
import Knp.MrphDpnd
import Knp.ResultRank
import Knp.Scanf
import Knp.SurfaceCase

/-!
# The features for locations (`anaphora.c`)

`calc_ellipsis_score_of_ctm` goes through the mentions of the entity that fills an omitted case.
The location of a mention is written as a text by `get_location`, decoded into an id by
`convert_locname_id`, and the cell of the id is set, in the block of the features and in that of
a hypothetical entity.

> The cells that are set are those of the ids just if each mention that is considered has an id,
> and none has the id 1.

An id of -1 is meant for no id, but the test that keeps it out is one for 1.
-/

namespace Knp

open FeatureBytes Scanf

/-! ## Locations -/

/-- What is read of a tag: its features, the number of its parent, and of its bunsetsu the
number, that of the parent, and the features. -/
structure LocTag where
  num : Nat
  f : List String
  parent : Option Nat
  bNum : Nat
  bParent : Option Nat
  bF : List String

/-- `MENTION` -/
structure LocMention where
  sentNum : Nat
  type : UInt8
  cppString : List UInt8
  tag : LocTag

/-- `loc_category` of the sentence of the predicate, and `analysis_flags`. -/
structure LocEnv where
  locCategory : Nat → Nat
  analysisFlags : Nat → Nat → Nat

namespace LocEnv

variable (env : LocEnv) (kstr : List UInt8) (sentNum : Nat) (m : LocMention)

/-- `pos_name` -/
def posName : List UInt8 :=
  if m.sentNum = sentNum then utf8 "C" ++ putNat (env.locCategory (m.tag.bParent.getD m.tag.bNum))
  else if sentNum < m.sentNum then
    utf8 "A" ++ putNat (if m.sentNum - sentNum ≤ 3 then m.sentNum - sentNum else 0)
  else utf8 "B" ++ putNat (if sentNum - m.sentNum ≤ 3 then sentNum - m.sentNum else 0)

end LocEnv

/-- The case that the bunsetsu has, if it is one of ガ, ヲ, ニ, ノ. -/
def kakariCase (m : LocMention) : Option (List UInt8) :=
  if hasFeature m.tag.bF "係:ガ格" then some (utf8 "ガ")
  else if hasFeature m.tag.bF "係:ヲ格" then some (utf8 "ヲ")
  else if hasFeature m.tag.bF "係:ニ格" then some (utf8 "ニ")
  else if hasFeature m.tag.bF "係:ノ格" then some (utf8 "ノ")
  else none

/-- The type and the case of a mention, `%c%s`. -/
def typeAndCase (m : LocMention) (oldFlag : Bool) : List UInt8 :=
  (if m.type = '='.toNat.toUInt8 then 'S'.toNat.toUInt8
    else if m.type = 'N'.toNat.toUInt8 then 'C'.toNat.toUInt8 else m.type) ::
    (if oldFlag then [] else m.cppString)

/-- `mention->type == '=' || mention->type == 'S'` -/
def isSubstance (m : LocMention) : Bool :=
  m.type = '='.toNat.toUInt8 || m.type = 'S'.toNat.toUInt8

namespace LocEnv

variable (env : LocEnv) (kstr : List UInt8) (sentNum : Nat) (m : LocMention)

/-- The part of `get_location` under 旧; a row of `analysis_flags` is no null pointer. -/
def getLocationOld (oldFlag : Bool) : List UInt8 :=
  let front := kstr ++ utf8 "-" ++ typeAndCase m oldFlag ++ utf8 "-"
  if m.sentNum = sentNum then front ++ utf8 "C" ++ putNat (env.locCategory m.tag.bNum)
  else if sentNum - m.sentNum = 1 && (hasFeature m.tag.f "文頭" || hasFeature m.tag.f "読点") &&
      hasFeature m.tag.f "ハ" then front ++ utf8 "B1B"
  else if sentNum - m.sentNum = 1 && hasFeature m.tag.f "文末" && hasFeature m.tag.f "用言:判" then
    front ++ utf8 "B1E"
  else if sentNum > m.sentNum then
    front ++ utf8 "B" ++ putNat (if sentNum - m.sentNum ≤ 3 then sentNum - m.sentNum else 0)
  else
    let num := putNat (if m.sentNum - sentNum ≤ 3 then m.sentNum - sentNum else 0)
    match kakariCase m with
    | some c =>
        if !oldFlag && isSubstance m then kstr ++ utf8 "-C" ++ c ++ utf8 "-" ++ utf8 "A" ++ num
        else front ++ utf8 "A" ++ num
    | none => front ++ utf8 "A" ++ num

/-- `get_location`: what is in `loc_name`, for it always returns `TRUE`. -/
def getLocation (oldFlag : Bool) : List UInt8 :=
  if isSubstance m && m.tag.parent.any fun p => env.analysisFlags m.sentNum p = 0 then
    match kakariCase m with
    | some c => kstr ++ utf8 "-C" ++ c ++ utf8 "-" ++ env.posName sentNum m
    | none => env.getLocationOld kstr sentNum m oldFlag
  else kstr ++ utf8 "-" ++ typeAndCase m oldFlag ++ utf8 "-" ++ env.posName sentNum m

end LocEnv

/-! ## Ids -/

/-- `!strncmp(loc_name + BYTES4CHAR + 2, s, BYTES4CHAR)` for a character `s` -/
def caseAt (locName : List UInt8) (s : String) : Bool :=
  (locName.drop (BYTES4CHAR + 2)).take BYTES4CHAR = utf8 s

/-- `case_id`, or `none` where -1 is returned. -/
def caseId (locName : List UInt8) : Option Nat :=
  let c := locName.getD (BYTES4CHAR + 1) 0
  let caseType := 4
  if c = 'S'.toNat.toUInt8 then some 0
  else
    (if c = 'C'.toNat.toUInt8 then some 1
      else if c = 'O'.toNat.toUInt8 || c = 'E'.toNat.toUInt8 then some 2
      else none).bind fun caseId =>
        if caseAt locName "ヲ" then some ((caseId - 1) * caseType + 1 + 1)
        else if caseAt locName "ニ" then some ((caseId - 1) * caseType + 2 + 1)
        else if caseAt locName "ガ" then some ((caseId - 1) * caseType + 1)
        -- ノ: 精度が下がったのでなし
        else none

def cType : Nat := 9

def bType : Nat := 3

def aType : Nat := 3

/-- `loc_id` before the number is added. -/
def locBase (locName : List UInt8) : Option Nat :=
  let c := locName.getD (BYTES4CHAR * 2 + 3) 0
  if c = 'B'.toNat.toUInt8 then some cType
  else if c = 'A'.toNat.toUInt8 then some (bType + cType)
  else if c = 'C'.toNat.toUInt8 then some 0
  else none

/-- `atoi` of bytes -/
def atoiBytes (s : List UInt8) : Int := atoi (String.ofList (s.map fun b => Char.ofNat b.toNat))

/-- `convert_locname_id`: `loc_num` and `simple_loc_num`. -/
def convertLocnameId (locName : List UInt8) : Int × Int :=
  if locName.length ≠ BYTES4CHAR * 2 + 5 then (-1, -1)
  else match caseId locName, locBase locName with
    | some caseId, some locId =>
        let num := atoiBytes (locName.drop (BYTES4CHAR * 2 + 4))
        if 0 < num then
          (locId + (num - 1) + caseId * (cType + bType + aType : Nat), locId + (num - 1))
        else (-1, -1)
    | _, _ => (-1, -1)

/-! ## The loop over the mentions -/

def WA_IN_THE_SENT : Nat := 5

def NE_PERSON : Nat := 7

def ne : List String :=
  ["PERSON", "ORGANIZATION", "ARTIFACT", "DATE", "LOCATION", "TIME", "MONY", "PERCENT"]

/-- What the loop reads for an omitted case: `sent_num`, the case, the type of `tcf_ptr->cf`, the
bases of the two blocks of features, and `get_general_probability` for `PMI` and `T`. -/
structure OmitEnv (S : Type*) extends LocEnv where
  sentNum : Nat
  kstr : List UInt8
  cfType : CfType
  featureBase : Int
  featureBase2 : Option Int
  pmi : List UInt8 → S
  t : List UInt8 → S

/-- `of_ptr`, `max_score` and `elem_b_ptr[i]`. -/
structure OmitState (S : Type*) where
  ofPtr : Int → S
  maxScore : S
  elemBPtr : Nat

namespace OmitEnv

variable {S : Type*} (env : OmitEnv S)

/-- The cells that are set before the location. -/
def otherCells (m : LocMention) : List Int :=
  (if m.sentNum = env.sentNum && hasFeature m.tag.f "ハ" then [(WA_IN_THE_SENT : Int)] else []) ++
  (if hasFeature m.tag.f "NE:PERSON" then [(NE_PERSON : Int)] else []) ++
  match checkFeature m.tag.f "NE" with
  | some cp =>
      ((List.range NE_NUM).filter fun k =>
        (strstr ((utf8 cp).drop (utf8 "NE:").length) (utf8 (ne.getD k ""))).isSome).map
        fun k => ((NE_FEATURE_S + k : Nat) : Int)
  | none => []

/-- 自分自身は除外 -/
def considered (m : LocMention) : Bool :=
  !(m.sentNum = env.sentNum && env.locCategory m.tag.bNum = 0)

/-- `loc_num` -/
def locNum (m : LocMention) : Int :=
  (convertLocnameId (env.getLocation env.kstr env.sentNum m false)).1

/-- The cell that is set for the location. -/
def locationCells (m : LocMention) : List Int :=
  if env.considered m && env.cfType = .pred && env.locNum m ≠ 1 then
    [LOCATION_S + env.locNum m * 3]
  else []

section Loop

variable [One S]

/-- The cell of a feature in both blocks is set to 1. -/
def setCell (ofPtr : Int → S) (k : Int) : Int → S :=
  let ofPtr := Function.update ofPtr (env.featureBase + k) 1
  match env.featureBase2 with
  | some base2 => Function.update ofPtr (base2 + k) 1
  | none => ofPtr

variable [LinearOrder S]

/-- One mention. -/
def mentionStep (st : OmitState S) (m : LocMention) : OmitState S :=
  let ofPtr := (env.otherCells m ++ env.locationCells m).foldl env.setCell st.ofPtr
  if !env.considered m then { st with ofPtr }
  else
    let locationProb :=
      if env.cfType = .pred then env.pmi (env.getLocation env.kstr env.sentNum m false)
      else env.t (env.getLocation env.kstr env.sentNum m true)
    if st.maxScore < locationProb then ⟨ofPtr, locationProb, m.tag.num⟩ else { st with ofPtr }

def mentionLoop (st : OmitState S) (ms : List LocMention) : OmitState S :=
  ms.foldl env.mentionStep st

end Loop

/-- A cell of the array that belongs to a feature. -/
def Touches (k i : Int) : Prop :=
  i = env.featureBase + k ∨ ∃ base2, env.featureBase2 = some base2 ∧ i = base2 + k

/-- In the block for locations the cells of the ids are set, one for each mention that is
considered and has an id, and nothing else is. -/
structure LocationLaw (ms : List LocMention) : Prop where
  cells : ∀ k : Int, LOCATION_S ≤ k → k < SIMPLE_LOCATION_S →
    (k ∈ ms.flatMap env.locationCells ↔
      ∃ m ∈ ms, env.considered m = true ∧ ∃ id : Nat, env.locNum m = id ∧ k = LOCATION_S + 3 * id)
  noId : ∀ m ∈ ms, env.locNum m = -1 → env.locationCells m = []
  inside : ∀ k ∈ ms.flatMap env.locationCells, LOCATION_S ≤ k ∧ k < SIMPLE_LOCATION_S

end OmitEnv

/-! ## What is decoded -/

/-- `pos_name`, or the end of a location of the old kind. -/
def IsPos (p : List UInt8) : Prop :=
  (∃ n, p = utf8 "C" ++ putNat n) ∨
    (∃ n ≤ 3, p = utf8 "A" ++ putNat n ∨ p = utf8 "B" ++ putNat n) ∨
    p = utf8 "B1B" ∨ p = utf8 "B1E"

theorem isPos_near (letter : String) (hletter : letter = "A" ∨ letter = "B") (n : Nat) :
    IsPos (utf8 letter ++ putNat (if n ≤ 3 then n else 0)) := by
  refine Or.inr (Or.inl ⟨if n ≤ 3 then n else 0, ?_, ?_⟩)
  · split_ifs with h
    · exact h
    · exact Nat.zero_le 3
  · rcases hletter with rfl | rfl
    · exact Or.inl rfl
    · exact Or.inr rfl

theorem posName_isPos (env : LocEnv) (sentNum : Nat) (m : LocMention) :
    IsPos (env.posName sentNum m) := by
  rw [LocEnv.posName]
  split
  · exact Or.inl ⟨_, rfl⟩
  · split
    · exact isPos_near "A" (Or.inl rfl) _
    · exact isPos_near "B" (Or.inr rfl) _

theorem getLocationOld_pos (env : LocEnv) (kstr : List UInt8) (sentNum : Nat) (m : LocMention)
    (oldFlag : Bool) :
    ∃ front p, env.getLocationOld kstr sentNum m oldFlag = front ++ p ∧ IsPos p := by
  rw [LocEnv.getLocationOld]
  dsimp only
  generalize kstr ++ utf8 "-" ++ typeAndCase m oldFlag ++ utf8 "-" = front
  split
  · exact ⟨front, _, List.append_assoc _ _ _, Or.inl ⟨_, rfl⟩⟩
  · split
    · exact ⟨front, _, rfl, Or.inr (Or.inr (Or.inl rfl))⟩
    · split
      · exact ⟨front, _, rfl, Or.inr (Or.inr (Or.inr rfl))⟩
      · split
        · exact ⟨front, _, List.append_assoc _ _ _, isPos_near "B" (Or.inr rfl) _⟩
        · split
          · split
            · exact ⟨_, _, List.append_assoc _ _ _, isPos_near "A" (Or.inl rfl) _⟩
            · exact ⟨front, _, List.append_assoc _ _ _, isPos_near "A" (Or.inl rfl) _⟩
          · exact ⟨front, _, List.append_assoc _ _ _, isPos_near "A" (Or.inl rfl) _⟩

theorem getLocation_pos (env : LocEnv) (kstr : List UInt8) (sentNum : Nat) (m : LocMention)
    (oldFlag : Bool) :
    ∃ front p, env.getLocation kstr sentNum m oldFlag = front ++ p ∧ IsPos p := by
  rw [LocEnv.getLocation]
  split
  · split
    · exact ⟨_, _, rfl, posName_isPos env sentNum m⟩
    · exact getLocationOld_pos env kstr sentNum m oldFlag
  · exact ⟨_, _, rfl, posName_isPos env sentNum m⟩

theorem lt_of_length_putNat {n : Nat} (h : (putNat n).length ≤ 1) : n < 10 := by
  rw [putNat] at h
  split_ifs at h with hzero
  · omega
  · rw [List.length_map, List.length_reverse] at h
    exact (Nat.digits_length_le_iff (k := 1) (by decide) n).mp h

theorem putNat_digit {n : Nat} {b : UInt8} (h : b ∈ putNat n) : 48 ≤ b ∧ b ≤ 57 := by
  have hdigit := isDigit_of_mem_putNat h
  rw [Scanf.isDigit, Bool.and_eq_true, decide_eq_true_iff, decide_eq_true_iff] at hdigit
  exact hdigit

theorem atoiBytes_putNat : ∀ n < 10, atoiBytes (putNat n) = n := by decide

theorem caseId_le {locName : List UInt8} {c : Nat} (h : caseId locName = some c) : c ≤ 7 := by
  rw [caseId] at h
  split at h
  · cases h
    exact Nat.zero_le 7
  · obtain ⟨k, hk, hc⟩ := Option.bind_eq_some_iff.mp h
    have hk2 : k ≤ 2 := by
      split at hk
      · cases hk
        decide
      · split at hk
        · cases hk
          exact le_rfl
        · cases hk
    split_ifs at hc <;>
    · cases hc
      omega

/-- The letter in front of the number is not a digit. -/
theorem locBase_cases {locName : List UInt8} {b : Nat} (h : locBase locName = some b) :
    (locName.getD 9 0 = 65 ∧ b = 12) ∨ (locName.getD 9 0 = 66 ∧ b = 9) ∨
      locName.getD 9 0 = 67 ∧ b = 0 := by
  rw [locBase] at h
  split at h
  · next hc => exact Or.inr (Or.inl ⟨hc, (Option.some.inj h).symm⟩)
  · split at h
    · next hc => exact Or.inl ⟨hc, (Option.some.inj h).symm⟩
    · split at h
      · next hc => exact Or.inr (Or.inr ⟨hc, (Option.some.inj h).symm⟩)
      · cases h

theorem convertLocnameId_cases (locName : List UInt8) : (convertLocnameId locName).1 = -1 ∨
    locName.length = 11 ∧ ∃ c b : Nat, caseId locName = some c ∧ locBase locName = some b ∧
      0 < atoiBytes (locName.drop 10) ∧
      (convertLocnameId locName).1 = b + (atoiBytes (locName.drop 10) - 1) + c * 15 := by
  rw [convertLocnameId]
  split
  · exact Or.inl rfl
  · next hlen =>
    split
    · next c b hc hb =>
      dsimp only
      split
      · next hnum => exact Or.inr ⟨not_not.mp hlen, c, b, hc, hb, hnum, rfl⟩
      · exact Or.inl rfl
    · exact Or.inl rfl

/-- If a letter is where the decoder looks for one, then it is that in front of the number. -/
theorem number_at {front ds : List UInt8} {x : UInt8} (hne : ds ≠ [])
    (hds : ∀ d ∈ ds, 48 ≤ d ∧ d ≤ 57) (hlen : (front ++ x :: ds).length = 11)
    (hletter : ¬(front ++ x :: ds).getD 9 0 ≤ 57) :
    ds.length = 1 ∧ (front ++ x :: ds).getD 9 0 = x ∧ (front ++ x :: ds).drop 10 = ds := by
  have hpos : 0 < ds.length := List.length_pos_iff.mpr hne
  rw [List.length_append, List.length_cons] at hlen
  have hone : ds.length = 1 := by
    by_contra hmore
    refine hletter ?_
    have hk : 9 - front.length = (ds.length - 2) + 1 := by omega
    rw [List.getD_append_right _ _ _ _ (by omega), hk, List.getD_cons_succ,
      List.getD_eq_getElem _ _ (by omega)]
    exact (hds _ (List.getElem_mem _)).2
  have hfront : front.length = 9 := by omega
  refine ⟨hone, ?_, ?_⟩
  · rw [List.getD_append_right _ _ _ _ (by omega), hfront, Nat.sub_self, List.getD_cons_zero]
  · rw [List.drop_append, hfront, List.drop_of_length_le (by omega)]
    rfl

theorem locBase_letter {locName : List UInt8} {b : Nat} (h : locBase locName = some b) :
    ¬locName.getD 9 0 ≤ 57 := by
  rcases locBase_cases h with ⟨heq, -⟩ | ⟨heq, -⟩ | ⟨heq, -⟩ <;>
  · rw [heq]
    decide

/-- The number of a location in the same sentence has one digit, and otherwise it is at most 3. -/
theorem location_number {front p : List UInt8} (hp : IsPos p) (hlen : (front ++ p).length = 11)
    {b : Nat} (hb : locBase (front ++ p) = some b) :
    ∃ n < 10, (front ++ p).drop 10 = putNat n ∧ (b = 0 ∨ b ≤ 12 ∧ n ≤ 3) := by
  have hletter := locBase_letter hb
  have hprint : ∀ (x : UInt8) n, p = x :: putNat n →
      n < 10 ∧ (front ++ p).getD 9 0 = x ∧ (front ++ p).drop 10 = putNat n := by
    rintro x n rfl
    obtain ⟨hone, hx, hdrop⟩ :=
      number_at (putNat_ne_nil n) (fun d hd => putNat_digit hd) hlen hletter
    exact ⟨lt_of_length_putNat hone.le, hx, hdrop⟩
  rcases hp with ⟨n, hn⟩ | ⟨n, hn3, hn⟩ | hlast
  · obtain ⟨hlt, hx, hdrop⟩ := hprint 67 n hn
    refine ⟨n, hlt, hdrop, Or.inl ?_⟩
    rcases locBase_cases hb with ⟨heq, -⟩ | ⟨heq, -⟩ | ⟨-, hzero⟩
    · exact absurd (heq.symm.trans hx) (by decide)
    · exact absurd (heq.symm.trans hx) (by decide)
    · exact hzero
  · have hb12 : b ≤ 12 := by
      rcases locBase_cases hb with ⟨-, rfl⟩ | ⟨-, rfl⟩ | ⟨-, rfl⟩ <;> decide
    rcases hn with hn | hn
    · obtain ⟨hlt, -, hdrop⟩ := hprint 65 n hn
      exact ⟨n, hlt, hdrop, Or.inr ⟨hb12, hn3⟩⟩
    · obtain ⟨hlt, -, hdrop⟩ := hprint 66 n hn
      exact ⟨n, hlt, hdrop, Or.inr ⟨hb12, hn3⟩⟩
  · -- `B1B` and `B1E` have the digit 1 there
    have hfront : front.length = 8 := by
      rcases hlast with rfl | rfl <;>
      · rw [List.length_append] at hlen
        exact Nat.add_right_cancel hlen
    refine absurd ?_ hletter
    rcases hlast with rfl | rfl <;>
    · rw [List.getD_append_right _ _ _ _ (by omega), hfront]
      decide

/-- An id is one of those that the block has cells for. -/
theorem convertLocnameId_range (env : LocEnv) (kstr : List UInt8) (sentNum : Nat) (m : LocMention)
    (oldFlag : Bool) :
    (convertLocnameId (env.getLocation kstr sentNum m oldFlag)).1 = -1 ∨
      0 ≤ (convertLocnameId (env.getLocation kstr sentNum m oldFlag)).1 ∧
        (convertLocnameId (env.getLocation kstr sentNum m oldFlag)).1 < LOCATION_NUM := by
  obtain ⟨front, p, hloc, hp⟩ := getLocation_pos env kstr sentNum m oldFlag
  rw [hloc]
  refine (convertLocnameId_cases (front ++ p)).imp_right ?_
  rintro ⟨hlen, c, b, hc, hb, hnum, hid⟩
  obtain ⟨n, hn, hdrop, hbn⟩ := location_number hp hlen hb
  have hc7 := caseId_le hc
  rw [hdrop, atoiBytes_putNat n hn] at hnum hid
  rw [hid]
  change _ ∧ _ < (135 : Int)
  omega

namespace OmitEnv

variable {S : Type*} {env : OmitEnv S} {ms : List LocMention} {m : LocMention} {k : Int}

theorem locNum_range (m : LocMention) :
    env.locNum m = -1 ∨ 0 ≤ env.locNum m ∧ env.locNum m < LOCATION_NUM :=
  convertLocnameId_range env.toLocEnv env.kstr env.sentNum m false

theorem mem_locationCells (hpred : env.cfType = .pred) : k ∈ env.locationCells m ↔
    env.considered m = true ∧ env.locNum m ≠ 1 ∧ k = LOCATION_S + env.locNum m * 3 := by
  rw [locationCells, hpred]
  by_cases hm : env.considered m = true
  · by_cases hone : env.locNum m = 1
    · simp [hone]
    · simp [hm, hone]
  · simp [hm]

/-- The cells are right just if each mention that is considered has an id, which is not 1. -/
theorem locationLaw_iff (hpred : env.cfType = .pred) (ms : List LocMention) :
    env.LocationLaw ms ↔
      ∀ m ∈ ms, env.considered m = true → env.locNum m ≠ -1 ∧ env.locNum m ≠ 1 := by
  constructor
  · intro hlaw m hm hcon
    refine ⟨fun hnone => ?_, fun hone => ?_⟩
    · -- the cell in front of the block is set
      have hcell : LOCATION_S + env.locNum m * 3 ∈ env.locationCells m :=
        (mem_locationCells hpred).mpr ⟨hcon, by omega, rfl⟩
      rw [hlaw.noId m hm hnone] at hcell
      cases hcell
    · have hcell := (hlaw.cells (LOCATION_S + 3) (by decide) (by decide)).mpr
        ⟨m, hm, hcon, 1, hone, rfl⟩
      obtain ⟨m', -, hm'⟩ := List.mem_flatMap.mp hcell
      obtain ⟨-, hne, heq⟩ := (mem_locationCells hpred).mp hm'
      omega
  · intro hall
    have hid : ∀ m ∈ ms, env.considered m = true → 0 ≤ env.locNum m ∧ env.locNum m < 135 :=
      fun m hm hcon => (locNum_range m).resolve_left (hall m hm hcon).1
    refine ⟨fun k hlow hhigh => ?_, fun m hm hnone => ?_, fun k hk => ?_⟩
    · rw [List.mem_flatMap]
      refine exists_congr fun m => and_congr_right fun hm => ?_
      rw [mem_locationCells hpred]
      refine and_congr_right fun hcon => ?_
      obtain ⟨hnonneg, -⟩ := hid m hm hcon
      constructor
      · rintro ⟨-, rfl⟩
        exact ⟨(env.locNum m).toNat, by omega, by omega⟩
      · rintro ⟨id, heq, rfl⟩
        exact ⟨(hall m hm hcon).2, by omega⟩
    · rw [List.eq_nil_iff_forall_not_mem]
      intro k hk
      exact (hall m hm ((mem_locationCells hpred).mp hk).1).1 hnone
    · obtain ⟨m, hm, hkm⟩ := List.mem_flatMap.mp hk
      obtain ⟨hcon, -, rfl⟩ := (mem_locationCells hpred).mp hkm
      obtain ⟨hnonneg, hlt⟩ := hid m hm hcon
      change (_ : Int) ≤ _ ∧ _ < (LOCATION_S : Int) + 405
      omega

/-! ## The array -/

theorem otherCells_lt (h : k ∈ env.otherCells m) : 0 ≤ k ∧ k < LOCATION_S := by
  change _ ∧ _ < (55 : Int)
  rw [otherCells, List.mem_append, List.mem_append] at h
  rcases h with (hwa | hperson) | hne
  · split at hwa
    · rw [List.mem_singleton.mp hwa]
      decide
    · cases hwa
  · split at hperson
    · rw [List.mem_singleton.mp hperson]
      decide
    · cases hperson
  · split at hne
    · obtain ⟨j, hj, rfl⟩ := List.mem_map.mp hne
      have hj8 : j < 8 := List.mem_range.mp (List.mem_filter.mp hj).1
      have hstart : NE_FEATURE_S = 47 := rfl
      omega
    · cases hne

theorem locationCells_lt (h : k ∈ env.locationCells m) : 0 ≤ k ∧ k < SIMPLE_LOCATION_S := by
  have hk : k = 55 + env.locNum m * 3 := by
    rw [locationCells] at h
    split at h
    · exact List.mem_singleton.mp h
    · cases h
  change _ ∧ _ < (460 : Int)
  have hrange : env.locNum m = -1 ∨ 0 ≤ env.locNum m ∧ env.locNum m < (135 : Int) := locNum_range m
  omega

theorem touches_base (k : Int) : env.Touches k (env.featureBase + k) := Or.inl rfl

/-- The cells that are set for a list of mentions. -/
def allCells (env : OmitEnv S) (ms : List LocMention) : List Int :=
  ms.flatMap fun m => env.otherCells m ++ env.locationCells m

/-- In the block for locations the cells that are set are those of `locationCells`, if the block
of the hypothetical entity lies behind. -/
theorem touches_allCells_iff
    (hapart : ∀ base2, env.featureBase2 = some base2 → env.featureBase + EACH_FEARUTE_NUM ≤ base2)
    (hlow : LOCATION_S ≤ k) (hhigh : k < SIMPLE_LOCATION_S) :
    (∃ k' ∈ env.allCells ms, env.Touches k' (env.featureBase + k)) ↔
      k ∈ ms.flatMap env.locationCells := by
  rw [List.mem_flatMap]
  constructor
  · rintro ⟨k', hk', hbase⟩
    obtain ⟨m, hm, hk'm⟩ := List.mem_flatMap.mp hk'
    have hpos : 0 ≤ k' := (List.mem_append.mp hk'm).elim (fun h => (otherCells_lt h).1)
      fun h => (locationCells_lt h).1
    have heq : k = k' := by
      rcases hbase with heq | ⟨base2, hbase2, heq⟩
      · exact Int.add_left_cancel heq
      · have hfar := hapart base2 hbase2
        have hblock : (SIMPLE_LOCATION_S : Int) ≤ EACH_FEARUTE_NUM := by decide
        omega
    subst heq
    refine ⟨m, hm, (List.mem_append.mp hk'm).resolve_left fun h => ?_⟩
    exact absurd (otherCells_lt h).2 hlow.not_gt
  · rintro ⟨m, hm, hkm⟩
    exact ⟨k, List.mem_flatMap.mpr ⟨m, hm, List.mem_append_right _ hkm⟩, touches_base k⟩

section Array

variable [One S] {cells : List Int} {ofPtr : Int → S} {i : Int}

theorem setCell_of_touches (h : env.Touches k i) : env.setCell ofPtr k i = 1 := by
  unfold setCell
  cases hbase2 : env.featureBase2 with
  | none =>
      rcases h with rfl | ⟨base2, heq, -⟩
      · exact Function.update_self _ _ _
      · rw [hbase2] at heq
        cases heq
  | some base2 =>
      dsimp only
      by_cases hi : i = base2 + k
      · rw [hi]
        exact Function.update_self _ _ _
      · rw [Function.update_of_ne hi]
        rcases h with rfl | ⟨base2', heq, rfl⟩
        · exact Function.update_self _ _ _
        · rw [hbase2] at heq
          exact absurd (Option.some.inj heq ▸ rfl) hi

theorem setCell_of_not_touches (h : ¬env.Touches k i) : env.setCell ofPtr k i = ofPtr i := by
  have hbase : i ≠ env.featureBase + k := fun heq => h (Or.inl heq)
  unfold setCell
  cases hbase2 : env.featureBase2 with
  | none => exact Function.update_of_ne hbase _ _
  | some base2 =>
      have hne : i ≠ base2 + k := fun heq => h (Or.inr ⟨base2, hbase2, heq⟩)
      dsimp only
      rw [Function.update_of_ne hne, Function.update_of_ne hbase]

theorem foldl_setCell_one (h : ofPtr i = 1) : cells.foldl env.setCell ofPtr i = 1 := by
  induction cells generalizing ofPtr with
  | nil => exact h
  | cons k cells ih =>
      refine ih ?_
      by_cases htouch : env.Touches k i
      · exact setCell_of_touches htouch
      · rw [setCell_of_not_touches htouch, h]

theorem foldl_setCell_of_touches (h : ∃ k ∈ cells, env.Touches k i) :
    cells.foldl env.setCell ofPtr i = 1 := by
  obtain ⟨k, hk, htouch⟩ := h
  induction cells generalizing ofPtr with
  | nil => cases hk
  | cons k' cells ih =>
      rcases List.mem_cons.mp hk with rfl | hk
      · rw [List.foldl_cons]
        exact foldl_setCell_one (setCell_of_touches htouch)
      · exact ih hk

theorem foldl_setCell_of_not_touches (h : ∀ k ∈ cells, ¬env.Touches k i) :
    cells.foldl env.setCell ofPtr i = ofPtr i := by
  induction cells generalizing ofPtr with
  | nil => rfl
  | cons k cells ih =>
      rw [List.foldl_cons, ih fun k' hk' => h k' (List.mem_cons_of_mem k hk'),
        setCell_of_not_touches (h k List.mem_cons_self)]

variable [LinearOrder S] {st : OmitState S}

theorem mentionLoop_ofPtr (st : OmitState S) (ms : List LocMention) :
    (env.mentionLoop st ms).ofPtr = (env.allCells ms).foldl env.setCell st.ofPtr := by
  induction ms generalizing st with
  | nil => rfl
  | cons m ms ih =>
      have hstep : (env.mentionStep st m).ofPtr =
          (env.otherCells m ++ env.locationCells m).foldl env.setCell st.ofPtr := by
        rw [mentionStep]
        dsimp only
        split_ifs <;> rfl
      have hcells : env.allCells (m :: ms) =
          env.otherCells m ++ env.locationCells m ++ env.allCells ms := List.flatMap_cons
      rw [mentionLoop, List.foldl_cons, ← mentionLoop, ih, hstep, hcells, ← List.foldl_append]

/-- The loop sets the cells of `locationCells` in the block and leaves the others. -/
theorem mentionLoop_location
    (hapart : ∀ base2, env.featureBase2 = some base2 → env.featureBase + EACH_FEARUTE_NUM ≤ base2)
    (hlow : LOCATION_S ≤ k) (hhigh : k < SIMPLE_LOCATION_S) :
    (env.mentionLoop st ms).ofPtr (env.featureBase + k) =
      if k ∈ ms.flatMap env.locationCells then 1 else st.ofPtr (env.featureBase + k) := by
  have htouch : (∃ k' ∈ env.allCells ms, env.Touches k' (env.featureBase + k)) ↔
      k ∈ ms.flatMap env.locationCells := touches_allCells_iff hapart hlow hhigh
  rw [mentionLoop_ofPtr]
  split_ifs with hk
  · exact foldl_setCell_of_touches (htouch.mpr hk)
  · exact foldl_setCell_of_not_touches fun k' hk' h => hk (htouch.mp ⟨k', hk', h⟩)

end Array

end OmitEnv

/-! ## Mentions of ガ -/

/-- ガ is omitted in the third sentence; the bunsetsu behind the predicate has category 2. -/
def gaOmitted : OmitEnv Int :=
  { locCategory := fun n => if n = 5 then 2 else 8, analysisFlags := fun _ _ => 1
    sentNum := 2, kstr := utf8 "ガ", cfType := .pred, featureBase := 0, featureBase2 := none
    pmi := fun _ => 0, t := fun _ => 0 }

def caseMention (sentNum : Nat) (type : Char) (cpp : String) (bNum : Nat) : LocMention :=
  { sentNum, type := type.toNat.toUInt8, cppString := utf8 cpp
    tag := ⟨bNum, [], none, bNum, none, []⟩ }

theorem gaOmitted_law : gaOmitted.LocationLaw [caseMention 1 'C' "ガ" 3, caseMention 2 'O' "ヲ" 6] :=
  (OmitEnv.locationLaw_iff rfl _).mpr (by decide +kernel)

/-- A mention as ノ has no id, and a word of category 2 has the id 1. -/
theorem gaOmitted_cells :
    gaOmitted.locNum (caseMention 1 'C' "ノ" 3) = -1 ∧
      gaOmitted.locationCells (caseMention 1 'C' "ノ" 3) = [(NE_FEATURE_S : Int) + 5] ∧
      gaOmitted.locNum (caseMention 2 'S' "＊" 5) = 1 ∧
      gaOmitted.locationCells (caseMention 2 'S' "＊" 5) = [] ∧
      ¬gaOmitted.LocationLaw [caseMention 1 'C' "ノ" 3, caseMention 2 'S' "＊" 5] := by
  have hnone : gaOmitted.locNum (caseMention 1 'C' "ノ" 3) = -1 := by decide +kernel
  have hcell : gaOmitted.locationCells (caseMention 1 'C' "ノ" 3) = [(NE_FEATURE_S : Int) + 5] := by
    decide +kernel
  refine ⟨hnone, hcell, by decide +kernel, by decide +kernel, fun hlaw => ?_⟩
  have hnil := hlaw.noId _ List.mem_cons_self hnone
  rw [hcell] at hnil
  cases hnil

end Knp
