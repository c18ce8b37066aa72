import Knp.AnswerString
import Knp.CaseMatch
import Knp.FeatureBytes

/-!
# The features for hypothetical entities (`anaphora.c`)

`calc_ellipsis_score_of_ctm` goes through the entries of a result twice. The first pass notes in
`hypo_entity_fill_case` which kind of hypothetical entity fills which case, and the second one
copies the notes into each block of features that it writes.

> A note is made for the slot behind the last one of the case frame, and the notes are copied up
> to one behind the last one.

`e_num` is not set in the first pass, and has been left at the number of slots by a loop before.
-/

namespace Knp

open FeatureBytes

/-- `unnamed_entity_name` -/
def unnamedEntityName : List (List (List UInt8)) :=
  [["著者", ""], ["読者", ""], ["不特定:人", ""], ["不特定:物", "不特定:状況"], [""]].map
    (List.map utf8)

/-- `ELLIPSIS_CASE_LIST_NOUN` -/
def ellipsisCaseListNoun : List (List UInt8) := ["ノ", "ノ", "ノ？"].map utf8

/-- What is read of `ENTITY`; `hypothetical_entity` is `none` for -1. -/
structure HypoEntity where
  num : Nat
  hypotheticalFlag : Nat
  hypotheticalEntity : Option Nat
  hypotheticalName : List UInt8

namespace HypoEntity

/-- The condition under which an entity counts as a hypothetical one. -/
def isHypothetical (e : HypoEntity) : Bool :=
  e.num < UNNAMED_ENTITY_NUM || e.hypotheticalEntity.any (· < UNNAMED_ENTITY_NUM) ||
    (e.hypotheticalEntity.isSome && e.hypotheticalFlag = 1)

/-- The last kind that has a name in the name of the entity; an empty name ends the names. -/
def namedKind (name : List UInt8) (entityNum : Option Nat) : Option Nat :=
  unnamedEntityName.zipIdx.foldl (fun entityNum x =>
    if (x.1.takeWhile (· ≠ [])).any fun n => (strstr name n).isSome then some x.2
    else entityNum) entityNum

/-- The kind of a hypothetical entity; `none` as long as `entity_num` has no number. -/
def kind (e : HypoEntity) : Option Nat :=
  if e.isHypothetical then
    if e.num < UNNAMED_ENTITY_NUM then some e.num
    else match e.hypotheticalEntity with
      | some n => if n < UNNAMED_ENTITY_NUM then some n else namedKind e.hypotheticalName none
      | none => none
  else none

end HypoEntity

/-- An entry of a result: the slot of the case frame and the entity that fills it. -/
structure HypoEntry where
  eNum : Nat
  entity : HypoEntity

/-- A result for a predicate. `pp` is what stands in `pp[e_num][0]`, behind the slots too. -/
structure HypoResult where
  cfType : CfType
  elementNum : Nat
  pp : Nat → Int
  entries : List HypoEntry
  caseResultNum : Nat
  train : Bool
  adjFlag : Bool
  eNum_lt : ∀ e ∈ entries, e.eNum < elementNum

def REAL_S : Nat := EACH_FEARUTE_NUM

def FILLED_S : Nat := EACH_FEARUTE_NUM * 2

def UNNAMED_S : Nat := EACH_FEARUTE_NUM * 3

def ADJ_FEATURE_S : Nat := EACH_FEARUTE_NUM * (3 + UNNAMED_ENTITY_NUM)

/-- A block of features: the row, where it begins if that is defined, the cells for the notes that
are set to 1, and the notes that were read. -/
structure HypoBlock where
  row : Nat
  featureBase : Option Nat
  cells : List Nat
  caseIndices : List Nat

namespace HypoResult

variable (r : HypoResult)

/-- `get_ellipsis_case_num` of a slot; `none` for -1. -/
def ellipsisCaseNum (eNum : Nat) : Option Nat :=
  (ppCodeToKstr (r.pp eNum)).bind fun key =>
    (match r.cfType with
      | .pred => ellipsisCaseListVerb
      | .noun => ellipsisCaseListNoun).findIdx? (key = ·)

/-- `!OPT_TRAIN && ga_filled_flag == 0`, where `OPT_UNNAMED_ENTITY` is on: there is no score. -/
def returnsEarly : Bool :=
  !r.train && !r.entries.any fun e => r.ellipsisCaseNum e.eNum = some 0

/-- `e_num` in the first pass: the loops over the slots before have ended with it. -/
def leftENum : Nat := r.elementNum

/-- One entry in the first pass. -/
def fillStep (fill : Nat → Option Nat) (e : HypoEntry) : Nat → Option Nat :=
  match e.entity.kind with
  | none => fill
  | some entityNum =>
      match r.ellipsisCaseNum r.leftENum with
      | some c => if entityNum < UNNAMED_ENTITY_NUM then Function.update fill c (some entityNum)
          else fill
      | none => fill

/-- `hypo_entity_fill_case` after the first pass; `none` for -1. What lies behind the array is
`beyond`. -/
def hypoEntityFillCase (beyond : Option Nat) : Nat → Option Nat :=
  r.entries.foldl r.fillStep fun c => if c < ELLIPSIS_CASE_NUM then none else beyond

/-- The slots that are looked at before the second pass and in it. -/
def slotIndices : List Nat :=
  r.entries.map HypoEntry.eNum ++ List.range r.elementNum ++
    if r.returnsEarly then []
    else r.entries.filterMap (fun e => e.entity.kind.map fun _ => r.leftENum) ++
      r.entries.map HypoEntry.eNum

/-- `j` in the loop that copies the notes. -/
def noteIndices : List Nat := List.range (ELLIPSIS_CASE_NUM + 1)

/-- The cells of the notes, from the beginning of the block on. -/
def noteCells (beyond : Option Nat) : List Nat :=
  noteIndices.flatMap fun j => (List.range UNNAMED_ENTITY_NUM).filterMap fun k =>
    if r.hypoEntityFillCase beyond j = some k then some (UNNAMED_NUM_S + j * UNNAMED_ENTITY_NUM + k)
    else none

/-- 格解析結果: the entry with the number `i` is filled by the case analysis. -/
def filledFlag (i : Nat) : Bool := i < r.caseResultNum

/-- The blocks of one entry in the second pass. -/
def entryBlocks (beyond : Option Nat) (i : Nat) (e : HypoEntry) : List HypoBlock :=
  let c := r.ellipsisCaseNum e.eNum
  if c = none ∧ r.filledFlag i = true then []
  else
    let row := c.getD 0
    let adj := if r.adjFlag then ADJ_FEATURE_S else 0
    (if e.entity.isHypothetical then
        [⟨row, e.entity.kind.map fun k => UNNAMED_S + k * EACH_FEARUTE_NUM + adj,
          r.noteCells beyond, noteIndices⟩] else []) ++
      if e.entity.hypotheticalFlag = 0 then
        [⟨row, some ((if r.filledFlag i then FILLED_S else REAL_S) + adj), r.noteCells beyond,
          noteIndices⟩] else []

/-- The blocks of the result. -/
def blocks (beyond : Option Nat) : List HypoBlock :=
  if r.returnsEarly then []
  else (r.entries.zipIdx).flatMap fun x => r.entryBlocks beyond x.2 x.1

/-! ## The law -/

/-- Some entry fills a slot of the case `c` with an entity of the kind `k`. -/
def Fills (c k : Nat) : Prop :=
  ∃ e ∈ r.entries, r.ellipsisCaseNum e.eNum = some c ∧ e.entity.kind = some k

structure CooccurrenceLaw (beyond : Option Nat) : Prop where
  cells : ∀ b ∈ r.blocks beyond, ∀ c < ELLIPSIS_CASE_NUM, ∀ k < UNNAMED_ENTITY_NUM,
    (UNNAMED_NUM_S + c * UNNAMED_ENTITY_NUM + k ∈ b.cells ↔ r.Fills c k)
  slots : ∀ e ∈ r.slotIndices, e < r.elementNum
  cases : ∀ b ∈ r.blocks beyond, ∀ j ∈ b.caseIndices, j < ELLIPSIS_CASE_NUM
  defined : ∀ b ∈ r.blocks beyond, b.featureBase ≠ none

/-- An entry for which no note is made and no block is written: of an entity without a kind, and
either filled by the case analysis in a slot of no target case, or hypothetical without being
one of the hypothetical entities. -/
def Silent (i : Nat) (e : HypoEntry) : Prop :=
  e.entity.kind = none ∧
    (r.ellipsisCaseNum e.eNum = none ∧ r.filledFlag i = true ∨
      e.entity.isHypothetical = false ∧ e.entity.hypotheticalFlag ≠ 0)

/-! ## The notes -/

variable {r} {beyond : Option Nat}

theorem namedKind_lt {name : List UInt8} {k : Nat} (h : HypoEntity.namedKind name none = some k) :
    k < UNNAMED_ENTITY_NUM := by
  unfold HypoEntity.namedKind unnamedEntityName at h
  simp only [List.map_cons, List.map_nil, List.zipIdx_cons, List.zipIdx_nil, List.foldl_cons,
    List.foldl_nil] at h
  unfold UNNAMED_ENTITY_NUM
  split_ifs at h <;> (obtain rfl := Option.some.inj h; decide)

theorem kind_lt {e : HypoEntity} {k : Nat} (h : e.kind = some k) : k < UNNAMED_ENTITY_NUM := by
  unfold HypoEntity.kind at h
  split at h
  · split at h
    next hlt =>
      obtain rfl := Option.some.inj h
      exact hlt
    next =>
      split at h
      · split at h
        next hlt =>
          obtain rfl := Option.some.inj h
          exact hlt
        next => exact namedKind_lt h
      · cases h
  · cases h

/-- The notes: the last kind of all entries, for the case of the slot behind the last one. -/
theorem foldl_fillStep (es : List HypoEntry) (fill : Nat → Option Nat) (c : Nat) :
    es.foldl r.fillStep fill c =
      if r.ellipsisCaseNum r.leftENum = some c then
        ((es.filterMap fun e => e.entity.kind).getLast?).or (fill c) else fill c := by
  induction es generalizing fill with
  | nil => simp
  | cons e es ih =>
      rw [List.foldl_cons, ih, fillStep]
      cases hkind : e.entity.kind with
      | none =>
          have hes : (e :: es).filterMap (fun e => e.entity.kind) =
              es.filterMap fun e => e.entity.kind := List.filterMap_cons_none hkind
          rw [hes]
      | some k =>
          have hes : (e :: es).filterMap (fun e => e.entity.kind) =
              k :: es.filterMap fun e => e.entity.kind := List.filterMap_cons_some hkind
          rw [hes]
          cases hcase : r.ellipsisCaseNum r.leftENum with
          | none => rfl
          | some c' =>
              dsimp only
              rw [if_pos (kind_lt hkind)]
              by_cases hc : c' = c
              · subst hc
                rw [if_pos rfl, if_pos rfl, Function.update_self, List.getLast?_cons]
                cases (es.filterMap fun e => e.entity.kind).getLast? with
                | none => rfl
                | some _ => rfl
              · have hne : ¬some c' = some c := fun h => hc (Option.some.inj h)
                rw [if_neg hne, if_neg hne, Function.update_of_ne (Ne.symm hc)]

/-- **What is noted.** -/
theorem hypoEntityFillCase_eq {c : Nat} (hc : c < ELLIPSIS_CASE_NUM) :
    r.hypoEntityFillCase beyond c =
      if r.ellipsisCaseNum r.leftENum = some c then
        (r.entries.filterMap fun e => e.entity.kind).getLast? else none := by
  rw [hypoEntityFillCase, foldl_fillStep, if_pos hc, Option.or_none]

theorem mem_noteCells {c k : Nat} (hc : c < ELLIPSIS_CASE_NUM) (hk : k < UNNAMED_ENTITY_NUM) :
    UNNAMED_NUM_S + c * UNNAMED_ENTITY_NUM + k ∈ r.noteCells beyond ↔
      r.hypoEntityFillCase beyond c = some k := by
  simp only [noteCells, noteIndices, List.mem_flatMap, List.mem_filterMap, List.mem_range]
  constructor
  · rintro ⟨j, -, k', hk', hcell⟩
    split at hcell
    next hfill =>
      have heq := Option.some.inj hcell
      unfold UNNAMED_ENTITY_NUM at heq hk hk'
      have hcj : j = c := by omega
      have hkk : k' = k := by omega
      exact hcj ▸ hkk ▸ hfill
    next => cases hcell
  · intro hfill
    exact ⟨c, by omega, k, hk, if_pos hfill⟩

/-! ## The blocks -/

theorem entryBlocks_eq_nil {i : Nat} {e : HypoEntry} : r.entryBlocks beyond i e = [] ↔
    r.ellipsisCaseNum e.eNum = none ∧ r.filledFlag i = true ∨
      e.entity.isHypothetical = false ∧ e.entity.hypotheticalFlag ≠ 0 := by
  unfold entryBlocks
  dsimp only
  split
  next hskip => exact iff_of_true rfl (.inl hskip)
  next hskip =>
    rw [or_iff_right hskip, List.append_eq_nil_iff]
    cases e.entity.isHypothetical with
    | true => simp
    | false => simp

/-- Each block reads the note behind the last one. -/
theorem noteIndices_of_mem_blocks {b : HypoBlock} (h : b ∈ r.blocks beyond) :
    b.caseIndices = noteIndices := by
  unfold blocks at h
  split at h
  · cases h
  · obtain ⟨x, -, hb⟩ := List.mem_flatMap.mp h
    unfold entryBlocks at hb
    dsimp only at hb
    split at hb
    · cases hb
    · rcases List.mem_append.mp hb with hb | hb
      · split at hb
        · rw [List.mem_singleton.mp hb]
        · cases hb
      · split at hb
        · rw [List.mem_singleton.mp hb]
        · cases hb

theorem not_noteIndices_lt : ¬∀ j ∈ noteIndices, j < ELLIPSIS_CASE_NUM := by
  intro h
  exact absurd (h ELLIPSIS_CASE_NUM (List.mem_range.mpr (Nat.lt_succ_self _))) (lt_irrefl _)

theorem blocks_eq_nil : r.blocks beyond = [] ↔
    r.returnsEarly = true ∨ ∀ x ∈ r.entries.zipIdx,
      r.ellipsisCaseNum x.1.eNum = none ∧ r.filledFlag x.2 = true ∨
        x.1.entity.isHypothetical = false ∧ x.1.entity.hypotheticalFlag ≠ 0 := by
  unfold blocks
  split
  next hearly => exact iff_of_true rfl (.inl hearly)
  next hearly =>
    rw [or_iff_right hearly, List.flatMap_eq_nil_iff]
    exact forall₂_congr fun x _ => entryBlocks_eq_nil

/-- Only slots are looked at if no note is made. -/
theorem slotIndices_lt_iff : (∀ e ∈ r.slotIndices, e < r.elementNum) ↔
    r.returnsEarly = true ∨ ∀ e ∈ r.entries, e.entity.kind = none := by
  have hslots : ∀ i ∈ r.entries.map HypoEntry.eNum, i < r.elementNum := by
    intro i hi
    obtain ⟨e, he, rfl⟩ := List.mem_map.mp hi
    exact r.eNum_lt e he
  unfold slotIndices
  by_cases hearly : r.returnsEarly = true
  · rw [if_pos hearly, List.append_nil]
    refine iff_of_true ?_ (.inl hearly)
    intro i hi
    rcases List.mem_append.mp hi with hi | hi
    · exact hslots i hi
    · exact List.mem_range.mp hi
  · rw [if_neg hearly, or_iff_right hearly]
    constructor
    · intro h e he
      by_contra hkind
      obtain ⟨k, hk⟩ := Option.ne_none_iff_exists'.mp hkind
      have hmem : r.leftENum ∈ r.entries.filterMap fun e => e.entity.kind.map fun _ => r.leftENum :=
        List.mem_filterMap.mpr ⟨e, he, by rw [hk]; rfl⟩
      exact lt_irrefl _ (h r.leftENum (List.mem_append_right _ (List.mem_append_left _ hmem)))
    · intro h i hi
      rcases List.mem_append.mp hi with hi | hi
      · rcases List.mem_append.mp hi with hi | hi
        · exact hslots i hi
        · exact List.mem_range.mp hi
      · rcases List.mem_append.mp hi with hi | hi
        · obtain ⟨e, he, heq⟩ := List.mem_filterMap.mp hi
          rw [h e he] at heq
          cases heq
        · exact hslots i hi

theorem forall_mem_zipIdx_fst {α : Type} {l : List α} {P : α → Prop} :
    (∀ x ∈ l.zipIdx, P x.1) ↔ ∀ a ∈ l, P a := by
  conv_rhs => rw [← List.zipIdx_map_fst 0 l]
  rw [List.forall_mem_map]

/-- **When the features are right.** -/
theorem cooccurrenceLaw_iff : r.CooccurrenceLaw beyond ↔
    r.returnsEarly = true ∨ ∀ x ∈ r.entries.zipIdx, r.Silent x.2 x.1 := by
  have hsilent : (r.returnsEarly = true ∨ ∀ x ∈ r.entries.zipIdx, r.Silent x.2 x.1) ↔
      (∀ e ∈ r.slotIndices, e < r.elementNum) ∧ r.blocks beyond = [] := by
    rw [slotIndices_lt_iff, blocks_eq_nil, ← or_and_left]
    refine or_congr_right ?_
    rw [← forall_mem_zipIdx_fst (l := r.entries) (P := fun e => e.entity.kind = none),
      ← forall₂_and]
    exact Iff.rfl
  rw [hsilent]
  constructor
  · intro h
    refine ⟨h.slots, ?_⟩
    by_contra hne
    obtain ⟨b, hb⟩ := List.exists_mem_of_ne_nil _ hne
    exact not_noteIndices_lt (noteIndices_of_mem_blocks hb ▸ h.cases b hb)
  · rintro ⟨hslots, hblocks⟩
    have hnone : ∀ {P : HypoBlock → Prop}, ∀ b ∈ r.blocks beyond, P b := by
      rw [hblocks]
      exact List.forall_mem_nil _
    exact ⟨hnone, hslots, hnone, hnone⟩

/-! ## The author in ガ, and ヲ behind the last slot -/

/-- `pp[0][0]` is ガ and `pp[1][0]` ヲ, but the case frame has one slot only. -/
def authorResult : HypoResult where
  cfType := .pred
  elementNum := 1
  pp := fun e => if e = 0 then 1 else 2
  entries := [⟨0, 0, 0, none, []⟩]
  caseResultNum := 0
  train := false
  adjFlag := false
  eNum_lt := by decide

theorem authorResult_fails : ¬authorResult.CooccurrenceLaw none := by
  intro h
  exact absurd (h.slots 1 (by decide)) (by decide)

end HypoResult

end Knp
