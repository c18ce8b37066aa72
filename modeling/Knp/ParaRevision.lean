import Knp.ParaRelation

/-!
# Revising one of two conflicting coordinations (`para_revision.c`)

When two coordinations are in the relation `REL_BAD`, `revise_para_rel` picks
one of them and `set_restrict_matrix` marks the scopes it may take instead.
The marks come from tables of their own, which should be the pre-image of the
relation tables.

> The marked scopes are compatible with the other coordination, except where
> both are strong; and all compatible scopes are marked, except where a strong
> coordination stays and the other one ended at its key.

The strong relation table differs from the normal one in the single cell
`(0, 0)`. The judge tables were written for a different strong table: between
two strong coordinations the plain table is used, which admits that cell, and
`judge_matrix_pos_str` still refuses the cell `(0, 1)`, since changed to
`REL_POS`.
-/

namespace Knp

/-- `REVISE_SPRE`, `REVISE_SPOS`, `REVISE_PRE`, `REVISE_POS`. -/
inductive Revise
  | sPre
  | sPos
  | pre
  | pos
deriving DecidableEq, Repr

def judgeMatrix : Fin 4 → Fin 4 → Nat :=
  ![![1, 1, 0, 1],
    ![1, 1, 0, 1],
    ![1, 1, 0, 0],
    ![1, 1, 0, 0]]

/-- 後が強並列 -/
def judgeMatrixPosStr : Fin 4 → Fin 4 → Nat :=
  ![![0, 0, 0, 1],
    ![1, 1, 0, 1],
    ![1, 1, 0, 0],
    ![1, 1, 0, 0]]

/-- 前が強並列 -/
def judgeMatrixPreStr : Fin 4 → Fin 4 → Nat :=
  ![![0, 1, 0, 1],
    ![0, 1, 0, 1],
    ![0, 0, 0, 0],
    ![1, 1, 0, 0]]

/-- `restrict_matrix` -/
abbrev RestrictMatrix := Nat → Nat → Nat

/-- The scopes of a coordination with its key. -/
def InRange (bnstNum keyPos start jend : Nat) : Prop :=
  start ≤ keyPos ∧ keyPos + 1 ≤ jend ∧ jend < bnstNum

instance (bnstNum keyPos start jend : Nat) : Decidable (InRange bnstNum keyPos start jend) :=
  inferInstanceAs (Decidable (_ ∧ _ ∧ _))

/-- The two nested loops over the scopes of one coordination. -/
def restrictLoop (bnstNum keyPos : Nat) (entry restrict : RestrictMatrix) : RestrictMatrix :=
  fun start jend =>
    if InRange bnstNum keyPos start jend then entry start jend else restrict start jend

/-- `set_restrict_matrix`: the entries `(start, jend)` of the revised
coordination, the earlier one `a` or the later one `b`. -/
def setRestrictMatrix (bnstNum a1 a2 a3 b1 b2 b3 : Nat) (flag : Revise)
    (restrict : RestrictMatrix) : RestrictMatrix :=
  match flag with
  | .sPre => restrictLoop bnstNum a2 (fun a1 a3 =>
      if a3 < b1 then 1
      else judgeMatrixPosStr (relPre a1 a2 b1) (relPos a3 b2 b3)) restrict
  | .pre => restrictLoop bnstNum a2 (fun a1 a3 =>
      if a3 < b1 then 1
      else judgeMatrix (relPre a1 a2 b1) (relPos a3 b2 b3)) restrict
  | .sPos => restrictLoop bnstNum b2 (fun b1 b3 =>
      if a3 < b1 then 1
      else judgeMatrixPreStr (relPre a1 a2 b1) (relPos a3 b2 b3)) restrict
  | .pos => restrictLoop bnstNum b2 (fun b1 b3 =>
      if a3 < b1 then 1
      else judgeMatrix (relPre a1 a2 b1) (relPos a3 b2 b3)) restrict

/-- The action `revise_para_rel` takes. -/
def reviseFlag (a b : ParaData) : Revise :=
  if a.status ≠ .s ∧ b.status = .s then .sPre
  else if a.status = .s ∧ b.status ≠ .s then .sPos
  else if a.maxScore ≤ b.maxScore then .pre
  else .pos

/-- The coordination an action revises. -/
def Revise.num (flag : Revise) (pre pos : Nat) : Nat :=
  match flag with
  | .sPre => pre
  | .pre => pre
  | .sPos => pos
  | .pos => pos

/-- `revise_para_rel`: the new `restrict_matrix` and `Revised_para_num`. -/
def reviseParaRel (sp : ParaSentence) (pre pos : Nat) (restrict : RestrictMatrix) :
    RestrictMatrix × Nat :=
  let a := sp.paraData pre
  let b := sp.paraData pos
  let flag := reviseFlag a b
  (setRestrictMatrix sp.bnstNum a.start a.keyPos a.jendPos b.start b.keyPos b.jendPos flag restrict,
    flag.num pre pos)

/-! ## The tables against each other -/

theorem judgeMatrix_eq_zero_iff (r c : Fin 4) :
    judgeMatrix r c = 0 ↔ relMatrixNormal r c = .bad := by
  revert r c
  decide

theorem judgeMatrix_le_one (r c : Fin 4) : judgeMatrix r c ≤ 1 := by
  revert r c
  decide

theorem judgeMatrixPosStr_eq_zero_iff (r c : Fin 4) :
    judgeMatrixPosStr r c = 0 ↔ relMatrixStrong r c = .bad ∨ (r = 0 ∧ c = 1) := by
  revert r c
  decide

/-- Where the earlier scope ends beyond the later key, the table for a strong
earlier coordination is the plain one. -/
theorem judgeMatrixPreStr_eq_zero_iff (r c : Fin 4) (hc : c = 2 ∨ c = 3) :
    judgeMatrixPreStr r c = 0 ↔ relMatrixNormal r c = .bad := by
  revert r c
  decide

theorem judgeMatrixPosStr_le_one (r c : Fin 4) : judgeMatrixPosStr r c ≤ 1 := by
  revert r c
  decide

theorem judgeMatrixPreStr_le_one (r c : Fin 4) : judgeMatrixPreStr r c ≤ 1 := by
  revert r c
  decide

/-! ## The marks and the relation -/

/-- A coordination with another scope. -/
def rescope (d : ParaData) (start jend : Nat) : ParaData := { d with start := start, jendPos := jend }

/-- The relation of the two when the revised one takes the scope `(start, jend)`. -/
def relationWith (a b : ParaData) (flag : Revise) (start jend : Nat) : ParaRel :=
  match flag with
  | .sPre | .pre => location (rescope a start jend) b
  | .sPos | .pos => location a (rescope b start jend)

/-- The record an action revises. -/
def Revise.data (flag : Revise) (a b : ParaData) : ParaData :=
  match flag with
  | .sPre | .pre => a
  | .sPos | .pos => b

/-- The normal table refuses what the relation does, except the cell `(0, 0)`
of a strong later coordination. -/
theorem normal_eq_bad_iff (a b : ParaData) :
    (b.start ≤ a.jendPos ∧
      relMatrixNormal (relPre a.start a.keyPos b.start) (relPos a.jendPos b.keyPos b.jendPos) = .bad) ↔
    location a b = .bad ∧ ¬ (b.status = .s ∧ a.keyPos + 1 < b.start ∧ a.jendPos < b.keyPos) := by
  rw [location_eq_bad_iff]
  constructor
  · rintro ⟨hle, hbad⟩
    refine ⟨⟨hle, Or.inl hbad⟩, fun h => ?_⟩
    have hcol := relPos_beyond_iff.mp (relMatrixNormal_bad_col _ _ hbad)
    omega
  · rintro ⟨⟨hle, hbad | hbad⟩, hnot⟩
    · exact ⟨hle, hbad⟩
    · exact absurd hbad hnot

section Marks

/-- The mark a revision leaves on a scope. -/
def mark (bnstNum : Nat) (a b : ParaData) (flag : Revise) (restrict : RestrictMatrix)
    (start jend : Nat) : Nat :=
  setRestrictMatrix bnstNum a.start a.keyPos a.jendPos b.start b.keyPos b.jendPos flag restrict
    start jend

variable {bnstNum : Nat} (a b : ParaData) {start jend : Nat} (restrict : RestrictMatrix)

theorem restrictLoop_of_inRange {keyPos : Nat} {entry : RestrictMatrix}
    (h : InRange bnstNum keyPos start jend) :
    restrictLoop bnstNum keyPos entry restrict start jend = entry start jend := if_pos h

theorem restrictLoop_le_one {keyPos : Nat} {entry : RestrictMatrix}
    (h : InRange bnstNum keyPos start jend) (hentry : entry start jend ≤ 1) :
    restrictLoop bnstNum keyPos entry restrict start jend ≤ 1 :=
  (restrictLoop_of_inRange restrict h).trans_le hentry

theorem ite_le_one {c : Prop} [Decidable c] {n : Nat} (h : n ≤ 1) : (if c then 1 else n) ≤ 1 := by
  split
  · exact le_rfl
  · exact h

theorem mark_le_one (flag : Revise) (h : InRange bnstNum (flag.data a b).keyPos start jend) :
    mark bnstNum a b flag restrict start jend ≤ 1 := by
  cases flag with
  | sPre =>
      apply restrictLoop_le_one restrict h
      exact ite_le_one (judgeMatrixPosStr_le_one _ _)
  | sPos =>
      apply restrictLoop_le_one restrict h
      exact ite_le_one (judgeMatrixPreStr_le_one _ _)
  | pre =>
      apply restrictLoop_le_one restrict h
      exact ite_le_one (judgeMatrix_le_one _ _)
  | pos =>
      apply restrictLoop_le_one restrict h
      exact ite_le_one (judgeMatrix_le_one _ _)

/-- The plain table refuses what the relation does, except the cell `(0, 0)`
of a strong later coordination. -/
theorem mark_pre_eq_zero_iff (h : InRange bnstNum a.keyPos start jend) :
    mark bnstNum a b .pre restrict start jend = 0 ↔
      relationWith a b .pre start jend = .bad ∧
        ¬ (b.status = .s ∧ a.keyPos + 1 < b.start ∧ jend < b.keyPos) := by
  refine Iff.trans ?_ (normal_eq_bad_iff (rescope a start jend) b)
  rw [mark, setRestrictMatrix, restrictLoop_of_inRange restrict h]
  by_cases hnot : jend < b.start
  · simp [hnot, rescope]
  · simp [hnot, rescope, judgeMatrix_eq_zero_iff, not_lt.mp hnot]

theorem mark_pos_eq_zero_iff (h : InRange bnstNum b.keyPos start jend) :
    mark bnstNum a b .pos restrict start jend = 0 ↔
      relationWith a b .pos start jend = .bad ∧
        ¬ (b.status = .s ∧ a.keyPos + 1 < start ∧ a.jendPos < b.keyPos) := by
  refine Iff.trans ?_ (normal_eq_bad_iff a (rescope b start jend))
  rw [mark, setRestrictMatrix, restrictLoop_of_inRange restrict h]
  by_cases hnot : a.jendPos < start
  · simp [hnot, rescope]
  · simp [hnot, rescope, judgeMatrix_eq_zero_iff, not_lt.mp hnot]

/-- The table for a strong later coordination refuses the cell `(0, 1)` too. -/
theorem mark_sPre_eq_zero_iff (h : InRange bnstNum a.keyPos start jend) (hs : b.status = .s) :
    mark bnstNum a b .sPre restrict start jend = 0 ↔
      relationWith a b .sPre start jend = .bad ∨
        (b.start ≤ jend ∧ a.keyPos + 1 < b.start ∧ jend = b.keyPos) := by
  rw [relationWith, mark, setRestrictMatrix, restrictLoop_of_inRange restrict h]
  by_cases hnot : jend < b.start
  · simp [hnot, location, rescope, not_le.mpr hnot]
  · simp [hnot, judgeMatrixPosStr_eq_zero_iff, location, rescope, hs, relPre_eq_zero_iff,
      relPos_eq_one_iff, not_lt.mp hnot]

/-- Against a strong earlier coordination that ends beyond the key, the special
table is the plain one. -/
theorem mark_sPos_eq_zero_iff (h : InRange bnstNum b.keyPos start jend) (hs : b.status ≠ .s)
    (ha : b.keyPos < a.jendPos) :
    mark bnstNum a b .sPos restrict start jend = 0 ↔ relationWith a b .sPos start jend = .bad := by
  rw [relationWith, mark, setRestrictMatrix, restrictLoop_of_inRange restrict h]
  by_cases hnot : a.jendPos < start
  · simp [hnot, location, rescope]
  · simp [hnot, location, rescope, hs, judgeMatrixPreStr_eq_zero_iff _ _ (relPos_beyond_iff.mpr ha)]

end Marks

/-! ## The action taken -/

theorem reviseFlag_cases (a b : ParaData) :
    (reviseFlag a b = .sPre ∧ a.status ≠ .s ∧ b.status = .s) ∨
    (reviseFlag a b = .sPos ∧ a.status = .s ∧ b.status ≠ .s) ∨
    (reviseFlag a b = .pre ∧ (a.status = .s ↔ b.status = .s) ∧ a.maxScore ≤ b.maxScore) ∨
    (reviseFlag a b = .pos ∧ (a.status = .s ↔ b.status = .s) ∧ ¬ a.maxScore ≤ b.maxScore) := by
  unfold reviseFlag
  by_cases ha : a.status = .s
  · by_cases hb : b.status = .s
    · by_cases hscore : a.maxScore ≤ b.maxScore
      · simp [ha, hb, hscore]
      · simp [ha, hb, hscore]
    · simp [ha, hb]
  · by_cases hb : b.status = .s
    · simp [ha, hb]
    · by_cases hscore : a.maxScore ≤ b.maxScore
      · simp [ha, hb, hscore]
      · simp [ha, hb, hscore]

/-- The flag `revise_para_rel` passes on. -/
def ParaSentence.flag (sp : ParaSentence) (pre pos : Nat) : Revise :=
  reviseFlag (sp.paraData pre) (sp.paraData pos)

/-- The revised coordination is the one whose record the loops run over. -/
theorem paraData_revised (sp : ParaSentence) (pre pos : Nat) (restrict : RestrictMatrix) :
    sp.paraData (reviseParaRel sp pre pos restrict).2 =
      (sp.flag pre pos).data (sp.paraData pre) (sp.paraData pos) := by
  simp only [reviseParaRel, ParaSentence.flag]
  cases reviseFlag (sp.paraData pre) (sp.paraData pos) <;> rfl

/-- The relation of the pair when the revised coordination takes `(start, jend)`. -/
def ParaSentence.revisedRel (sp : ParaSentence) (pre pos start jend : Nat) : ParaRel :=
  relationWith (sp.paraData pre) (sp.paraData pos) (sp.flag pre pos) start jend

/-- The marks admit compatible scopes only, and not the one in conflict. -/
structure SoundRevision (sp : ParaSentence) (pre pos : Nat) (restrict : RestrictMatrix) : Prop where
  admitted : ∀ start jend,
    InRange sp.bnstNum (sp.paraData (reviseParaRel sp pre pos restrict).2).keyPos start jend →
    (reviseParaRel sp pre pos restrict).1 start jend = 1 →
    sp.revisedRel pre pos start jend ≠ .bad
  conflict : (reviseParaRel sp pre pos restrict).1
    (sp.paraData (reviseParaRel sp pre pos restrict).2).start
    (sp.paraData (reviseParaRel sp pre pos restrict).2).jendPos = 0

/-- The marks forbid incompatible scopes only. -/
def CompleteRevision (sp : ParaSentence) (pre pos : Nat) (restrict : RestrictMatrix) : Prop :=
  ∀ start jend,
    InRange sp.bnstNum (sp.paraData (reviseParaRel sp pre pos restrict).2).keyPos start jend →
    (reviseParaRel sp pre pos restrict).1 start jend = 0 →
    sp.revisedRel pre pos start jend = .bad

/-- Two strong coordinations, and a scope of the revised one in the cell
`(0, 0)`: it overlaps the other's pre-conjunct without touching either key. -/
def StrongConflict (a b : ParaData) : Prop :=
  a.status = .s ∧ b.status = .s ∧
    ((a.maxScore ≤ b.maxScore ∧ a.keyPos + 1 < b.start ∧ b.start < b.keyPos) ∨
      (b.maxScore < a.maxScore ∧ a.keyPos + 1 < a.jendPos ∧ a.jendPos < b.keyPos))

/-- A strong coordination starting beyond the next bunsetsu after the key of a
weak one, which is revised. -/
def StrongDrift (a b : ParaData) : Prop :=
  a.status ≠ .s ∧ b.status = .s ∧ a.keyPos + 1 < b.start

section Claims

variable {sp : ParaSentence} {pre pos : Nat}

/-- A normal later coordination in conflict has its key before the earlier one's end. -/
theorem key_lt_of_bad {a b : ParaData} (hbad : location a b = .bad) (hs : b.status ≠ .s) :
    b.keyPos < a.jendPos := by
  obtain ⟨-, hbad | hbad⟩ := (location_eq_bad_iff a b).mp hbad
  · exact relPos_beyond_iff.mp (relMatrixNormal_bad_col _ _ hbad)
  · exact absurd hbad.1 hs

theorem inRange_own (num : Nat) (h : num < sp.paraNum) (hlive : (sp.paraData num).status ≠ .x) :
    InRange sp.bnstNum (sp.paraData num).keyPos (sp.paraData num).start (sp.paraData num).jendPos :=
  ⟨sp.start_le num h hlive, sp.key_lt_jend num h hlive, sp.jend_lt num h hlive⟩

/-- Two coordinations of a sentence in conflict. -/
structure Conflict (sp : ParaSentence) (pre pos : Nat) : Prop where
  lt : pre < pos
  pos_lt : pos < sp.paraNum
  pre_live : (sp.paraData pre).status ≠ .x
  pos_live : (sp.paraData pos).status ≠ .x
  bad : paraLocation sp pre pos = .bad

/-- The marks of an action admit compatible scopes only, and not the one in conflict. -/
structure SoundAction (bnstNum : Nat) (a b : ParaData) (flag : Revise) (restrict : RestrictMatrix) :
    Prop where
  admitted : ∀ start jend, InRange bnstNum (flag.data a b).keyPos start jend →
    mark bnstNum a b flag restrict start jend = 1 → relationWith a b flag start jend ≠ .bad
  conflict : mark bnstNum a b flag restrict (flag.data a b).start (flag.data a b).jendPos = 0

/-- Whether a revision is sound depends on the two records and the action taken. -/
theorem soundRevision_flag {flag : Revise} (hflag : sp.flag pre pos = flag)
    (restrict : RestrictMatrix) : SoundRevision sp pre pos restrict ↔
      SoundAction sp.bnstNum (sp.paraData pre) (sp.paraData pos) flag restrict := by
  subst hflag
  constructor
  · rintro ⟨hadm, hconf⟩
    rw [paraData_revised] at hadm hconf
    exact ⟨hadm, hconf⟩
  · rintro ⟨hadm, hconf⟩
    rw [← paraData_revised sp pre pos restrict] at hadm hconf
    exact ⟨hadm, hconf⟩

theorem completeRevision_flag {flag : Revise} (hflag : sp.flag pre pos = flag)
    (restrict : RestrictMatrix) :
    CompleteRevision sp pre pos restrict ↔ ∀ start jend,
      InRange sp.bnstNum (flag.data (sp.paraData pre) (sp.paraData pos)).keyPos start jend →
      mark sp.bnstNum (sp.paraData pre) (sp.paraData pos) flag restrict start jend = 0 →
      relationWith (sp.paraData pre) (sp.paraData pos) flag start jend = .bad := by
  subst hflag
  rw [← paraData_revised sp pre pos restrict]
  exact Iff.rfl

section Actions

variable {bnstNum : Nat} {a b : ParaData} {flag : Revise} {restrict : RestrictMatrix}

/-- It is enough that every incompatible scope is refused. -/
theorem SoundAction.of_refused
    (hown : InRange bnstNum (flag.data a b).keyPos (flag.data a b).start (flag.data a b).jendPos)
    (hbad : relationWith a b flag (flag.data a b).start (flag.data a b).jendPos = .bad)
    (h : ∀ start jend, InRange bnstNum (flag.data a b).keyPos start jend →
      relationWith a b flag start jend = .bad →
      mark bnstNum a b flag restrict start jend = 0) : SoundAction bnstNum a b flag restrict := by
  refine ⟨fun start jend hr hmark hrel => ?_, h _ _ hown hbad⟩
  rw [h start jend hr hrel] at hmark
  cases hmark

theorem soundAction_pre_iff (ha : InRange bnstNum a.keyPos a.start a.jendPos)
    (hb : InRange bnstNum b.keyPos b.start b.jendPos) (hbad : location a b = .bad) :
    SoundAction bnstNum a b .pre restrict ↔
      ¬(b.status = .s ∧ a.keyPos + 1 < b.start ∧ b.start < b.keyPos) := by
  constructor
  · rintro ⟨hadm, -⟩ ⟨hs, hgap, hin⟩
    -- the revised scope may end at the start of the later one
    have hr : InRange bnstNum a.keyPos a.start b.start := by
      obtain ⟨_, _, _⟩ := hb
      exact ⟨ha.1, by omega, by omega⟩
    have hrel : relationWith a b .pre a.start b.start = .bad :=
      (location_eq_bad_iff _ _).mpr ⟨le_rfl, Or.inr ⟨hs, hgap, hin⟩⟩
    have hle := mark_le_one a b restrict .pre hr
    have hne : mark bnstNum a b .pre restrict a.start b.start ≠ 0 := fun h0 =>
      ((mark_pre_eq_zero_iff a b restrict hr).mp h0).2 ⟨hs, hgap, hin⟩
    exact hadm _ _ hr (by omega) hrel
  · intro hconf
    refine .of_refused ha hbad fun start jend hr hrel => ?_
    have hle : b.start ≤ jend := ((location_eq_bad_iff _ _).mp hrel).1
    exact (mark_pre_eq_zero_iff a b restrict hr).mpr
      ⟨hrel, fun hc => hconf ⟨hc.1, hc.2.1, hle.trans_lt hc.2.2⟩⟩

theorem soundAction_pos_iff (hkeys : a.keyPos < b.keyPos)
    (hb : InRange bnstNum b.keyPos b.start b.jendPos) (hbad : location a b = .bad) :
    SoundAction bnstNum a b .pos restrict ↔
      ¬(b.status = .s ∧ a.keyPos + 1 < a.jendPos ∧ a.jendPos < b.keyPos) := by
  constructor
  · rintro ⟨hadm, -⟩ ⟨hs, hgap, hin⟩
    -- the revised scope may start two bunsetsu after the earlier key
    have hr : InRange bnstNum b.keyPos (a.keyPos + 2) b.jendPos := ⟨by omega, hb.2⟩
    have hrel : relationWith a b .pos (a.keyPos + 2) b.jendPos = .bad :=
      (location_eq_bad_iff _ _).mpr ⟨hgap, Or.inr ⟨hs, Nat.lt_succ_self _, hin⟩⟩
    have hle := mark_le_one a b restrict .pos hr
    have hne : mark bnstNum a b .pos restrict (a.keyPos + 2) b.jendPos ≠ 0 := fun h0 =>
      ((mark_pos_eq_zero_iff a b restrict hr).mp h0).2 ⟨hs, Nat.lt_succ_self _, hin⟩
    exact hadm _ _ hr (by omega) hrel
  · intro hconf
    refine .of_refused hb hbad fun start jend hr hrel => ?_
    have hle : start ≤ a.jendPos := ((location_eq_bad_iff _ _).mp hrel).1
    exact (mark_pos_eq_zero_iff a b restrict hr).mpr
      ⟨hrel, fun hc => hconf ⟨hc.1, hc.2.1.trans_le hle, hc.2.2⟩⟩

end Actions

/-- **Soundness.** The marks admit compatible scopes only, exactly when no two
strong coordinations conflict with a scope in the cell `(0, 0)` left. -/
theorem soundRevision_iff (h : Conflict sp pre pos) (restrict : RestrictMatrix) :
    SoundRevision sp pre pos restrict ↔
      ¬ StrongConflict (sp.paraData pre) (sp.paraData pos) := by
  have hpreRange := inRange_own pre (h.lt.trans h.pos_lt) h.pre_live
  have hposRange := inRange_own pos h.pos_lt h.pos_live
  have hkeys := sp.key_lt pre pos h.lt h.pos_lt
  have hbad : location (sp.paraData pre) (sp.paraData pos) = .bad := h.bad
  rcases reviseFlag_cases (sp.paraData pre) (sp.paraData pos) with
    ⟨hflag, ha, hb⟩ | ⟨hflag, ha, hb⟩ | ⟨hflag, hs, hscore⟩ | ⟨hflag, hs, hscore⟩
  · rw [soundRevision_flag hflag]
    refine iff_of_true (.of_refused hpreRange hbad fun start jend hr hrel => ?_) fun hc => ha hc.1
    exact (mark_sPre_eq_zero_iff _ _ restrict hr hb).mpr (Or.inl hrel)
  · rw [soundRevision_flag hflag]
    refine iff_of_true (.of_refused hposRange hbad fun start jend hr hrel => ?_) fun hc => hb hc.2.1
    exact (mark_sPos_eq_zero_iff _ _ restrict hr hb (key_lt_of_bad hbad hb)).mpr hrel
  · rw [soundRevision_flag hflag, soundAction_pre_iff hpreRange hposRange hbad]
    refine not_congr ⟨fun hc => ⟨hs.mpr hc.1, hc.1, Or.inl ⟨hscore, hc.2⟩⟩, ?_⟩
    rintro ⟨-, hb, ⟨-, hcell⟩ | ⟨hlt, -⟩⟩
    · exact ⟨hb, hcell⟩
    · exact absurd hscore (Rat.not_le.mpr hlt)
  · rw [soundRevision_flag hflag, soundAction_pos_iff hkeys hposRange hbad]
    refine not_congr ⟨fun hc => ⟨hs.mpr hc.1, hc.1, Or.inr ⟨Rat.not_le.mp hscore, hc.2⟩⟩, ?_⟩
    rintro ⟨-, hb, ⟨hle, -⟩ | ⟨-, hcell⟩⟩
    · exact absurd hle hscore
    · exact ⟨hb, hcell⟩

/-- **Completeness.** The marks forbid incompatible scopes only, exactly when no
strong later coordination starts beyond the bunsetsu after the key of a weak one. -/
theorem completeRevision_iff (h : Conflict sp pre pos) (restrict : RestrictMatrix) :
    CompleteRevision sp pre pos restrict ↔ ¬ StrongDrift (sp.paraData pre) (sp.paraData pos) := by
  have hposRange := inRange_own pos h.pos_lt h.pos_live
  have hkeys := sp.key_lt pre pos h.lt h.pos_lt
  have hbad : location (sp.paraData pre) (sp.paraData pos) = .bad := h.bad
  rcases reviseFlag_cases (sp.paraData pre) (sp.paraData pos) with
    ⟨hflag, ha, hb⟩ | ⟨hflag, ha, hb⟩ | ⟨hflag, hs, -⟩ | ⟨hflag, hs, -⟩
  · rw [completeRevision_flag hflag]
    constructor
    · rintro hcomp ⟨-, -, hgap⟩
      -- the earlier scope may end at the later key, which is `REL_POS`
      have hr : InRange sp.bnstNum (sp.paraData pre).keyPos (sp.paraData pre).start
          (sp.paraData pos).keyPos :=
        ⟨sp.start_le pre (h.lt.trans h.pos_lt) h.pre_live, hkeys,
          hposRange.2.1.trans hposRange.2.2.le⟩
      have hmark := (mark_sPre_eq_zero_iff _ _ restrict hr hb).mpr
        (Or.inr ⟨hposRange.1, hgap, rfl⟩)
      have hrel := hcomp _ _ hr hmark
      obtain ⟨-, hnormal | ⟨-, -, hlt⟩⟩ := (location_eq_bad_iff _ _).mp hrel
      · have := relPos_beyond_iff.mp (relMatrixNormal_bad_col _ _ hnormal)
        exact lt_irrefl _ this
      · exact lt_irrefl _ hlt
    · intro hdrift start jend hr hmark
      rcases (mark_sPre_eq_zero_iff _ _ restrict hr hb).mp hmark with hrel | ⟨-, hgap, -⟩
      · exact hrel
      · exact absurd ⟨ha, hb, hgap⟩ hdrift
  · rw [completeRevision_flag hflag]
    refine iff_of_true (fun start jend hr hmark => ?_) fun hd => hd.1 ha
    exact (mark_sPos_eq_zero_iff _ _ restrict hr hb (key_lt_of_bad hbad hb)).mp hmark
  · rw [completeRevision_flag hflag]
    refine iff_of_true (fun start jend hr hmark => ?_) fun hd => hd.1 (hs.mpr hd.2.1)
    exact ((mark_pre_eq_zero_iff _ _ restrict hr).mp hmark).1
  · rw [completeRevision_flag hflag]
    refine iff_of_true (fun start jend hr hmark => ?_) fun hd => hd.1 (hs.mpr hd.2.1)
    exact ((mark_pos_eq_zero_iff _ _ restrict hr).mp hmark).1

end Claims

/-- Two coordinations over five bunsetsu, the earlier one with the given status. -/
def conflictPair (status : ParaStatus) : ParaSentence :=
  .ofList 5 [⟨0, 0, 2, 5, status⟩, ⟨2, 3, 4, 5, .s⟩] (by simp) (by simp)

theorem conflictPair_conflict (status : ParaStatus) (h : status ≠ .x) :
    Conflict (conflictPair status) 0 1 where
  lt := Nat.one_pos
  pos_lt := Nat.one_lt_two
  pre_live := h
  pos_live := show ParaStatus.s ≠ .x by decide
  bad := by cases status <;> decide

/-- Both strong: the scope in conflict is itself admitted again. -/
theorem conflictPair_unsound :
    paraLocation (conflictPair .s) 0 1 = .bad ∧
      (reviseParaRel (conflictPair .s) 0 1 fun _ _ => 1).2 = 0 ∧
      (reviseParaRel (conflictPair .s) 0 1 fun _ _ => 1).1 0 2 = 1 ∧
      ¬ SoundRevision (conflictPair .s) 0 1 fun _ _ => 1 := by
  refine ⟨by decide, by decide, by decide, fun h => ?_⟩
  exact absurd h.conflict (by decide)

/-- Only the later one strong: the earlier one could end at the later key. -/
theorem conflictPair_incomplete :
    (reviseParaRel (conflictPair .n) 0 1 fun _ _ => 1).2 = 0 ∧
      (reviseParaRel (conflictPair .n) 0 1 fun _ _ => 1).1 0 3 = 0 ∧
      (conflictPair .n).revisedRel 0 1 0 3 = .pos ∧
      ¬ CompleteRevision (conflictPair .n) 0 1 fun _ _ => 1 := by
  refine ⟨by decide, by decide, by decide, fun h => ?_⟩
  exact absurd (h 0 3 (by decide) (by decide)) (by decide)

/-- A conflict of two weak coordinations, revised soundly and completely. -/
def weakPair : ParaSentence :=
  .ofList 5 [⟨0, 0, 3, 5, .n⟩, ⟨1, 2, 4, 5, .n⟩] (by simp) (by simp)

theorem weakPair_conflict : Conflict weakPair 0 1 where
  lt := Nat.one_pos
  pos_lt := Nat.one_lt_two
  pre_live := by decide
  pos_live := by decide
  bad := by decide

theorem weakPair_sound :
    Conflict weakPair 0 1 ∧ (SoundRevision weakPair 0 1 (fun _ _ => 1) ↔
      ¬ StrongConflict (weakPair.paraData 0) (weakPair.paraData 1)) :=
  ⟨weakPair_conflict, soundRevision_iff weakPair_conflict _⟩

theorem weakPair_complete :
    Conflict weakPair 0 1 ∧ (CompleteRevision weakPair 0 1 (fun _ _ => 1) ↔
      ¬ StrongDrift (weakPair.paraData 0) (weakPair.paraData 1)) :=
  ⟨weakPair_conflict, completeRevision_iff weakPair_conflict _⟩

end Knp
