import Knp.ParaEnds
import Knp.ParaRetry

/-!
# The indices into `norm`

Scores are divided by an entry of the table `norm`, by the length of the scope.
The table has 50 entries; a sentence may have `BNST_MAX` bunsetsu.

> The indices are inside the table if and only if no scope that is looked at has
> 50 bunsetsu. Every row down to the first bunsetsu is looked at, so that an end
> beyond the first 49 bunsetsu is enough to leave the table.

`para_recovery` uses the table as well, for the scopes of an input that has been
parsed.
-/

namespace Knp

/-- An index of `norm`. -/
def InNorm (k : Int) : Prop := 0 ≤ k ∧ k < norm.length

instance (k : Int) : Decidable (InNorm k) := inferInstanceAs (Decidable (_ ∧ _))

section Reads

variable {F : Type*} [LinearOrder F] {t : ParaText} {ar : ScoreArith F} {beyond : Int → Rat}
  {key : ScopeKey F} {dp : DpState} {restrict : RestrictMatrix} {jendPos : Nat}

/-! ## The loop over the rows -/

/-- The entry for row `i` is read: not for the mark of a start in Chinese, unless
the row is recorded. -/
def ReadsRow (t : ParaText) (key : ScopeKey F) (restrict : RestrictMatrix) (jendPos i : Nat) :
    Prop :=
  chineseStart t key i = false ∨ restrict i jendPos ≠ 0

omit [LinearOrder F] in
theorem calcStartingBonusScore_of_chineseStart {i : Nat} (h : chineseStart t key i = true) :
    calcStartingBonusScore t i key.type = BONUS := by
  unfold chineseStart at h
  simp only [Bool.and_eq_true, decide_eq_true_eq] at h
  have hne := h.2
  unfold calcStartingBonusScore at hne ⊢
  cases hkey : key.type <;> simp_all

theorem rowStep_reads (i : Nat) (row : RowState F) (k : Int) :
    k ∈ (rowStep t ar beyond key dp restrict jendPos i row).reads ↔
      k = (jendPos : Int) - i + 1 ∧ ReadsRow t key restrict jendPos i ∨ k ∈ row.reads := by
  unfold rowStep ReadsRow
  dsimp only
  cases hch : chineseStart t key i with
  | false => split <;> simp
  | true =>
      -- the bonus makes the row the best so far
      have hlt : row.maxScore < currentScore t ar beyond key dp jendPos i row.maxScore := by
        unfold currentScore
        rw [if_pos hch, calcStartingBonusScore_of_chineseStart hch]
        exact ar.lt_add row.maxScore
      by_cases hr : restrict i jendPos = 0
      · rw [if_neg fun h => h.1 hr]
        simp [hr]
      · rw [if_pos ⟨hr, hlt⟩]
        simp [hr]

theorem selectRow_reads (k : Int) :
    k ∈ (selectRow t ar beyond key dp restrict jendPos).reads ↔
      ∃ i ≤ key.iendPos, k = (jendPos : Int) - i + 1 ∧ ReadsRow t key restrict jendPos i := by
  have hloop := Loop.down_induction (rowStep t ar beyond key dp restrict jendPos)
    (fun lo (row : RowState F) => k ∈ row.reads ↔ ∃ i, lo ≤ i ∧ i ≤ key.iendPos ∧
      k = (jendPos : Int) - i + 1 ∧ ReadsRow t key restrict jendPos i)
    (Nat.zero_le (key.iendPos + 1)) (s := ⟨ar.ofRat ENOUGH_MINUS, ar.ofRat 0, -1, []⟩)
    (fun i row _ hi hrow => ?_) ?_
  · simpa [selectRow] using hloop
  · rw [rowStep_reads, hrow]
    constructor
    · rintro (⟨hk, hread⟩ | ⟨i', hlo, hrest⟩)
      · exact ⟨i, Nat.le_refl i, Nat.lt_succ_iff.mp hi, hk, hread⟩
      · exact ⟨i', Nat.le_of_succ_le hlo, hrest⟩
    · rintro ⟨i', hlo, hle, hk, hread⟩
      rcases Nat.lt_or_eq_of_le hlo with hlt | rfl
      · exact .inr ⟨i', hlt, hle, hk, hread⟩
      · exact .inl ⟨hk, hread⟩
  · simp only [List.not_mem_nil, false_iff]
    rintro ⟨i, hlo, hle, -⟩
    omega

/-! ## The loop over the ends -/

theorem detectParaScopeAt_reads (penaltyTable : Nat → Int) (j : Nat) (s : DetectState F) (k : Int) :
    k ∈ (detectParaScopeAt t ar beyond key penaltyTable restrict j s).reads ↔
      k ∈ s.reads ∨ admitted t ar key restrict j ≠ none ∧
        ∃ i ≤ key.iendPos, k = (j : Int) - i + 1 ∧ ReadsRow t key restrict j i := by
  unfold detectParaScopeAt
  cases admitted t ar key restrict j with
  | none => simp
  | some th =>
      dsimp only
      rw [List.mem_append, selectRow_reads]
      simp [or_comm]

theorem detectEnds_reads : ∀ (ends : List Nat) (s : DetectState F) (k : Int),
    k ∈ (detectEnds t ar beyond key restrict ends s).reads ↔
      k ∈ s.reads ∨ ∃ j ∈ ends, admitted t ar key restrict j ≠ none ∧
        ∃ i ≤ key.iendPos, k = (j : Int) - i + 1 ∧ ReadsRow t key restrict j i
  | [], s, k => by simp [detectEnds]
  | j :: ends, s, k => by
      have ih := detectEnds_reads ends
        (detectParaScopeAt t ar beyond key (penaltyTableOf t key.keyPos) restrict j s) k
      unfold detectEnds at ih ⊢
      rw [List.foldl_cons, ih, detectParaScopeAt_reads, or_assoc]
      simp only [List.exists_mem_cons_iff]

theorem detectParaScope_reads (restrictP : Bool) (s : DetectState F) (k : Int) :
    k ∈ (detectParaScope t ar beyond key restrictP restrict s).2.reads ↔
      k ∈ s.reads ∨ ∃ j ∈ scopeEnds t key,
        admitted t ar key (maskQuoteScope t key.keyPos (initRestrict t restrictP restrict)) j ≠
          none ∧
        ∃ i ≤ key.iendPos, k = (j : Int) - i + 1 ∧
          ReadsRow t key (maskQuoteScope t key.keyPos (initRestrict t restrictP restrict)) j i := by
  unfold detectParaScope
  dsimp only
  rw [detectEnds_reads]

end Reads

/-! ## The scopes of a parsed input (`para_recovery`) -/

/-- The heads of a sentence, with their types. -/
structure HeadsOf where
  dpndHead : Nat → Int
  dpndType : Nat → Char

/-- A coordination that is recovered; the score only for a parsed input. -/
structure Recovered (F : Type*) where
  keyPos : Nat
  jendPos : Int
  iendPos : Nat
  /-- `max_path[0]` -/
  start : Nat
  status : ParaStatus
  type : Option ParaKey
  maxScore : Option F

structure RecoverState (F : Type*) where
  data : List (Recovered F)
  dp : DpState
  reads : List Int

/-- The bunsetsu behind the last one, before `j`, that does not depend on what lies
before bunsetsu `i`, nor on `i` itself outside a coordination. -/
def recoverStart (h : HeadsOf) (i : Nat) : Nat → Nat
  | 0 => 0
  | j + 1 =>
      if h.dpndHead j < i ∨ h.dpndHead j = i ∧ h.dpndType j ≠ 'P' then recoverStart h i j
      else j + 1

def recoverType (t : ParaText) (i : Nat) : ParaKey :=
  match t.feature i "並キ" with
  | none => .o
  | some cp =>
      let rest := (cp.drop "並キ:".length).toString
      if rest.startsWith "名" then .n else if rest.startsWith "述" then .p else .a

section Recover

variable {F : Type*} [LinearOrder F] (t : ParaText) (ar : ScoreArith F) (beyond : Int → Rat)
  (penaltyTable : Nat → Int) (h : HeadsOf)

/-- The length of the scope that is recovered at `i`. -/
def recoverLength (i : Nat) : Int := h.dpndHead i - recoverStart h i i + 1

def recoverOne (i : Nat) (s : RecoverState F) : RecoverState F :=
  let start := recoverStart h i i
  let jendPos := h.dpndHead i
  if t.optInputParsed then
    let type := recoverType t i
    let dp := dpSearchScope t penaltyTable i i jendPos.toNat s.dp
    let k := recoverLength h i
    let maxScore := ar.add (ar.add (ar.div (dp.score start (i + 1)) (normAt beyond k))
      (calcStartingBonusScore t start type)) (calcEndingBonusScore t i jendPos.toNat type)
    { data := s.data ++ [⟨i, jendPos, i, start, .n, some type, some maxScore⟩]
      dp := dp
      reads := k :: s.reads }
  else { s with data := s.data ++ [⟨i, jendPos, i, start, .n, none, none⟩] }

/-- The loop of `para_recovery`; it ends when there are too many coordinations. -/
def recoverLoop : List Nat → RecoverState F → RecoverState F
  | [], s => s
  | i :: l, s =>
      if h.dpndType i = 'P' then
        if PARA_MAX ≤ s.data.length then s
        else recoverLoop l (recoverOne t ar beyond penaltyTable h i s)
      else recoverLoop l s

/-- `para_recovery`, up to `detect_para_relation`. -/
def paraRecovery (optParaFix : Bool) (s : RecoverState F) : RecoverState F :=
  if optParaFix then s
  else recoverLoop t ar beyond penaltyTable h (List.range t.bnstNum) { s with data := [] }

variable {t ar beyond penaltyTable h}

theorem recoverOne_length (i : Nat) (s : RecoverState F) :
    (recoverOne t ar beyond penaltyTable h i s).data.length = s.data.length + 1 := by
  unfold recoverOne
  dsimp only
  split <;> simp

theorem recoverOne_reads (i : Nat) (s : RecoverState F) (k : Int) :
    k ∈ (recoverOne t ar beyond penaltyTable h i s).reads ↔
      k ∈ s.reads ∨ t.optInputParsed = true ∧ k = recoverLength h i := by
  unfold recoverOne
  dsimp only
  split
  · rename_i hp
    simp [hp, or_comm]
  · rename_i hp
    simp [hp]

theorem recoverLoop_reads : ∀ (l : List Nat) (s : RecoverState F) (k : Int),
    k ∈ (recoverLoop t ar beyond penaltyTable h l s).reads ↔
      k ∈ s.reads ∨ t.optInputParsed = true ∧
        ∃ i ∈ (l.filter fun i => h.dpndType i = 'P').take (PARA_MAX - s.data.length),
          k = recoverLength h i
  | [], s, k => by simp [recoverLoop]
  | i :: l, s, k => by
      rw [recoverLoop]
      by_cases hP : h.dpndType i = 'P'
      · rw [if_pos hP, List.filter_cons_of_pos (by simpa using hP)]
        by_cases hfull : PARA_MAX ≤ s.data.length
        · rw [if_pos hfull, Nat.sub_eq_zero_of_le hfull]
          simp
        · obtain ⟨m, hm⟩ : ∃ m, PARA_MAX - s.data.length = m + 1 :=
            ⟨PARA_MAX - s.data.length - 1, by omega⟩
          rw [if_neg hfull, recoverLoop_reads l, recoverOne_reads, recoverOne_length, hm,
            List.take_succ_cons, show PARA_MAX - (s.data.length + 1) = m by omega, or_assoc]
          simp only [List.exists_mem_cons_iff]
          rw [← and_or_left]
      · rw [if_neg hP, List.filter_cons_of_neg (by simpa using hP)]
        exact recoverLoop_reads l s k

/-- The bunsetsu at which coordinations are recovered. -/
def recovered (t : ParaText) (h : HeadsOf) : List Nat :=
  ((List.range t.bnstNum).filter fun i => h.dpndType i = 'P').take PARA_MAX

theorem paraRecovery_reads (optParaFix : Bool) (s : RecoverState F) (k : Int) :
    k ∈ (paraRecovery t ar beyond penaltyTable h optParaFix s).reads ↔
      k ∈ s.reads ∨ (optParaFix = false ∧ t.optInputParsed = true) ∧
        ∃ i ∈ recovered t h, k = recoverLength h i := by
  unfold paraRecovery
  cases optParaFix with
  | true => simp
  | false =>
      rw [if_neg (by simp), recoverLoop_reads]
      simp [recovered]

end Recover

/-! ## The table -/

/-- **The table of norms.** The indices are inside the table, for a key, if and
only if they are for all rows of all ends that are not given up; and for the
recovery, if and only if the lengths of the scopes are. -/
theorem norm_reads_iff {F : Type*} [LinearOrder F] (t : ParaText) (ar : ScoreArith F)
    (beyond : Int → Rat) :
    (∀ (key : ScopeKey F) (restrictP : Bool) (restrict : RestrictMatrix) (s : DetectState F),
      (∀ k ∈ (detectParaScope t ar beyond key restrictP restrict { s with reads := [] }).2.reads,
        InNorm k) ↔
      ∀ j ∈ scopeEnds t key,
        admitted t ar key (maskQuoteScope t key.keyPos (initRestrict t restrictP restrict)) j ≠
          none →
        ∀ i ≤ key.iendPos,
          ReadsRow t key (maskQuoteScope t key.keyPos (initRestrict t restrictP restrict)) j i →
            InNorm ((j : Int) - i + 1)) ∧
    ∀ (penaltyTable : Nat → Int) (h : HeadsOf) (optParaFix : Bool) (s : RecoverState F),
      (∀ k ∈ (paraRecovery t ar beyond penaltyTable h optParaFix { s with reads := [] }).reads,
        InNorm k) ↔
      (optParaFix = false → t.optInputParsed = true →
        ∀ i ∈ recovered t h, InNorm (recoverLength h i)) := by
  constructor
  · intro key restrictP restrict s
    simp only [detectParaScope_reads, List.not_mem_nil, false_or]
    constructor
    · exact fun hall j hj hadm i hi hread => hall _ ⟨j, hj, hadm, i, hi, rfl, hread⟩
    · rintro hall k ⟨j, hj, hadm, i, hi, rfl, hread⟩
      exact hall j hj hadm i hi hread
  · intro penaltyTable h optParaFix s
    simp only [paraRecovery_reads, List.not_mem_nil, false_or]
    constructor
    · exact fun hall hfix hparsed i hi => hall _ ⟨⟨hfix, hparsed⟩, i, hi, rfl⟩
    · rintro hall k ⟨⟨hfix, hparsed⟩, i, hi, rfl⟩
      exact hall hfix hparsed i hi

theorem inNorm_rows_iff {iendPos j : Nat} (h : iendPos ≤ j) :
    (∀ i ≤ iendPos, InNorm ((j : Int) - i + 1)) ↔ j < 49 := by
  have hlen : norm.length = 50 := rfl
  unfold InNorm
  rw [hlen]
  constructor
  · intro hall
    have := (hall 0 (Nat.zero_le _)).2
    omega
  · intro hj i hi
    omega

/-- Outside Chinese every row is read: the ends that are not given up must be
among the first 49 bunsetsu. -/
theorem detectParaScope_inNorm_iff {F : Type*} [LinearOrder F] {t : ParaText} {ar : ScoreArith F}
    {beyond : Int → Rat} {key : ScopeKey F} (hlang : t.language ≠ .chinese)
    (hwf : KeyInSentence t key) (hiend : key.iendPos ≤ key.keyPos) (restrictP : Bool)
    (restrict : RestrictMatrix) (s : DetectState F) :
    (∀ k ∈ (detectParaScope t ar beyond key restrictP restrict { s with reads := [] }).2.reads,
      InNorm k) ↔
    ∀ j ∈ scopeEnds t key,
      admitted t ar key (maskQuoteScope t key.keyPos (initRestrict t restrictP restrict)) j ≠
        none → j < 49 := by
  have hread : ∀ i, chineseStart t key i = false := fun i => by simp [chineseStart, hlang]
  simp only [detectParaScope_reads, List.not_mem_nil, false_or]
  constructor
  · intro hall j hj hadm
    have hlt := (hwf.scopeEnds.2 j hj).1
    exact (inNorm_rows_iff (hiend.trans hlt.le)).mp fun i hi =>
      hall _ ⟨j, hj, hadm, i, hi, rfl, .inl (hread i)⟩
  · rintro hall k ⟨j, hj, hadm, i, hi, rfl, -⟩
    have hlt := (hwf.scopeEnds.2 j hj).1
    exact (inNorm_rows_iff (hiend.trans hlt.le)).mpr (hall j hj hadm) i hi

/-- 51 bunsetsu, of which the last is similar to the first. -/
def farEnd : ParaText where
  bnstNum := 51
  language := .japanese
  feature _ _ := none
  spLevel _ := 0
  matchScore i j := if i = 0 ∧ j = 50 then 12 else 0
  quoteData := []
  optInputParsed := false
  dpndHead _ := 0

theorem farEnd_outside : farEnd.bnstNum ≤ BNST_MAX ∧
    ∃ k ∈ (detectParaScope farEnd ratArith (fun _ => 1) ⟨0, 0, .n, []⟩ false (fun _ _ => 0)
      blankState).2.reads, ¬ InNorm k := by
  refine ⟨by decide, 51, ?_, by decide⟩
  rw [detectParaScope_reads]
  exact .inr ⟨50, by decide, by decide, 0, by decide, by decide, .inl (by decide)⟩

end Knp
