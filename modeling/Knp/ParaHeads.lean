import Knp.NearestHead
import Knp.ParaDpnd

/-!
# The greedy check of a range of bunsetsu

`_check_para_d_struct` goes through a range from right to left and takes for
every bunsetsu that has not been checked the nearest head that is not behind a
crossing (`hikousa_array`).

The check succeeds if and only if the bunsetsu of the range can have heads that
do not cross at all. The arcs it finds on the way, those of the extension to the
front included, never cross.
-/

namespace Knp

open NearestHead

variable {env : CheckEnv} {s : CheckState} {str stop i j : Nat} {r : RangeState}

/-- `j` may be the head of `i`, by the three matrices. -/
def Allowed (env : CheckEnv) (s : CheckState) (i j : Nat) : Prop :=
  s.mask i j ≠ 0 ∧ env.quote i j = true ∧ s.dpnd i j ≠ 0

/-- The bunsetsu of the range that need a head. -/
def Unchecked (s : CheckState) (str stop i : Nat) : Prop :=
  str ≤ i ∧ i < stop ∧ s.dCheck i = false

/-! ## The arcs of the loops -/

/-- The arc from `i` to the head `found`, if any, onto those of the loop so far. -/
def recordStep (env : CheckEnv) (s : CheckState) (stop i : Nat)
    (x : RangeState × List (Nat × Nat)) : RangeState × List (Nat × Nat) :=
  (headStep env s stop i x.1,
    if s.dCheck i then x.2
    else match findHead env s x.1.hikousa i stop with
      | some j => (i, j) :: x.2
      | none => x.2)

/-- The arcs of `extendFront`. -/
def extendArcs (env : CheckEnv) (s : CheckState) (stop limit : Nat) :
    Nat → RangeState × List (Nat × Nat) → List (Nat × Nat)
  | 0, x => x.2
  | i + 1, x =>
      if i < limit || checkStopExtend env i then x.2
      else if s.dCheck i || (findHead env s x.1.hikousa i stop).isSome then
        extendArcs env s stop limit i (recordStep env s stop i x)
      else x.2

/-- The loop over the range, with its arcs. -/
def rangeRun (env : CheckEnv) (s : CheckState) (str stop : Nat) : RangeState × List (Nat × Nat) :=
  (List.range' str (stop - str)).reverse.foldl (fun x i => recordStep env s stop i x)
    (⟨Function.update s.dFound stop true, fun _ => true, true⟩, [])

/-- The arcs that `checkParaDStructRange` finds. -/
def recordedArcs (env : CheckEnv) (s : CheckState) (str stop : Nat) (extendP : Bool)
    (limit : Nat) : List (Nat × Nat) :=
  let x := rangeRun env s str stop
  if extendP && x.1.success then extendArcs env s stop limit str x else x.2

theorem foldl_recordStep_fst : ∀ (l : List Nat) (x : RangeState × List (Nat × Nat)),
    (l.foldl (fun x i => recordStep env s stop i x) x).1 =
      l.foldl (fun r i => headStep env s stop i r) x.1
  | [], _ => rfl
  | i :: l, x => foldl_recordStep_fst l (recordStep env s stop i x)

theorem checkParaDStructRange_fst (extendP : Bool) (limit startPos : Nat) :
    (checkParaDStructRange env s str stop extendP limit startPos).1 =
      (rangeRun env s str stop).1.success := by
  unfold checkParaDStructRange rangeRun
  rw [foldl_recordStep_fst]
  dsimp only
  split <;> rfl

/-! ## The nearest head -/

theorem findHead_eq_some (h : findHead env s r.hikousa i stop = some j) :
    i < j ∧ j ≤ stop ∧ Allowed env s i j ∧ r.hikousa j = true ∧
      ∀ k, i < k → k ≤ stop → Allowed env s i k → r.hikousa k = true → j ≤ k := by
  unfold findHead at h
  obtain ⟨hj, as, bs, hsplit, hbefore⟩ := List.find?_eq_some_iff_append.mp h
  have hmem : j ∈ List.range' (i + 1) (stop - i) := by simp [hsplit]
  have hrange := List.mem_range'_1.mp hmem
  simp only [Bool.and_eq_true, decide_eq_true_eq] at hj
  obtain ⟨⟨⟨hmask, hquote⟩, hdpnd⟩, hfree⟩ := hj
  refine ⟨by omega, by omega, ⟨hmask, hquote, hdpnd⟩, hfree, fun k hik hk hallowed hkfree => ?_⟩
  by_contra hlt
  have hkmem : k ∈ List.range' (i + 1) (stop - i) := List.mem_range'_1.mpr (by omega)
  have hsorted : (List.range' (i + 1) (stop - i)).Pairwise (· < ·) := List.pairwise_lt_range'
  rw [hsplit] at hkmem hsorted
  rcases List.mem_append.mp hkmem with has | hbs
  · have hnot := hbefore k has
    simp [hallowed.1, hallowed.2.1, hallowed.2.2, hkfree] at hnot
  · rcases List.mem_cons.mp hbs with heq | hbs
    · omega
    · have := List.rel_of_pairwise_cons (List.pairwise_append.mp hsorted).2.1 hbs
      omega

theorem findHead_eq_none (h : findHead env s r.hikousa i stop = none) (hij : i < j)
    (hj : j ≤ stop) (hallowed : Allowed env s i j) : r.hikousa j = false := by
  unfold findHead at h
  have hnot := List.find?_eq_none.mp h j (List.mem_range'_1.mpr (by omega))
  simpa [hallowed.1, hallowed.2.1, hallowed.2.2] using hnot

theorem covers_coverRange (hikousa : Nat → Bool) (i j : Nat) :
    Covers i j hikousa (coverRange hikousa (i + 1) j) where
  inside := fun k hik hkj => if_pos ⟨hik, hkj⟩
  outside := fun k hk => if_neg (by omega)

/-! ## One step -/

/-- What a step does. -/
theorem recordStep_cases (env : CheckEnv) (s : CheckState) (stop i : Nat)
    (x : RangeState × List (Nat × Nat)) :
    (s.dCheck i = true ∧ (recordStep env s stop i x).1.hikousa = x.1.hikousa ∧
      (recordStep env s stop i x).1.success = x.1.success ∧
      (recordStep env s stop i x).2 = x.2) ∨
    (s.dCheck i = false ∧ ∃ j, findHead env s x.1.hikousa i stop = some j ∧
      Covers i j x.1.hikousa (recordStep env s stop i x).1.hikousa ∧
      (recordStep env s stop i x).1.success = x.1.success ∧
      (recordStep env s stop i x).2 = (i, j) :: x.2) ∨
    (s.dCheck i = false ∧ findHead env s x.1.hikousa i stop = none ∧
      Covers i (stop + 1) x.1.hikousa (recordStep env s stop i x).1.hikousa ∧
      (recordStep env s stop i x).1.success = false ∧
      (recordStep env s stop i x).2 = x.2) := by
  unfold recordStep headStep
  cases hc : s.dCheck i with
  | true => simp
  | false =>
      cases hf : findHead env s x.1.hikousa i stop with
      | some j => simp [covers_coverRange]
      | none => simp [covers_coverRange]

/-- The arcs at node `i`: they do not cross, and each is allowed. -/
structure Arcs (env : CheckEnv) (s : CheckState) (stop i : Nat)
    (x : RangeState × List (Nat × Nat)) : Prop where
  recorded : Recorded i x.1.hikousa x.2
  allowed : ∀ p ∈ x.2, s.dCheck p.1 = false ∧ p.1 < p.2 ∧ p.2 ≤ stop ∧ Allowed env s p.1 p.2

theorem Arcs.step {x : RangeState × List (Nat × Nat)} (h : Arcs env s stop (i + 1) x) :
    Arcs env s stop i (recordStep env s stop i x) := by
  obtain ⟨-, hfree, -, harcs⟩ | ⟨hc, j, hf, hcov, -, harcs⟩ | ⟨-, -, hcov, -, harcs⟩ :=
    recordStep_cases env s stop i x
  · exact ⟨by rw [hfree, harcs]; exact h.recorded.skip fun k hk => hk, by rw [harcs]; exact h.allowed⟩
  · obtain ⟨hij, hj, hallowed, hjfree, -⟩ := findHead_eq_some hf
    refine ⟨by rw [harcs]; exact h.recorded.take hjfree hcov, ?_⟩
    rw [harcs]
    intro p hp
    rcases List.mem_cons.mp hp with rfl | hp
    · exact ⟨hc, hij, hj, hallowed⟩
    · exact h.allowed p hp
  · refine ⟨?_, by rw [harcs]; exact h.allowed⟩
    rw [harcs]
    refine h.recorded.skip fun k hk => ?_
    by_cases hin : i < k ∧ k < stop + 1
    · simp [hcov.inside k hin.1 hin.2] at hk
    · rwa [hcov.outside k (by omega)] at hk

/-! ## The loop over the range -/

/-- A property of the loop's states by the position they have come down to. -/
theorem rangeRun_induction {p : Nat → RangeState × List (Nat × Nat) → Prop}
    (hstart : p stop (⟨Function.update s.dFound stop true, fun _ => true, true⟩, []))
    (hstep : ∀ i x, str ≤ i → i < stop → p (i + 1) x → p i (recordStep env s stop i x))
    (hle : str ≤ stop) : p str (rangeRun env s str stop) :=
  Loop.down_induction (recordStep env s stop) p hle hstep hstart

theorem rangeRun_of_lt (h : stop < str) : rangeRun env s str stop =
    (⟨Function.update s.dFound stop true, fun _ => true, true⟩, []) := by
  unfold rangeRun
  rw [Nat.sub_eq_zero_of_le h.le]
  rfl

theorem rangeRun_arcs (hle : str ≤ stop) : Arcs env s stop str (rangeRun env s str stop) :=
  rangeRun_induction ⟨recorded_nil stop _, by simp⟩ (fun _ _ _ _ => Arcs.step) hle

/-- As long as the loop succeeds, every bunsetsu that needs a head has an arc. -/
theorem rangeRun_found (hle : str ≤ stop) (h : (rangeRun env s str stop).1.success = true) :
    ∀ i, Unchecked s str stop i → ∃ j, (i, j) ∈ (rangeRun env s str stop).2 := by
  refine rangeRun_induction
    (p := fun lo x => x.1.success = true → ∀ i, Unchecked s lo stop i → ∃ j, (i, j) ∈ x.2)
    (fun _ i hi => absurd hi.1 (Nat.not_le.mpr hi.2.1)) (fun lo x _ _ ih hs i hi => ?_) hle h
  obtain ⟨hc, -, hsucc, harcs⟩ | ⟨-, j, -, -, hsucc, harcs⟩ | ⟨-, -, -, hfail, -⟩ :=
    recordStep_cases env s stop lo x
  · rw [harcs]
    refine ih (hsucc ▸ hs) i ⟨?_, hi.2⟩
    refine Nat.lt_of_le_of_ne hi.1 fun heq => ?_
    rw [heq, hi.2.2] at hc
    cases hc
  · rw [harcs]
    rcases Nat.lt_or_ge lo i with hlt | hge
    · obtain ⟨j', hj'⟩ := ih (hsucc ▸ hs) i ⟨hlt, hi.2⟩
      exact ⟨j', List.mem_cons_of_mem _ hj'⟩
    · obtain rfl : i = lo := Nat.le_antisymm hge hi.1
      exact ⟨j, List.mem_cons_self⟩
  · rw [hfail] at hs
    cases hs

/-- The loop succeeds where there are heads at all. -/
theorem rangeRun_complete {h : Nat → Nat}
    (hh : Heads (Unchecked s str stop) (Allowed env s) stop h) (hle : str ≤ stop) :
    (rangeRun env s str stop).1.success = true := by
  refine (rangeRun_induction (p := fun lo x => x.1.success = true ∧
    Keeps (Unchecked s str stop) h stop lo x.1.hikousa)
    ⟨rfl, fun k _ _ => rfl⟩ (fun lo x hlo hhi ⟨hsucc, hkeeps⟩ => ?_) hle).1
  obtain ⟨-, hfree, hsucc', -⟩ | ⟨hc, j, hf, hcov, hsucc', -⟩ | ⟨hc, hf, -⟩ :=
    recordStep_cases env s stop lo x
  · exact ⟨hsucc'.trans hsucc, hfree ▸ hkeeps.skip⟩
  · have hlo' : Unchecked s str stop lo := ⟨hlo, hhi, hc⟩
    have hfree := hkeeps (h lo) (hh.right lo hlo').2 (hh.visible_head hlo')
    have hnear := (findHead_eq_some hf).2.2.2.2 (h lo) (hh.right lo hlo').1 (hh.right lo hlo').2
      (hh.allowed lo hlo') hfree
    exact ⟨hsucc'.trans hsucc, hkeeps.take hlo' hnear hcov⟩
  · have hlo' : Unchecked s str stop lo := ⟨hlo, hhi, hc⟩
    have hfree := hkeeps (h lo) (hh.right lo hlo').2 (hh.visible_head hlo')
    rw [findHead_eq_none hf (hh.right lo hlo').1 (hh.right lo hlo').2 (hh.allowed lo hlo')] at hfree
    cases hfree

/-- The arcs of a successful loop are heads for the range. -/
theorem rangeRun_sound (hle : str ≤ stop) (hs : (rangeRun env s str stop).1.success = true) :
    ∃ h, Heads (Unchecked s str stop) (Allowed env s) stop h := by
  have harcs : Arcs env s stop str (rangeRun env s str stop) := rangeRun_arcs hle
  have hfound := rangeRun_found hle hs
  choose! h hmem using hfound
  refine ⟨h, fun i hi => ?_, fun i hi => ?_, fun a b ha hb hab hba => ?_⟩
  · obtain ⟨-, hlt, hle, -⟩ := harcs.allowed _ (hmem i hi)
    exact ⟨hlt, hle⟩
  · exact (harcs.allowed _ (hmem i hi)).2.2.2
  · exact harcs.recorded.nested _ (hmem a ha) _ (hmem b hb) hab hba

theorem heads_of_lt (h : stop < str) :
    Heads (Unchecked s str stop) (Allowed env s) stop fun _ => 0 :=
  have hnone : ∀ i, ¬ Unchecked s str stop i := fun i hi => by
    have := hi.1
    have := hi.2.1
    omega
  ⟨fun i hi => absurd hi (hnone i), fun i hi => absurd hi (hnone i),
    fun a _ ha => absurd ha (hnone a)⟩

/-! ## The extension to the front -/

theorem extendArcs_arcs (limit : Nat) : ∀ (n : Nat) (x : RangeState × List (Nat × Nat)),
    Arcs env s stop n x → ∃ lo, lo ≤ n ∧ ∃ r, Arcs env s stop lo (r, extendArcs env s stop limit n x)
  | 0, x, hx => ⟨0, Nat.le_refl 0, x.1, hx⟩
  | n + 1, x, hx => by
      rw [extendArcs]
      split
      · exact ⟨n + 1, Nat.le_refl _, x.1, hx⟩
      · split
        · obtain ⟨lo, hlo, r, hr⟩ := extendArcs_arcs limit n _ hx.step
          exact ⟨lo, by omega, r, hr⟩
        · exact ⟨n + 1, Nat.le_refl _, x.1, hx⟩

/-- The arcs of the range stay. -/
theorem mem_extendArcs (limit : Nat) : ∀ (n : Nat) (x : RangeState × List (Nat × Nat)) {p},
    p ∈ x.2 → p ∈ extendArcs env s stop limit n x
  | 0, _, _, hp => hp
  | n + 1, x, p, hp => by
      rw [extendArcs]
      split
      · exact hp
      · split
        · refine mem_extendArcs limit n _ ?_
          obtain ⟨-, -, -, harcs⟩ | ⟨-, j, -, -, -, harcs⟩ | ⟨-, -, -, -, harcs⟩ :=
            recordStep_cases env s stop n x
          · exact harcs ▸ hp
          · exact harcs ▸ List.mem_cons_of_mem _ hp
          · exact harcs ▸ hp
        · exact hp

/-- The bunsetsu by which the range is extended have their arcs as well. -/
theorem extendArcs_found (limit : Nat) : ∀ (n : Nat) (x : RangeState × List (Nat × Nat)) {i},
    (extendFront env s stop limit n x.1).2 ≤ i → i < n → s.dCheck i = false →
      ∃ j, (i, j) ∈ extendArcs env s stop limit n x
  | 0, _, i, _, hi, _ => absurd hi (Nat.not_lt_zero i)
  | n + 1, x, i, hlo, hi, hc => by
      rw [extendFront] at hlo
      rw [extendArcs]
      by_cases hstop : (decide (n < limit) || checkStopExtend env n) = true
      · rw [if_pos hstop] at hlo
        omega
      rw [if_neg hstop] at hlo ⊢
      obtain ⟨hn, hfree, -, harcs⟩ | ⟨hn, j, hf, hcov, -, harcs⟩ | ⟨hn, hf, -, -, -⟩ :=
        recordStep_cases env s stop n x
      · rw [if_pos (by simp [hn])]
        rw [if_pos hn] at hlo
        refine extendArcs_found limit n _ ?_ ?_ hc
        · simpa [recordStep, headStep, hn] using hlo
        · refine Nat.lt_of_le_of_ne (Nat.lt_succ_iff.mp hi) fun heq => ?_
          rw [heq, hn] at hc
          cases hc
      · rw [if_pos (by simp [hf])]
        rw [if_neg (by simp [hn]), hf] at hlo
        rcases Nat.lt_or_ge i n with hin | hin
        · refine extendArcs_found limit n _ ?_ hin hc
          simpa [recordStep, headStep, hn, hf] using hlo
        · obtain rfl : i = n := by omega
          exact ⟨j, mem_extendArcs limit i _ (harcs ▸ List.mem_cons_self)⟩
      · rw [if_neg (by simp [hn]), hf] at hlo
        simp only at hlo
        omega

theorem recordedArcs_found {extendP : Bool} {limit startPos : Nat}
    (hs : (rangeRun env s str stop).1.success = true) (hi : i < stop) (hc : s.dCheck i = false)
    (hin : str ≤ i ∨ extendP = true ∧
      (checkParaDStructRange env s str stop extendP limit startPos).2.2 ≤ i) :
    ∃ j, (i, j) ∈ recordedArcs env s str stop extendP limit := by
  unfold recordedArcs
  dsimp only
  rcases Nat.lt_or_ge i str with hlt | hge
  · obtain ⟨hext, hlo⟩ := hin.resolve_left (Nat.not_le.mpr hlt)
    rw [if_pos (by simp [hext, hs])]
    refine extendArcs_found limit str _ ?_ hlt hc
    unfold checkParaDStructRange at hlo
    unfold rangeRun at hs ⊢
    rw [foldl_recordStep_fst] at hs ⊢
    dsimp only at hs hlo
    rwa [hext, hs, if_pos (by rfl)] at hlo
  · obtain ⟨j, hj⟩ := rangeRun_found (by omega) hs i ⟨hge, hi, hc⟩
    refine ⟨j, ?_⟩
    split
    · exact mem_extendArcs limit str _ hj
    · exact hj

/-! ## The check -/

/-- **The greedy check is complete.** It succeeds if and only if there are heads
for the range that do not cross. Its arcs do not cross, and where it succeeds
they are such heads, up to the extended start of the range. -/
theorem checkParaDStructRange_iff (env : CheckEnv) (s : CheckState) (str stop : Nat)
    (extendP : Bool) (limit startPos : Nat) :
    ((checkParaDStructRange env s str stop extendP limit startPos).1 = true ↔
      ∃ h, Heads (Unchecked s str stop) (Allowed env s) stop h) ∧
    NonCrossing (recordedArcs env s str stop extendP limit) ∧
    (∀ p ∈ recordedArcs env s str stop extendP limit,
      s.dCheck p.1 = false ∧ p.1 < p.2 ∧ p.2 ≤ stop ∧ Allowed env s p.1 p.2) ∧
    ((checkParaDStructRange env s str stop extendP limit startPos).1 = true →
      ∀ i < stop, s.dCheck i = false → (str ≤ i ∨ extendP = true ∧
        (checkParaDStructRange env s str stop extendP limit startPos).2.2 ≤ i) →
          ∃ j, (i, j) ∈ recordedArcs env s str stop extendP limit) := by
  have hstart : Arcs env s stop str (rangeRun env s str stop) := by
    rcases Nat.lt_or_ge stop str with hlt | hle
    · rw [rangeRun_of_lt hlt]
      exact ⟨recorded_nil str _, by simp⟩
    · exact rangeRun_arcs hle
  have harcs : ∃ lo r, Arcs env s stop lo (r, recordedArcs env s str stop extendP limit) := by
    unfold recordedArcs
    dsimp only
    split
    · obtain ⟨lo, -, r, hr⟩ := extendArcs_arcs limit str _ hstart
      exact ⟨lo, r, hr⟩
    · exact ⟨str, _, hstart⟩
  obtain ⟨lo, r, hr⟩ := harcs
  rw [checkParaDStructRange_fst]
  refine ⟨⟨fun hs => ?_, fun ⟨h, hh⟩ => ?_⟩, hr.recorded.nested, hr.allowed, fun hs i hi hc => ?_⟩
  · rcases Nat.lt_or_ge stop str with hlt | hle
    · exact ⟨_, heads_of_lt hlt⟩
    · exact rangeRun_sound hle hs
  · rcases Nat.lt_or_ge stop str with hlt | hle
    · rw [rangeRun_of_lt hlt]
    · exact rangeRun_complete hh hle
  · exact recordedArcs_found hs hi hc

end Knp
