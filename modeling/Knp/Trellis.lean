import Mathlib.Algebra.BigOperators.Group.Finset.Basic
import Mathlib.Algebra.Order.Ring.Defs
import Mathlib.Tactic.Common
import Knp.Loop

/-!
# Best paths through a trellis

Layers of labels, a weight for each label of a layer, and labels that may
start a path and may follow each other. The score of a path is the product of
its weights. A table of best scores that was filled layer by layer bounds the
score of every path, and the path that is read back along the table's pointers
attains its entry.
-/

namespace Trellis

variable {L K : Type*} [CommSemiring K] [LinearOrder K] [IsStrictOrderedRing K]
  {start : L → Prop} {next : Nat → L → L → Prop} {weight best : Nat → L → K} {back : Nat → L → L}
  {n : Nat}

/-- The labels of layers `0` to `n` that `s` picks are a path. -/
structure IsPath (start : L → Prop) (next : Nat → L → L → Prop) (n : Nat) (s : Nat → L) :
    Prop where
  first : start (s 0)
  follows : ∀ i < n, next (i + 1) (s i) (s (i + 1))

theorem IsPath.mono {s : Nat → L} {m : Nat} (h : IsPath start next n s) (hm : m ≤ n) :
    IsPath start next m s :=
  ⟨h.first, fun i hi => h.follows i (lt_of_lt_of_le hi hm)⟩

def score (weight : Nat → L → K) (n : Nat) (s : Nat → L) : K :=
  ∏ i ∈ Finset.range (n + 1), weight i (s i)

omit [LinearOrder K] [IsStrictOrderedRing K] in
theorem score_zero (s : Nat → L) : score weight 0 s = weight 0 (s 0) := by
  simp [score]

omit [LinearOrder K] [IsStrictOrderedRing K] in
theorem score_succ (n : Nat) (s : Nat → L) :
    score weight (n + 1) s = score weight n s * weight (n + 1) (s (n + 1)) :=
  Finset.prod_range_succ _ _

/-- A table of best scores up to layer `n`. An entry without a path is 0. -/
structure Table (start : L → Prop) (next : Nat → L → L → Prop) (weight best : Nat → L → K)
    (back : Nat → L → L) (n : Nat) : Prop where
  first : ∀ j, start j → best 0 j = weight 0 j
  noFirst : ∀ j, ¬ start j → best 0 j = 0
  upper : ∀ i < n, ∀ k j, next (i + 1) k j → best i k * weight (i + 1) j ≤ best (i + 1) j
  attained : ∀ i < n, ∀ j, 0 < best (i + 1) j →
    next (i + 1) (back (i + 1) j) j ∧
      best (i + 1) j = best i (back (i + 1) j) * weight (i + 1) j

/-- No label that follows another has a negative weight. -/
def Nonneg (next : Nat → L → L → Prop) (weight : Nat → L → K) (n : Nat) : Prop :=
  ∀ i < n, ∀ k j, next (i + 1) k j → 0 ≤ weight (i + 1) j

/-- No path scores more than the entry at its last label. -/
theorem Table.score_le (h : Table start next weight best back n) (hw : Nonneg next weight n)
    {s : Nat → L} : ∀ {m : Nat}, m ≤ n → IsPath start next m s → score weight m s ≤ best m (s m)
  | 0, _, hs => by rw [score_zero, h.first _ hs.first]
  | m + 1, hm, hs => by
      have ih := h.score_le hw (by omega) (hs.mono (Nat.le_succ m))
      have hnext := hs.follows m (Nat.lt_succ_self m)
      calc score weight (m + 1) s
          = score weight m s * weight (m + 1) (s (m + 1)) := score_succ m s
        _ ≤ best m (s m) * weight (m + 1) (s (m + 1)) :=
            mul_le_mul_of_nonneg_right ih (hw m (by omega) _ _ hnext)
        _ ≤ best (m + 1) (s (m + 1)) := h.upper m (by omega) _ _ hnext

/-- `s` is read back along the pointers from its label of layer `n`. -/
def Traces (back : Nat → L → L) (n : Nat) (s : Nat → L) : Prop :=
  ∀ i < n, s i = back (i + 1) (s (i + 1))

/-- A path that is read back from a positive entry has positive entries only. -/
theorem Table.traces_pos (h : Table start next weight best back n) (hw : Nonneg next weight n)
    {s : Nat → L} : ∀ {m : Nat}, m ≤ n → Traces back m s → 0 < best m (s m) →
      ∀ i ≤ m, 0 < best i (s i)
  | 0, _, _, hpos, i, hi => by rwa [Nat.le_zero.mp hi]
  | m + 1, hm, ht, hpos, i, hi => by
      rcases Nat.lt_or_eq_of_le hi with hi | rfl
      · obtain ⟨hnext, heq⟩ := h.attained m (by omega) (s (m + 1)) hpos
        rw [← ht m (Nat.lt_succ_self m)] at hnext heq
        have hprev : 0 < best m (s m) := by
          rw [heq] at hpos
          exact pos_of_mul_pos_left hpos (hw m (by omega) _ _ hnext)
        exact h.traces_pos hw (by omega) (fun i hi => ht i (by omega)) hprev i (by omega)
      · exact hpos

/-- What is read back from a positive entry is a path with that score. -/
theorem Table.traces (h : Table start next weight best back n) (hw : Nonneg next weight n)
    {s : Nat → L} : ∀ {m : Nat}, m ≤ n → Traces back m s → 0 < best m (s m) →
      IsPath start next m s ∧ score weight m s = best m (s m)
  | 0, _, _, hpos => by
      by_cases hs : start (s 0)
      · exact ⟨⟨hs, fun i hi => absurd hi (Nat.not_lt_zero i)⟩, by rw [score_zero, h.first _ hs]⟩
      · rw [h.noFirst _ hs] at hpos
        exact absurd hpos (lt_irrefl 0)
  | m + 1, hm, ht, hpos => by
      have hprev := h.traces_pos hw hm ht hpos m (Nat.le_succ m)
      obtain ⟨hnext, heq⟩ := h.attained m (by omega) (s (m + 1)) hpos
      rw [← ht m (Nat.lt_succ_self m)] at hnext heq
      obtain ⟨hpath, hscore⟩ := h.traces hw (by omega) (fun i hi => ht i (by omega)) hprev
      refine ⟨⟨hpath.first, fun i hi => ?_⟩, by rw [score_succ, hscore, heq]⟩
      rcases Nat.lt_succ_iff_lt_or_eq.mp hi with hi | rfl
      · exact hpath.follows i hi
      · exact hnext

/-! ## A loop that keeps the greatest value -/

section Keep

variable {K : Type*} [LinearOrder K] {N : Nat} {skip : Nat → Bool} {f : Nat → K} {s : K × Int}

/-- The greatest value found so far, and where: the first place, among equal ones. -/
def keepMax (N : Nat) (skip : Nat → Bool) (f : Nat → K) (s : K × Int) : K × Int :=
  Loop.upTo 0 N (fun k s => if skip k then s else if f k > s.1 then (f k, (k : Int)) else s) s

/-- `s'` is what is kept of the places below `N`, beginning with `s`. -/
structure Kept (N : Nat) (skip : Nat → Bool) (f : Nat → K) (s s' : K × Int) : Prop where
  upper : ∀ k < N, skip k = false → f k ≤ s'.1
  le : s.1 ≤ s'.1
  source : s' = s ∨ ∃ k < N, skip k = false ∧ s' = (f k, (k : Int)) ∧ s.1 < f k ∧
    ∀ k' < k, skip k' = false → f k' < f k

theorem keepMax_kept : Kept N skip f s (keepMax N skip f s) := by
  refine Loop.upTo_induction _ (fun k s' => Kept k skip f s s') (Nat.zero_le N) ?_
    ⟨fun k hk => absurd hk (Nat.not_lt_zero k), le_rfl, .inl rfl⟩
  intro k s' _ hk ih
  by_cases hskip : skip k = true
  · rw [if_pos hskip]
    refine ⟨fun k' hk' hs' => ?_, ih.le, ih.source.imp_right fun ⟨j, hj, h⟩ => ⟨j, by omega, h⟩⟩
    rcases Nat.lt_succ_iff_lt_or_eq.mp hk' with hk' | rfl
    · exact ih.upper k' hk' hs'
    · rw [hskip] at hs'
      cases hs'
  · rw [if_neg hskip]
    split_ifs with hgt
    · refine ⟨fun k' hk' hs' => ?_, ih.le.trans hgt.le, .inr ⟨k, Nat.lt_succ_self k,
        eq_false_of_ne_true hskip, rfl, lt_of_le_of_lt ih.le hgt, fun k' hk' hs' => ?_⟩⟩
      · rcases Nat.lt_succ_iff_lt_or_eq.mp hk' with hk' | rfl
        · exact (ih.upper k' hk' hs').trans hgt.le
        · exact le_rfl
      · exact lt_of_le_of_lt (ih.upper k' hk' hs') hgt
    · refine ⟨fun k' hk' hs' => ?_, ih.le, ih.source.imp_right fun ⟨j, hj, h⟩ => ⟨j, by omega, h⟩⟩
      rcases Nat.lt_succ_iff_lt_or_eq.mp hk' with hk' | rfl
      · exact ih.upper k' hk' hs'
      · exact not_lt.mp hgt

/-- Where a value above the first one is found, it is found at a place. -/
theorem Kept.place {s' : K × Int} (h : Kept N skip f s s') (hlt : s.1 < s'.1) :
    ∃ k < N, skip k = false ∧ s' = (f k, (k : Int)) ∧ ∀ k' < k, skip k' = false → f k' < f k := by
  rcases h.source with rfl | ⟨k, hk, hs, heq, -, hfirst⟩
  · exact absurd hlt (lt_irrefl _)
  · exact ⟨k, hk, hs, heq, hfirst⟩

end Keep

end Trellis
