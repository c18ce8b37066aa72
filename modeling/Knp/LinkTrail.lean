import Mathlib.Data.List.Basic
import Mathlib.Logic.Function.Basic
import Mathlib.Tactic.Common

/-!
# Links that are taken back

Two tables hold the same links: a cell of the one has a number, and a number of the other has the
cell. New links are for cells that are free, and get new numbers. They are taken back by going
through all numbers: the cell of each marked one is freed, and the number loses its cell, so the
table is cleared while it is read.

> What has been linked is free again, and all other links are as they were.
-/

namespace LinkTrail

variable {κ V W : Type*} [DecidableEq κ] (cell : W → κ)

/-- The cells with their numbers, and the numbers with their cells. -/
abbrev Tables (κ V W : Type*) : Type _ := (κ → V) × (Nat → W)

def link (t : Tables κ V W) (w : W) (i : Nat) (v : V) : Tables κ V W :=
  (Function.update t.1 (cell w) v, Function.update t.2 i w)

variable (free : V) (cleared : W) (marked : Nat → Bool)

def unlinkStep (t : Tables κ V W) (i : Nat) : Tables κ V W :=
  if marked i then (Function.update t.1 (cell (t.2 i)) free, Function.update t.2 i cleared) else t

/-- All marked numbers below `n`. -/
def unlink (n : Nat) (t : Tables κ V W) : Tables κ V W :=
  (List.range n).foldl (unlinkStep cell free cleared marked) t

variable {cell free cleared marked} {t base : Tables κ V W} {m n i : Nat} {k : κ} {w : W} {v : V}

theorem unlink_succ : unlink cell free cleared marked (n + 1) t =
    unlinkStep cell free cleared marked (unlink cell free cleared marked n t) n := by
  rw [unlink, List.range_succ, List.foldl_append]
  rfl

/-- A number that is not treated yet, or not marked, has its cell. -/
theorem unlink_snd (h : n ≤ i ∨ marked i = false) :
    (unlink cell free cleared marked n t).2 i = t.2 i := by
  induction n with
  | zero => rfl
  | succ n ih =>
      have hrest := ih (h.imp_left Nat.le_of_succ_le)
      rw [unlink_succ, unlinkStep]
      split
      next hn =>
        refine (Function.update_of_ne ?_ ..).trans hrest
        rintro rfl
        rcases h with h | h
        · exact Nat.not_succ_le_self i h
        · rw [hn] at h
          cases h
      next => exact hrest

/-- A cell that no marked number has stays. -/
theorem unlink_fst_of_forall (h : ∀ i < n, marked i = true → cell (t.2 i) ≠ k) :
    (unlink cell free cleared marked n t).1 k = t.1 k := by
  induction n with
  | zero => rfl
  | succ n ih =>
      have hrest := ih fun i hi => h i (Nat.lt_succ_of_lt hi)
      rw [unlink_succ, unlinkStep]
      split
      next hn =>
        rw [unlink_snd (.inl (Nat.le_refl _))]
        exact (Function.update_of_ne (h n (Nat.lt_succ_self n) hn).symm ..).trans hrest
      next => exact hrest

/-- The cell of a marked number is free. -/
theorem unlink_fst_of_exists (h : ∃ i < n, marked i = true ∧ cell (t.2 i) = k) :
    (unlink cell free cleared marked n t).1 k = free := by
  induction n with
  | zero =>
      obtain ⟨i, hi, -⟩ := h
      exact absurd hi (Nat.not_lt_zero i)
  | succ n ih =>
      rw [unlink_succ, unlinkStep]
      by_cases hrest : ∃ i < n, marked i = true ∧ cell (t.2 i) = k
      · split
        next =>
          by_cases hk : k = cell ((unlink cell free cleared marked n t).2 n)
          · rw [hk]
            exact Function.update_self ..
          · exact (Function.update_of_ne hk ..).trans (ih hrest)
        next => exact ih hrest
      · obtain ⟨i, hi, hmarked, rfl⟩ := h
        obtain rfl : i = n := by
          by_contra hne
          exact hrest ⟨i, by omega, hmarked, rfl⟩
        rw [if_pos hmarked, unlink_snd (.inl (Nat.le_refl _))]
        exact Function.update_self ..

variable (cell free) in
/-- The links of the numbers from `m` up to `n` are new. -/
structure Trail (base : Tables κ V W) (m n : Nat) (t : Tables κ V W) : Prop where
  le : m ≤ n
  same : ∀ i < m, t.2 i = base.2 i
  was_free : ∀ i, m ≤ i → i < n → base.1 (cell (t.2 i)) = free
  changed : ∀ k, t.1 k ≠ base.1 k → ∃ i, m ≤ i ∧ i < n ∧ cell (t.2 i) = k

omit [DecidableEq κ] in
theorem Trail.refl (base : Tables κ V W) (m : Nat) : Trail cell free base m m base :=
  ⟨Nat.le_refl m, fun _ _ => rfl, fun _ hle hlt => absurd hlt (Nat.not_lt.mpr hle),
    fun _ hne => absurd rfl hne⟩

omit [DecidableEq κ] in
/-- A cell that is free was so before. -/
theorem Trail.free_before (h : Trail cell free base m n t) (hfree : t.1 k = free) :
    base.1 k = free := by
  by_cases hne : t.1 k = base.1 k
  · rw [← hne, hfree]
  · obtain ⟨i, hle, hlt, rfl⟩ := h.changed k hne
    exact h.was_free i hle hlt

theorem Trail.link (h : Trail cell free base m n t) (hfree : t.1 (cell w) = free) :
    Trail cell free base m (n + 1) (link cell t w n v) := by
  have hold : ∀ i < n, (LinkTrail.link cell t w n v).2 i = t.2 i := fun i hi =>
    Function.update_of_ne (Nat.ne_of_lt hi) ..
  have hnew : (LinkTrail.link cell t w n v).2 n = w := Function.update_self ..
  refine ⟨Nat.le_succ_of_le h.le, fun i hi => ?_, fun i hle hlt => ?_, fun k hne => ?_⟩
  · rw [hold i (Nat.lt_of_lt_of_le hi h.le)]
    exact h.same i hi
  · rcases Nat.lt_succ_iff_lt_or_eq.mp hlt with hlt | rfl
    · rw [hold i hlt]
      exact h.was_free i hle hlt
    · rw [hnew]
      exact h.free_before hfree
  · by_cases hk : k = cell w
    · refine ⟨n, h.le, Nat.lt_succ_self n, ?_⟩
      rw [hnew, hk]
    · have hsame : (LinkTrail.link cell t w n v).1 k = t.1 k := Function.update_of_ne hk ..
      rw [hsame] at hne
      obtain ⟨i, hle, hlt, hcell⟩ := h.changed k hne
      refine ⟨i, hle, Nat.lt_succ_of_lt hlt, ?_⟩
      rw [hold i hlt, hcell]

/-- **The new links are taken back.** -/
theorem Trail.unlink (h : Trail cell free base m n t) (hmarked : ∀ i < n, marked i = true ↔ m ≤ i) :
    (∀ k, (unlink cell free cleared marked n t).1 k = base.1 k) ∧
      ∀ i < m, (LinkTrail.unlink cell free cleared marked n t).2 i = base.2 i := by
  refine ⟨fun k => ?_, fun i hi => ?_⟩
  · by_cases hk : ∃ i < n, marked i = true ∧ cell (t.2 i) = k
    · rw [unlink_fst_of_exists hk]
      obtain ⟨i, hi, hm, rfl⟩ := hk
      exact (h.was_free i ((hmarked i hi).mp hm) hi).symm
    · rw [unlink_fst_of_forall fun i hi hm heq => hk ⟨i, hi, hm, heq⟩]
      by_contra hne
      obtain ⟨i, hle, hlt, hcell⟩ := h.changed k hne
      exact hk ⟨i, hlt, (hmarked i hlt).mpr hle, hcell⟩
  · have hnot : marked i = false := by
      rw [← Bool.not_eq_true, hmarked i (Nat.lt_of_lt_of_le hi h.le)]
      exact Nat.not_le.mpr hi
    rw [unlink_snd (.inr hnot)]
    exact h.same i hi

end LinkTrail
