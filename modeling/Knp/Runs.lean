import Mathlib.Data.List.Range
import Mathlib.Order.Basic

/-!
# Runs that are taken in

Positions some of which are absorbed: each by the last one in front of it that is left. A
position that is left and those that it takes in are a run, and the runs follow each other.
The rank of a position is the number of its run.
-/

namespace Runs

variable {absorbed : Nat → Bool} {a a' b k k' l n : Nat}

/-- What is left takes in position `k`. -/
structure TakesIn (absorbed : Nat → Bool) (a k : Nat) : Prop where
  le : a ≤ k
  left : absorbed a = false
  taken : ∀ j, a < j → j ≤ k → absorbed j = true

/-- The run from `a` to `l` of the first `n` positions. -/
structure Run (absorbed : Nat → Bool) (n a l : Nat) : Prop where
  takesIn : TakesIn absorbed a l
  lt : l < n
  last : l + 1 < n → absorbed (l + 1) = false

/-- How many of the first `k` positions are left. -/
def leftBelow (absorbed : Nat → Bool) (k : Nat) : Nat :=
  (List.range k).countP fun j => !absorbed j

/-- The number of the run of position `k`, from 0 on. -/
def rank (absorbed : Nat → Bool) (k : Nat) : Int := leftBelow absorbed (k + 1) - 1

theorem leftBelow_succ :
    leftBelow absorbed (k + 1) = leftBelow absorbed k + if absorbed k then 0 else 1 := by
  unfold leftBelow
  rw [List.range_succ, List.countP_append]
  cases h : absorbed k <;> simp [h]

theorem leftBelow_mono (h : k ≤ k') : leftBelow absorbed k ≤ leftBelow absorbed k' :=
  List.Sublist.countP_le (List.range_sublist.mpr h)

theorem rank_left (h : absorbed a = false) : rank absorbed a = leftBelow absorbed a := by
  rw [rank, leftBelow_succ, h]
  simp

theorem rank_nonneg (h : absorbed 0 = false) (k : Nat) : 0 ≤ rank absorbed k := by
  have hmono : leftBelow absorbed 1 ≤ leftBelow absorbed (k + 1) :=
    leftBelow_mono (Nat.le_add_left 1 k)
  have hone : leftBelow absorbed 1 = 1 := by simp [leftBelow, h]
  unfold rank
  omega

theorem TakesIn.refl (h : absorbed a = false) : TakesIn absorbed a a :=
  ⟨le_rfl, h, fun _ hj hja => absurd hja (Nat.not_le.mpr hj)⟩

theorem TakesIn.succ (h : TakesIn absorbed a k) (hk : absorbed (k + 1) = true) :
    TakesIn absorbed a (k + 1) := by
  refine ⟨Nat.le_succ_of_le h.le, h.left, fun j hj hjk => ?_⟩
  rcases Nat.lt_or_eq_of_le hjk with hlt | rfl
  · exact h.taken j hj (Nat.le_of_lt_succ hlt)
  · exact hk

theorem TakesIn.prev (h : TakesIn absorbed a k) (hk : absorbed k = true) :
    ∃ j, k = j + 1 ∧ TakesIn absorbed a j := by
  have hne : a ≠ k := fun heq => by
    have := h.left
    rw [heq, hk] at this
    cases this
  obtain ⟨j, rfl⟩ : ∃ j, k = j + 1 := ⟨k - 1, by have := h.le; omega⟩
  exact ⟨j, rfl, by have := h.le; omega, h.left, fun i hi hij => h.taken i hi (by omega)⟩

/-- Every position is in a run. -/
theorem exists_takesIn (h : absorbed 0 = false) (k : Nat) : ∃ a, TakesIn absorbed a k := by
  induction k with
  | zero => exact ⟨0, .refl h⟩
  | succ k ih =>
      cases hk : absorbed (k + 1) with
      | false => exact ⟨k + 1, .refl hk⟩
      | true =>
          obtain ⟨a, ha⟩ := ih
          exact ⟨a, ha.succ hk⟩

theorem TakesIn.rank_eq (h : TakesIn absorbed a k) : rank absorbed k = rank absorbed a := by
  obtain ⟨d, rfl⟩ := Nat.exists_eq_add_of_le h.le
  induction d with
  | zero => rfl
  | succ d ih =>
      have hprev : TakesIn absorbed a (a + d) :=
        ⟨Nat.le_add_right .., h.left, fun j hj hjd => h.taken j hj (by omega)⟩
      rw [← ih hprev, rank, rank, ← Nat.add_assoc, leftBelow_succ,
        h.taken (a + d + 1) (by omega) (by omega)]
      simp

/-- The numbers grow from one run to the next. -/
theorem rank_lt (h : a < b) (hb : absorbed b = false) : rank absorbed a < rank absorbed b := by
  have hmono : leftBelow absorbed (a + 1) ≤ leftBelow absorbed b :=
    leftBelow_mono (Nat.succ_le_of_lt h)
  rw [rank_left hb]
  unfold rank
  omega

/-- A position behind a run is in a later one. -/
theorem Run.lt_of_lt (h : Run absorbed n a l) (hk : l < k) (hkn : k < n)
    (hb : TakesIn absorbed b k) : l < b := by
  by_contra hle
  have hlast := h.last (by omega)
  have htaken := hb.taken (l + 1) (by omega) (by omega)
  rw [htaken] at hlast
  cases hlast

theorem Run.unique (h : Run absorbed n a l) (h' : Run absorbed n a k) : l = k := by
  by_contra hne
  rcases Nat.lt_or_gt_of_ne hne with hlt | hlt
  · have := h.lt_of_lt hlt h'.lt h'.takesIn
    have := h.takesIn.le
    omega
  · have := h'.lt_of_lt hlt h.lt h.takesIn
    have := h'.takesIn.le
    omega

end Runs
