import Mathlib.Data.List.Basic

/-!
# Pairs in relation

How many pairs of two lists are in a relation, as a nested loop counts them.

> If no element has more than one partner, there are no more pairs than elements on either
> side.

With repeated elements there are more: `n` equal ones on both sides give `n * n` pairs.
-/

namespace PairCount

variable {α β : Type*} {r : α → β → Bool} {xs : List α} {ys : List β}

/-- The pairs whose elements are in relation. -/
def pairs (r : α → β → Bool) : List α → List β → Nat
  | [], _ => 0
  | a :: xs, ys => ys.countP (r a) + pairs r xs ys

/-- Every element of the first list has a partner. -/
def Covered (r : α → β → Bool) (xs : List α) (ys : List β) : Prop :=
  ∀ a ∈ xs, ∃ b ∈ ys, r a b = true

/-- No element of the first list has two partners. -/
def Single (r : α → β → Bool) (xs : List α) (ys : List β) : Prop := ∀ a ∈ xs, ys.countP (r a) ≤ 1

instance : Decidable (Single r xs ys) :=
  inferInstanceAs (Decidable (∀ a ∈ xs, ys.countP (r a) ≤ 1))

theorem pairs_nil_right (r : α → β → Bool) (xs : List α) : pairs r xs [] = 0 := by
  induction xs with
  | nil => rfl
  | cons a xs ih => exact (Nat.zero_add _).trans ih

theorem pairs_cons_right (r : α → β → Bool) (xs : List α) (b : β) (ys : List β) :
    pairs r xs (b :: ys) = xs.countP (flip r b) + pairs r xs ys := by
  induction xs with
  | nil => rfl
  | cons a xs ih =>
      rw [pairs, pairs, ih, List.countP_cons, List.countP_cons, flip]
      omega

theorem pairs_flip (r : α → β → Bool) (xs : List α) (ys : List β) :
    pairs (flip r) ys xs = pairs r xs ys := by
  induction ys with
  | nil => exact (pairs_nil_right r xs).symm
  | cons b ys ih => rw [pairs, pairs_cons_right, ih]

theorem pairs_le_left (h : Single r xs ys) : pairs r xs ys ≤ xs.length := by
  induction xs with
  | nil => exact Nat.le_refl _
  | cons a xs ih =>
      obtain ⟨ha, hxs⟩ := List.forall_mem_cons.mp h
      have hrest := ih hxs
      rw [pairs, List.length_cons]
      omega

theorem pairs_le_right (h : Single (flip r) ys xs) : pairs r xs ys ≤ ys.length := by
  rw [← pairs_flip]
  exact pairs_le_left h

theorem le_pairs (h : Covered r xs ys) : xs.length ≤ pairs r xs ys := by
  induction xs with
  | nil => exact Nat.le_refl _
  | cons a xs ih =>
      obtain ⟨ha, hxs⟩ := List.forall_mem_cons.mp h
      have hrest := ih hxs
      have hpos : 0 < ys.countP (r a) := List.countP_pos_iff.mpr ha
      rw [pairs, List.length_cons]
      omega

/-- If there are as many pairs as elements, every element has its partner. -/
theorem covered_of_le (h : Single r xs ys) (hle : xs.length ≤ pairs r xs ys) : Covered r xs ys := by
  induction xs with
  | nil =>
      intro a ha
      exact absurd ha List.not_mem_nil
  | cons a xs ih =>
      obtain ⟨ha, hxs⟩ := List.forall_mem_cons.mp h
      have hrest := pairs_le_left hxs
      rw [pairs, List.length_cons] at hle
      refine List.forall_mem_cons.mpr ⟨?_, ih hxs (by omega)⟩
      exact List.countP_pos_iff.mp (by omega)

/-- Of lists of the same length, without two partners of one element, each covers the other. -/
theorem Covered.back (h : Covered r xs ys) (hsingle : Single (flip r) ys xs)
    (hlen : ys.length ≤ xs.length) : Covered (flip r) ys xs := by
  refine covered_of_le hsingle ?_
  rw [pairs_flip]
  exact Nat.le_trans hlen (le_pairs h)

end PairCount
