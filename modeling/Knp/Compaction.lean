import Mathlib.Data.List.Basic
import Mathlib.Logic.Function.Basic

/-!
# Moving what is kept to the front

An array is gone through once, and what is kept is copied to the next place in
front. What the front then holds is what is kept, in order.
-/

namespace Compaction

variable {α : Type*} (keep : Nat → Bool)

/-- `rest` places from `j` on; `k` of the places before have been kept. -/
def shift : Nat → Nat → Nat → (Nat → α) → Nat × (Nat → α)
  | 0, _, k, a => (k, a)
  | rest + 1, j, k, a =>
      if keep j then shift rest (j + 1) (k + 1) (if k ≠ j then Function.update a k (a j) else a)
      else shift rest (j + 1) k a

variable {keep}

/-- Reading goes ahead of writing, so a place is read before it is written. -/
theorem shift_spec {rest j k : Nat} (a : Nat → α) (hk : k ≤ j) :
    (List.range (shift keep rest j k a).1).map (shift keep rest j k a).2 =
      (List.range k).map a ++ ((List.range' j rest).filter keep).map a := by
  induction rest generalizing j k a with
  | zero => rw [shift, List.range'_zero, List.filter_nil, List.map_nil, List.append_nil]
  | succ rest ih =>
      rw [shift, List.range'_succ]
      cases hkeep : keep j with
      | false =>
          rw [if_neg Bool.false_ne_true, ih a (by omega),
            List.filter_cons_of_neg (by rw [hkeep]; exact Bool.false_ne_true)]
      | true =>
          have hcopy : (if k ≠ j then Function.update a k (a j) else a) =
              Function.update a k (a j) := by
            by_cases hkj : k = j
            · rw [if_neg (not_not.mpr hkj), hkj, Function.update_eq_self]
            · rw [if_pos hkj]
          have hfront : (List.range k).map (Function.update a k (a j)) = (List.range k).map a := by
            refine List.map_congr_left ?_
            intro i hi
            exact Function.update_of_ne (Nat.ne_of_lt (List.mem_range.mp hi)) _ _
          have hbehind : ((List.range' (j + 1) rest).filter keep).map (Function.update a k (a j)) =
              ((List.range' (j + 1) rest).filter keep).map a := by
            refine List.map_congr_left ?_
            intro i hi
            have hlt := (List.mem_range'_1.mp (List.mem_filter.mp hi).1).1
            exact Function.update_of_ne (by omega) _ _
          rw [if_pos rfl, hcopy, ih _ (by omega), hbehind, List.range_succ, List.map_append, hfront,
            List.map_singleton, Function.update_self, List.filter_cons_of_pos hkeep, List.map_cons,
            List.append_assoc, List.singleton_append]

/-- The whole array. -/
theorem shift_range (n : Nat) (a : Nat → α) :
    (List.range (shift keep n 0 0 a).1).map (shift keep n 0 0 a).2 =
      ((List.range n).filter keep).map a := by
  rw [shift_spec a (Nat.le_refl 0), List.range_zero, List.map_nil, List.nil_append,
    ← List.range_eq_range']

/-- What is kept is exactly what should be, if nothing is dropped that should not. -/
theorem map_filter_eq_iff {β : Type*} {l : List β} {p q : β → Bool} (f : β → α)
    (h : ∀ x ∈ l, q x = true → p x = true) :
    (l.filter p).map f = (l.filter q).map f ↔ ∀ x ∈ l, p x = true → q x = true := by
  have hboth : (l.filter p).filter q = l.filter q := by
    rw [List.filter_filter]
    refine List.filter_congr ?_
    intro x hx
    cases hq : q x with
    | false => rw [Bool.false_and]
    | true => rw [h x hx hq, Bool.true_and]
  constructor
  · intro heq x hx hp
    have hlen := congrArg List.length heq
    rw [List.length_map, List.length_map] at hlen
    have hsub : (l.filter q).Sublist (l.filter p) := by
      rw [← hboth]
      exact List.filter_sublist
    have hmem : x ∈ l.filter p := List.mem_filter.mpr ⟨hx, hp⟩
    rw [← hsub.eq_of_length hlen.symm] at hmem
    exact (List.mem_filter.mp hmem).2
  · intro h'
    congr 1
    refine List.filter_congr ?_
    intro x hx
    exact Bool.eq_iff_iff.mpr ⟨h' x hx, h x hx⟩

end Compaction
