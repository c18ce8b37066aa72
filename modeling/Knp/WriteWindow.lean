import Mathlib.Data.List.Basic
import Mathlib.Logic.Function.Basic
import Mathlib.Data.Nat.Init
import Mathlib.Tactic.Common

/-!
# Loops that fill a window

A loop writes the cells from `n` on, one after the other. What it writes may be read from the
array as it is by then: the rule asks for the value of step `i` after `i` cells have been written.
-/

namespace WriteWindow

variable {α : Type*}

/-- `a` with `v` in the `count` cells from `n` on. -/
def overwrite (a : Nat → α) (n count : Nat) (v : Nat → α) : Nat → α := fun k =>
  if n ≤ k ∧ k < n + count then v (k - n) else a k

variable {a v : Nat → α} {n count : Nat}

@[simp] theorem overwrite_zero : overwrite a n 0 v = a := by
  funext k
  exact if_neg (by omega)

theorem overwrite_of_lt {k : Nat} (h : k < n) : overwrite a n count v k = a k := if_neg (by omega)

theorem overwrite_of_le {k : Nat} (h : n + count ≤ k) : overwrite a n count v k = a k :=
  if_neg (by omega)

theorem overwrite_add {i : Nat} (h : i < count) : overwrite a n count v (n + i) = v i := by
  rw [overwrite, if_pos ⟨Nat.le_add_right n i, by omega⟩, Nat.add_sub_cancel_left]

theorem update_overwrite :
    Function.update (overwrite a n count v) (n + count) (v count) =
      overwrite a n (count + 1) v := by
  funext k
  by_cases hk : k = n + count
  · subst hk
    rw [Function.update_self, overwrite_add (Nat.lt_succ_self count)]
  · rw [Function.update_of_ne hk]
    exact if_congr (by omega) rfl rfl

/-- A step that puts what is there. -/
theorem overwrite_succ_eq (h : v count = a (n + count)) :
    overwrite a n (count + 1) v = overwrite a n count v := by
  rw [← update_overwrite, h]
  exact Function.update_eq_self_iff.mpr (overwrite_of_le (Nat.le_refl _)).symm

/-- **The rule of the loop**: step `i` puts `v i` if it finds what the steps before have put. -/
theorem foldl_overwrite {f : (Nat → α) → Nat → α}
    (h : ∀ i < count, f (overwrite a n i v) i = v i) :
    (List.range count).foldl (fun a i => Function.update a (n + i) (f a i)) a =
      overwrite a n count v := by
  induction count with
  | zero => rw [List.range_zero, List.foldl_nil, overwrite_zero]
  | succ count ih =>
      rw [List.range_succ, List.foldl_append, ih fun i hi => h i (Nat.lt_succ_of_lt hi),
        List.foldl_cons, List.foldl_nil, h count (Nat.lt_succ_self count), update_overwrite]

/-- Reading behind the cells that are written, from the first one on, goes round in them. -/
theorem foldl_copy :
    (List.range count).foldl (fun a i => Function.update a (n + i) (a i)) a =
      overwrite a n count fun i => a (i % n) := by
  refine foldl_overwrite (f := fun a i => a i) fun i _ => ?_
  unfold overwrite
  split
  next hread => rw [Nat.mod_eq_sub_mod hread.1]
  next hread =>
    by_cases hn : n = 0
    · rw [hn, Nat.mod_zero]
    · rw [Nat.mod_eq_of_lt (by omega)]

end WriteWindow
