import Mathlib.Data.List.Basic
import Mathlib.Tactic.Common

/-!
# Filling up to a bound

Elements come in groups and are put into a store, one after the other. The size is tested behind
each of them, and the run ends where it is the bound. A group may be missing, and there may be no
room for the first element; then there is no result.

> There is a result just if the store has room or nothing comes, and no group is missing up to the
> one that fills the store (`fillGroups_eq_some_iff`). The result holds the first elements, as many
> as there was room for.
-/

namespace FillTo

section Defs

variable {σ α : Type*} (put : σ → α → σ) (size : σ → Nat) (cap : Nat)

/-- The elements of a group; with `true` the store is full. -/
def fill : List α → σ → Option (σ × Bool)
  | [], s => some (s, false)
  | x :: xs, s =>
      if size s < cap then
        if size (put s x) = cap then some (put s x, true) else fill xs (put s x)
      else none

def fillGroups : List (Option (List α)) → σ → Option σ
  | [], s => some s
  | g :: gs, s =>
      g.bind fun xs => (fill put size cap xs s).bind fun r =>
        if r.2 then some r.1 else fillGroups gs r.1

/-- All elements, in order. -/
def elements (gs : List (Option (List α))) : List α := gs.flatMap fun g => g.getD []

/-- The run comes to group `i` of a store of size `n`. -/
def Arrives (n : Nat) (gs : List (Option (List α))) (i : Nat) : Prop :=
  elements (gs.take i) = [] ∨ n + (elements (gs.take i)).length < cap

structure Fits (n : Nat) (gs : List (Option (List α))) : Prop where
  room : n < cap ∨ elements gs = []
  there : ∀ i, (hi : i < gs.length) → Arrives cap n gs i → gs[i].isSome

end Defs

variable {σ α : Type*} {put : σ → α → σ} {size : σ → Nat} {cap n : Nat} {s s' : σ} {x : α}
  {xs : List α} {gs : List (Option (List α))}

@[simp] theorem elements_nil : elements ([] : List (Option (List α))) = [] := rfl

@[simp] theorem elements_cons (xs : List α) (gs : List (Option (List α))) :
    elements (some xs :: gs) = xs ++ elements gs := rfl

/-! ## One group -/

theorem fill_of_le (h : cap ≤ size s) (x : α) (xs : List α) :
    fill put size cap (x :: xs) s = none := by
  rw [fill, if_neg (Nat.not_lt.mpr h)]

theorem fill_of_lt (hput : ∀ s x, size (put s x) = size s + 1) (h : size s < cap) (xs : List α) :
    fill put size cap xs s =
      some ((xs.take (cap - size s)).foldl put s, decide (cap ≤ size s + xs.length)) := by
  induction xs generalizing s with
  | nil =>
      rw [fill, List.take_nil, List.length_nil, Nat.add_zero, decide_eq_false (Nat.not_le.mpr h)]
      rfl
  | cons x xs ih =>
      obtain ⟨k, hk⟩ := Nat.exists_eq_add_of_lt h
      have hroom : cap - size s = k + 1 := by omega
      rw [fill, if_pos h, hroom, List.take_succ_cons, List.foldl_cons, List.length_cons]
      by_cases hfull : size (put s x) = cap
      · have hk0 : k = 0 := by
          rw [hput] at hfull
          omega
        rw [if_pos hfull, hk0, List.take_zero, decide_eq_true (by omega)]
        rfl
      · have hlt : size (put s x) < cap := by
          rw [hput] at hfull ⊢
          omega
        have hrest : cap - size (put s x) = k := by
          rw [hput]
          omega
        rw [if_neg hfull, ih hlt, hrest, hput]
        exact congrArg some (Prod.ext rfl (decide_eq_decide.mpr (by omega)))

theorem exists_foldl_of_fill {r : σ × Bool} (h : fill put size cap xs s = some r) :
    ∃ ys : List α, r.1 = ys.foldl put s := by
  induction xs generalizing s with
  | nil =>
      obtain rfl := Option.some_inj.mp h
      exact ⟨[], rfl⟩
  | cons x xs ih =>
      rw [fill] at h
      split_ifs at h with hlt hfull
      · obtain rfl := Option.some_inj.mp h
        exact ⟨[x], rfl⟩
      · obtain ⟨ys, hys⟩ := ih h
        exact ⟨x :: ys, hys⟩

theorem size_foldl (hput : ∀ s x, size (put s x) = size s + 1) (xs : List α) (s : σ) :
    size (xs.foldl put s) = size s + xs.length := by
  induction xs generalizing s with
  | nil => rfl
  | cons x xs ih =>
      rw [List.foldl_cons, ih, hput, List.length_cons]
      omega

/-! ## All groups -/

theorem not_fits_none : ¬Fits cap n (none :: gs) := fun h =>
  Bool.false_ne_true (h.there 0 (Nat.succ_pos _) (.inl rfl))

theorem fits_nil : Fits cap n ([] : List (Option (List α))) :=
  ⟨.inr rfl, fun i hi => absurd hi (Nat.not_lt_zero i)⟩

/-- What a group that is there leaves to the others. -/
theorem fits_cons : Fits cap n (some xs :: gs) ↔
    (n < cap ∨ xs = []) ∧ (xs = [] ∨ n + xs.length < cap → Fits cap (n + xs.length) gs) := by
  constructor
  · intro h
    refine ⟨h.room.imp_right fun hall => (List.append_eq_nil_iff.mp hall).1, fun hxs => ⟨?_, ?_⟩⟩
    · rcases hxs with rfl | hlt
      · exact h.room
      · exact .inl hlt
    · intro i hi harrives
      refine h.there (i + 1) (Nat.succ_lt_succ hi) ?_
      rw [Arrives, List.take_succ_cons, elements_cons, List.length_append, ← Nat.add_assoc]
      rcases hxs with rfl | hlt
      · exact harrives
      · rcases harrives with hnil | harrives
        · rw [hnil]
          exact .inr hlt
        · exact .inr harrives
  · rintro ⟨hroom, hrest⟩
    constructor
    · rcases hroom with hlt | rfl
      · exact .inl hlt
      · exact (hrest (.inl rfl)).room
    · intro i hi harrives
      cases i with
      | zero => rfl
      | succ i =>
          rw [Arrives, List.take_succ_cons, elements_cons, List.length_append, ← Nat.add_assoc,
            List.append_eq_nil_iff] at harrives
          have hgo : xs = [] ∨ n + xs.length < cap := harrives.imp And.left (by omega)
          exact (hrest hgo).there i (Nat.lt_of_succ_lt_succ hi) (harrives.imp_left And.right)

theorem fillGroups_of_fits (hput : ∀ s x, size (put s x) = size s + 1)
    (h : Fits cap (size s) gs) :
    fillGroups put size cap gs s =
      some (((elements gs).take (cap - size s)).foldl put s) := by
  induction gs generalizing s with
  | nil => rw [fillGroups, elements_nil, List.take_nil, List.foldl_nil]
  | cons g gs ih =>
      cases g with
      | none => exact absurd h not_fits_none
      | some xs =>
          obtain ⟨hroom, hrest⟩ := fits_cons.mp h
          rw [fillGroups, Option.bind_some, elements_cons]
          rcases Nat.lt_or_ge (size s) cap with hlt | hge
          · rw [fill_of_lt hput hlt, Option.bind_some]
            by_cases hfull : cap ≤ size s + xs.length
            · rw [if_pos (decide_eq_true hfull), List.take_append_of_le_length (by omega)]
            · have hall : xs.take (cap - size s) = xs := List.take_of_length_le (by omega)
              have hsize := size_foldl hput xs s
              have hfits := hrest (.inr (by omega))
              rw [← hsize] at hfits
              rw [if_neg (by rwa [decide_eq_true_eq]), hall, ih hfits, List.take_append, hall,
                List.foldl_append, hsize, Nat.sub_add_eq]
          · obtain rfl := hroom.resolve_left (Nat.not_lt.mpr hge)
            rw [fill, Option.bind_some, if_neg Bool.false_ne_true, List.nil_append]
            exact ih (hrest (.inl rfl))

theorem fits_of_fillGroups (hput : ∀ s x, size (put s x) = size s + 1)
    (h : fillGroups put size cap gs s = some s') : Fits cap (size s) gs := by
  induction gs generalizing s with
  | nil => exact fits_nil
  | cons g gs ih =>
      cases g with
      | none => cases h
      | some xs =>
          rw [fillGroups, Option.bind_some] at h
          cases xs with
          | nil => exact fits_cons.mpr ⟨.inr rfl, fun _ => ih h⟩
          | cons x xs =>
              rcases Nat.lt_or_ge (size s) cap with hlt | hge
              · refine fits_cons.mpr ⟨.inl hlt, fun hgo => ?_⟩
                have hmore := hgo.resolve_left (List.cons_ne_nil x xs)
                have hall : (x :: xs).take (cap - size s) = x :: xs :=
                  List.take_of_length_le (by omega)
                rw [fill_of_lt hput hlt, Option.bind_some, if_neg (by
                  rw [decide_eq_true_eq]
                  omega), hall] at h
                rw [← size_foldl hput]
                exact ih h
              · rw [fill_of_le hge] at h
                cases h

/-- A result is the right one, and there is one just if the groups fit. -/
theorem fillGroups_eq_some_iff (hput : ∀ s x, size (put s x) = size s + 1) :
    fillGroups put size cap gs s = some s' ↔
      Fits cap (size s) gs ∧ s' = ((elements gs).take (cap - size s)).foldl put s := by
  constructor
  · intro h
    have hfits := fits_of_fillGroups hput h
    exact ⟨hfits, Option.some_inj.mp (h.symm.trans (fillGroups_of_fits hput hfits))⟩
  · rintro ⟨hfits, rfl⟩
    exact fillGroups_of_fits hput hfits

end FillTo
