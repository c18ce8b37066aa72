import Mathlib

/-!
# The best elements first

A selection sort that is broken off: the first element of the highest score is moved to
the front, then the same is done behind it, `n` times in all. The others keep their order.

> The result is a permutation, and each of its first `n` elements scores at least as high
> as every element behind it.
-/

namespace BestFirst

variable {α S : Type*} [LinearOrder S] (score : α → S)

/-- The first element of the highest score, with what stands before and behind it. -/
structure IsFirstBest (l before : List α) (best : α) (behind : List α) : Prop where
  eq : l = before ++ best :: behind
  before_lt : ∀ a ∈ before, score a < score best
  behind_le : ∀ a ∈ behind, score a ≤ score best

/-- The first element of the highest score, and the others. -/
def removeBest : List α → Option (α × List α)
  | [] => none
  | a :: l => match removeBest l with
      | none => some (a, [])
      | some (best, others) =>
          if score best ≤ score a then some (a, l) else some (best, a :: others)

/-- The first `n` places are filled with the best that is left. -/
def select : Nat → List α → List α
  | 0, l => l
  | n + 1, l => match removeBest score l with
      | none => []
      | some (best, others) => best :: select n others

variable {score} {l l' before behind others : List α} {a best : α}

theorem removeBest_eq_none (h : removeBest score l = none) : l = [] := by
  cases l with
  | nil => rfl
  | cons a l =>
      unfold removeBest at h
      split at h
      · cases h
      · split_ifs at h

theorem isFirstBest_of_removeBest (h : removeBest score l = some (best, others)) :
    ∃ before behind, IsFirstBest score l before best behind ∧ others = before ++ behind := by
  induction l generalizing best others with
  | nil => cases h
  | cons a l ih =>
      unfold removeBest at h
      split at h
      next hnone =>
          obtain ⟨rfl, rfl⟩ := Prod.mk.inj (Option.some.inj h)
          obtain rfl := removeBest_eq_none hnone
          exact ⟨[], [], ⟨rfl, by simp, by simp⟩, rfl⟩
      next b os hsome =>
          obtain ⟨before, behind, hbest, rfl⟩ := ih hsome
          split_ifs at h with hle
          · obtain ⟨rfl, rfl⟩ := Prod.mk.inj (Option.some.inj h)
            refine ⟨[], l, ⟨rfl, by simp, fun x hx => ?_⟩, rfl⟩
            rw [hbest.eq, List.mem_append, List.mem_cons] at hx
            rcases hx with hx | rfl | hx
            · exact (hbest.before_lt x hx).le.trans hle
            · exact hle
            · exact (hbest.behind_le x hx).trans hle
          · obtain ⟨rfl, rfl⟩ := Prod.mk.inj (Option.some.inj h)
            refine ⟨a :: before, behind, ⟨by rw [hbest.eq]; rfl, fun x hx => ?_, hbest.behind_le⟩, rfl⟩
            rcases List.mem_cons.mp hx with rfl | hx
            · exact not_le.mp hle
            · exact hbest.before_lt x hx

/-- There is only one way to take the first best element out. -/
theorem IsFirstBest.removeBest_eq (h : IsFirstBest score l before best behind) :
    removeBest score l = some (best, before ++ behind) := by
  cases hrem : removeBest score l with
  | none =>
      rw [removeBest_eq_none hrem] at h
      exact absurd h.eq (by simp)
  | some r =>
      obtain ⟨before', behind', h', hothers⟩ := isFirstBest_of_removeBest hrem
      have hsame : before' = before ∧ r.1 = best ∧ behind' = behind := by
        rcases List.append_eq_append_iff.mp (h'.eq.symm.trans h.eq) with
          ⟨mid, hb, hb'⟩ | ⟨mid, hb, hb'⟩
        · cases mid with
          | nil =>
              obtain ⟨hbest, hbehind⟩ := List.cons.inj hb'
              exact ⟨by simpa using hb.symm, hbest, hbehind⟩
          | cons x mid =>
              obtain ⟨rfl, rfl⟩ := List.cons.inj hb'
              have hlt := h.before_lt r.1 (by rw [hb]; simp)
              exact absurd (h'.behind_le best (by simp)) (not_le.mpr hlt)
        · cases mid with
          | nil =>
              obtain ⟨hbest, hbehind⟩ := List.cons.inj hb'
              exact ⟨by simpa using hb, hbest.symm, hbehind.symm⟩
          | cons x mid =>
              obtain ⟨rfl, rfl⟩ := List.cons.inj hb'
              have hlt := h'.before_lt best (by rw [hb]; simp)
              exact absurd (h.behind_le r.1 (by simp)) (not_le.mpr hlt)
      obtain ⟨rfl, hbest, rfl⟩ := hsame
      rw [← hbest, ← hothers]

variable (score) in
theorem exists_isFirstBest (h : l ≠ []) :
    ∃ before best behind, IsFirstBest score l before best behind := by
  cases hrem : removeBest score l with
  | none => exact absurd (removeBest_eq_none hrem) h
  | some r =>
      obtain ⟨before, behind, hbest, -⟩ := isFirstBest_of_removeBest hrem
      exact ⟨before, r.1, behind, hbest⟩

theorem IsFirstBest.perm (h : IsFirstBest score l before best behind) :
    (best :: (before ++ behind)).Perm l := by
  rw [h.eq]
  exact List.perm_middle.symm

theorem IsFirstBest.le_best (h : IsFirstBest score l before best behind) (ha : a ∈ before ++ behind) :
    score a ≤ score best := by
  rcases List.mem_append.mp ha with hb | hb
  · exact (h.before_lt a hb).le
  · exact h.behind_le a hb

@[simp] theorem select_nil (n : Nat) : select score n ([] : List α) = [] := by
  cases n <;> rfl

theorem IsFirstBest.select_succ (h : IsFirstBest score l before best behind) (n : Nat) :
    select score (n + 1) l = best :: select score n (before ++ behind) := by
  rw [select, h.removeBest_eq]

theorem select_perm (n : Nat) (l : List α) : (select score n l).Perm l := by
  induction n generalizing l with
  | zero => exact .refl l
  | succ n ih =>
      rcases eq_or_ne l [] with rfl | hne
      · rw [select_nil]
      · obtain ⟨before, best, behind, h⟩ := exists_isFirstBest score hne
        rw [h.select_succ]
        exact ((ih _).cons best).trans h.perm

/-- A place among the first `n` scores at least as high as the places behind it. -/
theorem select_le (n : Nat) {i j : Nat} (hi : i < n) (hij : i < j)
    (hj : j < (select score n l).length) :
    score (select score n l)[j] ≤ score (select score n l)[i] := by
  induction n generalizing l i j with
  | zero => exact absurd hi (Nat.not_lt_zero i)
  | succ n ih =>
      rcases eq_or_ne l [] with rfl | hne
      · simp at hj
      · obtain ⟨before, best, behind, h⟩ := exists_isFirstBest score hne
        obtain ⟨j, rfl⟩ : ∃ j', j = j' + 1 := ⟨j - 1, by omega⟩
        simp only [h.select_succ, List.length_cons, List.getElem_cons_succ] at hj ⊢
        cases i with
        | zero =>
            have hmem := (select_perm n _).subset (List.getElem_mem (Nat.lt_of_succ_lt_succ hj))
            exact h.le_best hmem
        | succ i => exact ih (Nat.lt_of_succ_lt_succ hi) (Nat.lt_of_succ_lt_succ hij) _

theorem select_one (h : IsFirstBest score l before best behind) :
    select score 1 l = best :: (before ++ behind) := h.select_succ 0

/-! ## Elements seen through a map -/

variable {β : Type*} (f : β → α)

theorem IsFirstBest.map {l before behind : List β} {best : β}
    (h : IsFirstBest (fun b => score (f b)) l before best behind) :
    IsFirstBest score (l.map f) (before.map f) (f best) (behind.map f) where
  eq := by rw [h.eq, List.map_append, List.map_cons]
  before_lt a ha := by
    obtain ⟨b, hb, rfl⟩ := List.mem_map.mp ha
    exact h.before_lt b hb
  behind_le a ha := by
    obtain ⟨b, hb, rfl⟩ := List.mem_map.mp ha
    exact h.behind_le b hb

theorem map_select (n : Nat) (l : List β) :
    (select (fun b => score (f b)) n l).map f = select score n (l.map f) := by
  induction n generalizing l with
  | zero => rfl
  | succ n ih =>
      rcases eq_or_ne l [] with rfl | hne
      · simp
      · obtain ⟨before, best, behind, h⟩ := exists_isFirstBest (fun b => score (f b)) hne
        rw [h.select_succ, List.map_cons, ih, List.map_append, (h.map f).select_succ]

end BestFirst
