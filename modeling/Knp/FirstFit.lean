import Mathlib.Logic.Function.Basic
import Mathlib.Tactic.Common

/-!
# First fit

Items come one after the other, and each takes the first slot that fits it and is
free. A slot is free until it is taken, a reusable one always. There is one way
to do so at most, and it ends at the first item that no free slot fits.
-/

namespace FirstFit

variable {α : Type*} (reusable : Nat → Bool) (fits : Nat → α → Bool) (size : Nat)

/-- The first of the slots `0`, ..., `size - 1` that is free and fits. -/
def slot (used : Nat → Bool) (x : α) : Option Nat :=
  (List.range size).find? fun k => !(used k && !reusable k) && fits k x

/-- The first `m` items take the slots `σ`. -/
structure Takes (x : Nat → α) (m : Nat) (σ : Nat → Nat) : Prop where
  lt : ∀ j < m, σ j < size
  fit : ∀ j < m, fits (σ j) (x j) = true
  free : ∀ j < m, reusable (σ j) = true ∨ ∀ i < j, σ i ≠ σ j
  first : ∀ j < m, ∀ k < σ j, fits k (x j) = true → reusable k = false ∧ ∃ i < j, σ i = k

variable {reusable fits size} {x : Nat → α} {m n k : Nat} {σ τ : Nat → Nat} {used : Nat → Bool}

theorem Takes.zero : Takes reusable fits size x 0 σ := by
  constructor <;> intro j hj <;> exact absurd hj (Nat.not_lt_zero j)

theorem Takes.mono (h : Takes reusable fits size x m σ) (hn : n ≤ m) :
    Takes reusable fits size x n σ where
  lt := by
    intro j hj
    exact h.lt j (by omega)
  fit := by
    intro j hj
    exact h.fit j (by omega)
  free := by
    intro j hj
    exact h.free j (by omega)
  first := by
    intro j hj
    exact h.first j (by omega)

/-- The item before decides which slots are free, so the slots are the same. -/
theorem Takes.unique (h : Takes reusable fits size x m σ) (h' : Takes reusable fits size x m τ) :
    ∀ j < m, σ j = τ j := by
  intro j
  induction j using Nat.strongRecOn with
  | ind j ih =>
      intro hj
      -- the later of two different slots has been left out
      rcases Nat.lt_trichotomy (σ j) (τ j) with hlt | heq | hlt
      · obtain ⟨hreuse, i, hi, htaken⟩ := h'.first j hj (σ j) hlt (h.fit j hj)
        rcases h.free j hj with hfree | hfree
        · rw [hreuse] at hfree
          exact absurd hfree Bool.false_ne_true
        · exact absurd ((ih i hi (by omega)).trans htaken) (hfree i hi)
      · exact heq
      · obtain ⟨hreuse, i, hi, htaken⟩ := h.first j hj (τ j) hlt (h'.fit j hj)
        rcases h'.free j hj with hfree | hfree
        · rw [hreuse] at hfree
          exact absurd hfree Bool.false_ne_true
        · exact absurd ((ih i hi (by omega)).symm.trans htaken) (hfree i hi)

/-- The slots that are taken by the first `m` items. -/
def Marks (used : Nat → Bool) (m : Nat) (σ : Nat → Nat) : Prop :=
  ∀ k, used k = true ↔ ∃ i < m, σ i = k

theorem Marks.zero : Marks (fun _ => false) 0 σ := by
  intro k
  refine iff_of_false Bool.false_ne_true ?_
  rintro ⟨i, hi, -⟩
  exact Nat.not_lt_zero i hi

theorem Marks.extend (h : Marks used m σ) :
    Marks (Function.update used k true) (m + 1) (Function.update σ m k) := by
  intro l
  rcases eq_or_ne l k with rfl | hne
  · rw [Function.update_self]
    exact iff_of_true rfl ⟨m, by omega, Function.update_self _ _ _⟩
  · rw [Function.update_of_ne hne, h l]
    constructor
    · rintro ⟨i, hi, heq⟩
      refine ⟨i, by omega, ?_⟩
      rw [Function.update_of_ne (by omega)]
      exact heq
    · rintro ⟨i, hi, heq⟩
      rcases Nat.lt_succ_iff_lt_or_eq.mp hi with hlt | rfl
      · rw [Function.update_of_ne (by omega)] at heq
        exact ⟨i, hlt, heq⟩
      · rw [Function.update_self] at heq
        exact absurd heq.symm hne

/-- A slot that has been left out does not fit or is used up. -/
theorem free_iff (h : Marks used m σ) :
    (!(used k && !reusable k)) = true ↔ reusable k = true ∨ ∀ i < m, σ i ≠ k := by
  have hmark := h k
  cases hreuse : reusable k
  · cases hused : used k
    · rw [hused] at hmark
      simpa using hmark
    · rw [hused] at hmark
      simpa using hmark
  · simp

/-- The next item takes the slot that is found for it. -/
theorem Takes.extend (h : Takes reusable fits size x m σ) (hused : Marks used m σ)
    (hslot : slot reusable fits size used (x m) = some k) :
    Takes reusable fits size x (m + 1) (Function.update σ m k) := by
  rw [slot, List.find?_range_eq_some] at hslot
  obtain ⟨hk, hsize, hbefore⟩ := hslot
  rw [Bool.and_eq_true, free_iff hused] at hk
  have hold : ∀ j < m, Function.update σ m k j = σ j := by
    intro j hj
    exact Function.update_of_ne (by omega) _ _
  constructor
  case lt =>
    intro j hj
    rcases Nat.lt_succ_iff_lt_or_eq.mp hj with hlt | rfl
    · rw [hold j hlt]
      exact h.lt j hlt
    · rw [Function.update_self]
      exact List.mem_range.mp hsize
  case fit =>
    intro j hj
    rcases Nat.lt_succ_iff_lt_or_eq.mp hj with hlt | rfl
    · rw [hold j hlt]
      exact h.fit j hlt
    · rw [Function.update_self]
      exact hk.2
  case free =>
    intro j hj
    rcases Nat.lt_succ_iff_lt_or_eq.mp hj with hlt | rfl
    · rw [hold j hlt]
      refine (h.free j hlt).imp_right ?_
      intro hne i hi
      rw [hold i (by omega)]
      exact hne i hi
    · rw [Function.update_self]
      refine hk.1.imp_right ?_
      intro hne i hi
      rw [hold i hi]
      exact hne i hi
  case first =>
    intro j hj l hl hfit
    rcases Nat.lt_succ_iff_lt_or_eq.mp hj with hlt | rfl
    · rw [hold j hlt] at hl
      obtain ⟨hreuse, i, hi, heq⟩ := h.first j hlt l hl hfit
      refine ⟨hreuse, i, hi, ?_⟩
      rw [hold i (by omega)]
      exact heq
    · rw [Function.update_self] at hl
      have hnot := hbefore l hl
      rw [Bool.not_eq_true', Bool.and_eq_false_iff] at hnot
      rcases hnot with hnot | hnot
      · have hnfree : ¬(reusable l = true ∨ ∀ i < j, σ i ≠ l) := by
          rw [← free_iff hused, hnot]
          exact Bool.false_ne_true
        rw [not_or, Bool.not_eq_true] at hnfree
        obtain ⟨i, hi, heq⟩ : ∃ i < j, σ i = l := by
          by_contra hno
          apply hnfree.2
          intro i hi heq
          exact hno ⟨i, hi, heq⟩
        refine ⟨hnfree.1, i, hi, ?_⟩
        rw [hold i hi]
        exact heq
      · rw [hfit] at hnot
        exact absurd hnot.symm Bool.false_ne_true

/-- Where none is found, the next item takes none. -/
theorem Takes.stuck (h : Takes reusable fits size x m σ) (hused : Marks used m σ)
    (hslot : slot reusable fits size used (x m) = none) :
    ¬Takes reusable fits size x (m + 1) τ := by
  intro h'
  rw [slot, List.find?_range_eq_none] at hslot
  have hnot := hslot (τ m) (h'.lt m (by omega))
  rw [Bool.not_eq_true', h'.fit m (by omega), Bool.and_true] at hnot
  have hfree : reusable (τ m) = true ∨ ∀ i < m, σ i ≠ τ m := by
    refine (h'.free m (by omega)).imp_right ?_
    intro hne i hi
    rw [h.unique (h'.mono (by omega)) i hi]
    exact hne i hi
  rw [← free_iff hused, hnot] at hfree
  exact Bool.false_ne_true hfree

end FirstFit
