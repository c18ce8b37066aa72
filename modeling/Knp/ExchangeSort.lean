import Mathlib.Data.List.Nodup
import Mathlib.Data.List.Range
import Mathlib.Logic.Equiv.Basic
import Mathlib.Order.Defs.Unbundled
import Knp.Loop

/-!
# Sorting by exchange

From the last place to the second one: the element is compared with each one in front of
it, and the two change places if the test says so.

> If the test is a strict order on what is sorted, no later element precedes an earlier
> one in the end, and the elements are the same.

The order may be partial.
-/

namespace ExchangeSort

variable {α : Type*}

/-! ## Rearrangements -/

/-- The places in front of `n` change their contents among themselves. -/
def Rearranges (n : Nat) (a b : Nat → α) : Prop :=
  ∃ σ : Equiv.Perm Nat, b = a ∘ σ ∧ ∀ k, n ≤ k → σ k = k

theorem perm_lt {n : Nat} {σ : Equiv.Perm Nat} (h : ∀ k, n ≤ k → σ k = k) {k : Nat} (hk : k < n) :
    σ k < n := by
  by_contra hge
  have hfix := h (σ k) (by omega)
  have heq := σ.injective hfix
  omega

namespace Rearranges

variable {n m : Nat} {a b c : Nat → α}

theorem refl (n : Nat) (a : Nat → α) : Rearranges n a a := ⟨Equiv.refl Nat, rfl, fun _ _ => rfl⟩

theorem trans (h : Rearranges n a b) (h' : Rearranges n b c) : Rearranges n a c := by
  obtain ⟨σ, rfl, hσ⟩ := h
  obtain ⟨τ, rfl, hτ⟩ := h'
  refine ⟨τ.trans σ, rfl, ?_⟩
  intro k hk
  rw [Equiv.trans_apply, hτ k hk, hσ k hk]

theorem mono (h : Rearranges n a b) (hnm : n ≤ m) : Rearranges m a b := by
  obtain ⟨σ, rfl, hσ⟩ := h
  exact ⟨σ, rfl, fun k hk => hσ k (hnm.trans hk)⟩

theorem outside (h : Rearranges n a b) {k : Nat} (hk : n ≤ k) : b k = a k := by
  obtain ⟨σ, rfl, hσ⟩ := h
  rw [Function.comp_apply, hσ k hk]

/-- What is at a place came from a place. -/
theorem source (h : Rearranges n a b) {k : Nat} (hk : k < n) : ∃ l < n, b k = a l := by
  obtain ⟨σ, rfl, hσ⟩ := h
  exact ⟨σ k, perm_lt hσ hk, rfl⟩

/-- What was at a place is at a place. -/
theorem target (h : Rearranges n a b) {l : Nat} (hl : l < n) : ∃ k < n, b k = a l := by
  obtain ⟨σ, rfl, hσ⟩ := h
  have hinv : ∀ k, n ≤ k → σ.symm k = k := fun k hk => σ.symm_apply_eq.mpr (hσ k hk).symm
  refine ⟨σ.symm l, perm_lt hinv hl, ?_⟩
  rw [Function.comp_apply, Equiv.apply_symm_apply]

end Rearranges

/-! ## The loops -/

section Exchange

variable (overtakes : α → α → Bool)

/-- The elements at `i` and `j` change places. -/
def exchange (i j : Nat) (a : Nat → α) : Nat → α :=
  if overtakes (a i) (a j) then Function.update (Function.update a i (a j)) j (a i) else a

def sweep (i : Nat) (a : Nat → α) : Nat → α := Loop.down 0 i (exchange overtakes i) a

def sort (n : Nat) (a : Nat → α) : Nat → α := Loop.down 1 n (sweep overtakes) a

variable {overtakes} {n i j : Nat} {a : Nat → α}

theorem exchange_swaps (h : overtakes (a i) (a j) = true) :
    exchange overtakes i j a = a ∘ Equiv.swap i j := by
  rw [exchange, if_pos h]
  funext k
  rw [Function.comp_apply, Equiv.swap_apply_def]
  by_cases hj : k = j
  · subst hj
    by_cases hi : k = i
    · subst hi
      rw [Function.update_self, if_pos rfl]
    · rw [Function.update_self, if_neg hi, if_pos rfl]
  · rw [Function.update_of_ne hj]
    by_cases hi : k = i
    · subst hi
      rw [Function.update_self, if_pos rfl]
    · rw [Function.update_of_ne hi, if_neg hi, if_neg hj]

theorem exchange_rearranges (hi : i < n) (hj : j < n) :
    Rearranges n a (exchange overtakes i j a) := by
  by_cases h : overtakes (a i) (a j) = true
  · refine ⟨Equiv.swap i j, exchange_swaps h, ?_⟩
    intro k hk
    exact Equiv.swap_apply_of_ne_of_ne (by omega) (by omega)
  · rw [exchange, if_neg h]
    exact Rearranges.refl n a

theorem sweep_rearranges (i : Nat) (a : Nat → α) :
    Rearranges (i + 1) a (sweep overtakes i a) := by
  refine Loop.down_induction (exchange overtakes i) (fun _ b => Rearranges (i + 1) a b)
    (Nat.zero_le i) ?_ (Rearranges.refl _ a)
  intro j b _ hj hab
  exact hab.trans (exchange_rearranges (by omega) (by omega))

theorem sort_rearranges (n : Nat) (a : Nat → α) : Rearranges n a (sort overtakes n a) := by
  rcases Nat.eq_zero_or_pos n with hn | hn
  · subst hn
    exact Rearranges.refl 0 a
  refine Loop.down_induction (sweep overtakes) (fun _ b => Rearranges n a b) (Nat.succ_le_of_lt hn)
    ?_ (Rearranges.refl n a)
  intro i b _ hi hab
  exact hab.trans ((sweep_rearranges i b).mono hi)

/-- The test is the order. -/
def Agrees (overtakes : α → α → Bool) (R : α → α → Prop) (n : Nat) (a : Nat → α) : Prop :=
  ∀ i < n, ∀ j < n, overtakes (a i) (a j) = true ↔ R (a i) (a j)

variable {R : α → α → Prop}

theorem Agrees.rearranged {b : Nat → α} (h : Agrees overtakes R n a) (hab : Rearranges n a b) :
    Agrees overtakes R n b := by
  intro i hi j hj
  obtain ⟨i', hi', hai⟩ := hab.source hi
  obtain ⟨j', hj', haj⟩ := hab.source hj
  rw [hai, haj]
  exact h i' hi' j' hj'

variable [IsStrictOrder α R]

/-- After the exchange at `j` the last element precedes none from `j` on. -/
theorem exchange_last (hagree : Agrees overtakes R n a) (hi : i < n) (hj : j < i)
    (h : ∀ k, j + 1 ≤ k → k < i → ¬ R (a i) (a k)) :
    ∀ k, j ≤ k → k < i → ¬ R (exchange overtakes i j a i) (exchange overtakes i j a k) := by
  intro k hjk hki
  by_cases hswap : overtakes (a i) (a j) = true
  · have hij := (hagree i hi j (hj.trans hi)).mp hswap
    rw [exchange_swaps hswap, Function.comp_apply, Function.comp_apply, Equiv.swap_apply_left]
    rcases Nat.eq_or_lt_of_le hjk with hk | hk
    · rw [← hk, Equiv.swap_apply_right]
      exact asymm_of R hij
    · rw [Equiv.swap_apply_of_ne_of_ne (by omega) (by omega)]
      intro hjk'
      exact h k hk hki (trans_of R hij hjk')
  · rw [exchange, if_neg hswap]
    rcases Nat.eq_or_lt_of_le hjk with hk | hk
    · rw [← hk]
      intro hij
      exact hswap ((hagree i hi j (hj.trans hi)).mpr hij)
    · exact h k hk hki

theorem sweep_last (hagree : Agrees overtakes R n a) (hi : i < n) :
    ∀ k < i, ¬ R (sweep overtakes i a i) (sweep overtakes i a k) := by
  have hrun := Loop.down_induction (exchange overtakes i)
    (fun j b => Rearranges (i + 1) a b ∧ ∀ k, j ≤ k → k < i → ¬ R (b i) (b k)) (Nat.zero_le i)
    (s := a) ?step ⟨Rearranges.refl _ a, fun k hik hki => absurd hki (by omega)⟩
  case step =>
    rintro j b - hj ⟨hab, hlast⟩
    have hagree' := hagree.rearranged (hab.mono hi)
    exact ⟨hab.trans (exchange_rearranges (by omega) (by omega)),
      exchange_last hagree' hi hj hlast⟩
  intro k hk
  exact hrun.2 k (Nat.zero_le k) hk

/-- **The order in the end.** -/
theorem sort_sorted (hagree : Agrees overtakes R n a) (hij : i < j) (hj : j < n) :
    ¬ R (sort overtakes n a j) (sort overtakes n a i) := by
  have hrun := Loop.down_induction (sweep overtakes)
    (fun m b => Rearranges n a b ∧ ∀ p q, p < q → m ≤ q → q < n → ¬ R (b q) (b p))
    (show 1 ≤ n by omega) (s := a) ?step
    ⟨Rearranges.refl _ a, fun p q _ hq hn' => absurd hn' (by omega)⟩
  case step =>
    rintro m b - hm ⟨hab, hsorted⟩
    have hre := @sweep_rearranges α overtakes m b
    refine ⟨hab.trans (hre.mono hm), ?_⟩
    intro p q hpq hmq hqn
    rcases Nat.eq_or_lt_of_le hmq with hq | hq
    · subst hq
      exact sweep_last (hagree.rearranged hab) hm p hpq
    · have hq' := hre.outside (k := q) (by omega)
      by_cases hp : p < m + 1
      · obtain ⟨l, hl, hbl⟩ := hre.source hp
        rw [hq', hbl]
        exact hsorted l q (by omega) (by omega) hqn
      · rw [hq', hre.outside (by omega)]
        exact hsorted p q hpq (by omega) hqn
  exact hrun.2 i j hij (by omega) hj

end Exchange

end ExchangeSort
