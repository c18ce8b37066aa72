import Mathlib.Logic.Function.Basic
import Mathlib.Tactic.Common

/-!
# Heads that are left open

An array of heads, to the right, in which some entries are left open: a negative
entry `g i` refers to the node `i + g i` further left, whose head node `i` is to
share. `Filled` says how the open entries are closed from left to right.

> If the other links do not cross, a link that crosses one to its left was open,
> and has come from further left still.
-/

namespace OpenHeads

variable {relax : Bool} {n i a b : Nat} {g h : Nat → Int}

/-- The links that are there go to the right and do not cross; an open entry
refers to a node. -/
structure Partial (n : Nat) (g : Nat → Int) : Prop where
  right : ∀ i, i + 1 < n → 0 ≤ g i → (i : Int) < g i ∧ g i < n
  back : ∀ i, i + 1 < n → g i < 0 → -(i : Int) ≤ g i
  nested : ∀ a b, b + 1 < n → a < b → 0 ≤ g b → (b : Int) < g a → g b ≤ g a

/-- The links of `a` and of `b` further right cross. -/
def Crosses (h : Nat → Int) (a b : Nat) : Prop := a < b ∧ (b : Int) < h a ∧ h a < h b

instance (h : Nat → Int) (a b : Nat) : Decidable (Crosses h a b) :=
  inferInstanceAs (Decidable (_ ∧ _))

/-- What is open in `g` is closed in `h`: by the head that is referred to, if it
lies to the right, else by the last node where `relax` allows it. -/
structure Filled (relax : Bool) (n : Nat) (g h : Nat → Int) : Prop where
  kept : ∀ i, i + 1 < n → 0 ≤ g i → h i = g i
  closed : ∀ i, i + 1 < n → g i < 0 → ∃ s < i, (s : Int) = i + g i ∧
    (h i = h s ∧ (i : Int) < h s ∨ relax = true ∧ h i = n - 1)

namespace Filled

variable (hf : Filled relax n g h) (hp : Partial n g)
include hf

/-- A head is the last node by relaxation, or has been there at the start, for
node `i` itself or for a node to its left. -/
theorem origin (hi : i + 1 < n) : relax = true ∧ h i = n - 1 ∨
    ∃ o ≤ i, 0 ≤ g o ∧ h i = g o ∧ (o = i ∨ g i < 0) := by
  induction i using Nat.strongRecOn with
  | ind i ih =>
      by_cases hopen : g i < 0
      · obtain ⟨s, hs, -, ⟨heq, -⟩ | hrelax⟩ := hf.closed i hi hopen
        · rcases ih s hs (by omega) with ⟨hr, hlast⟩ | ⟨o, ho, hgo, hso, -⟩
          · exact .inl ⟨hr, heq.trans hlast⟩
          · exact .inr ⟨o, by omega, hgo, heq.trans hso, .inr hopen⟩
        · exact .inl hrelax
      · exact .inr ⟨i, Nat.le_refl i, by omega, hf.kept i hi (by omega), .inl rfl⟩

include hp

/-- Every node but the last has its head to the right. -/
theorem right (hi : i + 1 < n) : (i : Int) < h i ∧ h i < n := by
  rcases hf.origin hi with ⟨-, hlast⟩ | ⟨o, ho, hgo, heq, -⟩
  · omega
  · have hbound := (hp.right o (by omega) hgo).2
    refine ⟨?_, by omega⟩
    by_cases hopen : g i < 0
    · obtain ⟨s, -, -, ⟨hs, hlt⟩ | ⟨-, hlast⟩⟩ := hf.closed i hi hopen <;> omega
    · have := (hp.right i hi (by omega)).1
      have := hf.kept i hi (by omega)
      omega

/-- Where the links of `a` and of a later `b` cross, that of `b` was open. It
goes to the last node by relaxation, or to the head of a node before `a`. -/
theorem crossing (hb : b + 1 < n) (hcross : Crosses h a b) :
    g b < 0 ∧ (relax = true ∧ h b = n - 1 ∨ ∃ o < a, 0 ≤ g o ∧ h b = g o) := by
  obtain ⟨hab, hba, hlt⟩ := hcross
  have hright := hf.right hp hb
  obtain ⟨-, hlast⟩ | ⟨o', ho', hgo', heq', -⟩ := hf.origin (i := a) (by omega)
  · omega
  have hopen : g b < 0 := by
    by_contra hclosed
    have := hp.nested o' b hb (by omega) (by omega) (by omega)
    have := hf.kept b hb (by omega)
    omega
  refine ⟨hopen, ?_⟩
  rcases hf.origin hb with hrelax | ⟨o, ho, hgo, heq, hwhere⟩
  · exact .inl hrelax
  · refine .inr ⟨o, ?_, hgo, heq⟩
    -- a node between `a` and `b` would already cross the link of `a`
    by_contra hle
    by_cases hoa : o = a
    · subst hoa
      have := hf.kept o (by omega) hgo
      omega
    · have := hp.nested o' o (by omega) (by omega) hgo (by omega)
      omega

end Filled

/-! ## Closing from left to right -/

/-- The entries in front of node `i` are closed, the others are as they were. -/
structure FilledTo (relax : Bool) (n i : Nat) (g h : Nat → Int) : Prop where
  later : ∀ x, i ≤ x → h x = g x
  kept : ∀ x < i, 0 ≤ g x → h x = g x
  closed : ∀ x < i, g x < 0 → ∃ s < x, (s : Int) = x + g x ∧
    (h x = h s ∧ (x : Int) < h s ∨ relax = true ∧ h x = n - 1)

theorem filledTo_zero : FilledTo relax n 0 g g :=
  ⟨fun _ _ => rfl, fun x hx => absurd hx (Nat.not_lt_zero x),
    fun x hx => absurd hx (Nat.not_lt_zero x)⟩

/-- An entry that was not open. -/
theorem FilledTo.keep (hf : FilledTo relax n i g h) (hpos : 0 ≤ g i) :
    FilledTo relax n (i + 1) g h := by
  refine ⟨fun x hx => hf.later x (by omega), fun x hx hx' => ?_, fun x hx hneg => ?_⟩
  · by_cases hxi : x = i
    · exact hf.later x (by omega)
    · exact hf.kept x (by omega) hx'
  · have hxi : x ≠ i := by
      rintro rfl
      omega
    exact hf.closed x (by omega) hneg

/-- An open entry takes the head that is referred to, or the last node. -/
theorem FilledTo.close (hf : FilledTo relax n i g h) (hp : Partial n g) (hi : i + 1 < n)
    (hopen : g i < 0) {v : Int}
    (hv : v = h ((i : Int) + g i).toNat ∧ (i : Int) < v ∨ relax = true ∧ v = n - 1) :
    FilledTo relax n (i + 1) g (Function.update h i v) := by
  have hother : ∀ x, x ≠ i → Function.update h i v x = h x :=
    fun x hx => Function.update_of_ne hx ..
  have hback := hp.back i hi hopen
  obtain ⟨s, hs⟩ : ∃ s : Nat, (s : Int) = i + g i := ⟨_, Int.toNat_of_nonneg (by omega)⟩
  rw [← hs, Int.toNat_natCast] at hv
  refine ⟨fun x hx => ?_, fun x hx hpos => ?_, fun x hx hneg => ?_⟩
  · rw [hother x (by omega)]
    exact hf.later x (by omega)
  · have hxi : x ≠ i := by
      rintro rfl
      omega
    rw [hother x hxi]
    exact hf.kept x (by omega) hpos
  · by_cases hxi : x = i
    · subst hxi
      refine ⟨s, by omega, hs, ?_⟩
      rw [Function.update_self, hother s (by omega)]
      exact hv.imp_left fun ⟨heq, hlt⟩ => ⟨heq, heq ▸ hlt⟩
    · obtain ⟨s', hs', hseq, hcase⟩ := hf.closed x (by omega) hneg
      refine ⟨s', hs', hseq, ?_⟩
      rwa [hother x hxi, hother s' (by omega)]

theorem FilledTo.filled (hf : FilledTo relax n (n - 1) g h) : Filled relax n g h :=
  ⟨fun i hi => hf.kept i (by omega), fun i hi => hf.closed i (by omega)⟩

end OpenHeads
