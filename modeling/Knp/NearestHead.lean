import Mathlib.Tactic.Common

/-!
# Nearest heads from right to left

Nodes get heads to their right among allowed ones, so that no two arcs cross.
A pass from right to left gives each node the nearest head that no arc passes
over.

> If there is a non-crossing choice of heads at all, then the pass finds one: it
> leaves free what any other choice leaves free.
-/

namespace NearestHead

/-- Of two arcs, the one that begins inside the other ends there. -/
def NonCrossing (arcs : List (Nat × Nat)) : Prop :=
  ∀ p ∈ arcs, ∀ q ∈ arcs, p.1 < q.1 → q.1 < p.2 → q.2 ≤ p.2

/-- Every node of `S` has an allowed head behind it up to `stop`, and no two of
the arcs cross. -/
structure Heads (S : Nat → Prop) (allowed : Nat → Nat → Prop) (stop : Nat) (h : Nat → Nat) :
    Prop where
  right : ∀ i, S i → i < h i ∧ h i ≤ stop
  allowed : ∀ i, S i → allowed i (h i)
  nested : ∀ a b, S a → S b → a < b → b < h a → h b ≤ h a

/-- No arc from `i` on passes over node `k`. -/
def Visible (S : Nat → Prop) (h : Nat → Nat) (i k : Nat) : Prop :=
  ∀ a, i ≤ a → S a → a < k → h a ≤ k

variable {S : Nat → Prop} {allowed : Nat → Nat → Prop} {stop i j k : Nat} {h : Nat → Nat}
  {free free' : Nat → Bool} {arcs : List (Nat × Nat)}

theorem Visible.mono (hv : Visible S h i k) (hij : i ≤ j) : Visible S h j k :=
  fun a ha hS hak => hv a (Nat.le_trans hij ha) hS hak

theorem Heads.visible_head (hh : Heads S allowed stop h) (hi : S i) :
    Visible S h (i + 1) (h i) :=
  fun a ha hS hak => hh.nested i a hi hS ha hak

/-! ## What the pass leaves free -/

/-- What the heads from `i` on leave free is free. -/
def Keeps (S : Nat → Prop) (h : Nat → Nat) (stop i : Nat) (free : Nat → Bool) : Prop :=
  ∀ k, k ≤ stop → Visible S h i k → free k = true

/-- `free` without the nodes between `i` and `j`. -/
structure Covers (i j : Nat) (free free' : Nat → Bool) : Prop where
  inside : ∀ k, i < k → k < j → free' k = false
  outside : ∀ k, k ≤ i ∨ j ≤ k → free' k = free k

theorem Keeps.skip (hk : Keeps S h stop (i + 1) free) : Keeps S h stop i free :=
  fun k hks hv => hk k hks (hv.mono (Nat.le_succ i))

/-- A head that is at least as near keeps at least as much free. -/
theorem Keeps.take (hk : Keeps S h stop (i + 1) free) (hi : S i) (hj : j ≤ h i)
    (hc : Covers i j free free') : Keeps S h stop i free' := by
  intro k hks hv
  have hout : k ≤ i ∨ j ≤ k := by
    rcases Nat.lt_or_ge i k with hik | hik
    · exact .inr (Nat.le_trans hj (hv i (Nat.le_refl i) hi hik))
    · exact .inl hik
  rw [hc.outside k hout]
  exact hk.skip k hks hv

/-! ## The arcs of the pass -/

/-- The arcs begin at `i` or behind it, do not cross, and pass over no free node. -/
structure Recorded (i : Nat) (free : Nat → Bool) (arcs : List (Nat × Nat)) : Prop where
  from_le : ∀ p ∈ arcs, i ≤ p.1
  shown : ∀ k, free k = true → ∀ p ∈ arcs, p.1 < k → p.2 ≤ k
  nested : NonCrossing arcs

theorem recorded_nil (i : Nat) (free : Nat → Bool) : Recorded i free [] where
  from_le := by simp
  shown := by simp
  nested := by simp [NonCrossing]

/-- A node without an arc. -/
theorem Recorded.skip (hr : Recorded (i + 1) free arcs) (hfree : ∀ k, free' k = true → free k = true) :
    Recorded i free' arcs where
  from_le := fun p hp => Nat.le_trans (Nat.le_succ i) (hr.from_le p hp)
  shown := fun k hk => hr.shown k (hfree k hk)
  nested := hr.nested

/-- An arc to a free node. -/
theorem Recorded.take (hr : Recorded (i + 1) free arcs) (hj : free j = true)
    (hc : Covers i j free free') : Recorded i free' ((i, j) :: arcs) where
  from_le := by
    intro p hp
    rcases List.mem_cons.mp hp with rfl | hp
    · exact Nat.le_refl i
    · exact Nat.le_trans (Nat.le_succ i) (hr.from_le p hp)
  shown := by
    intro k hk p hp hpk
    have hout : k ≤ i ∨ j ≤ k := by
      by_contra hin
      have := hc.inside k (by omega) (by omega)
      simp [this] at hk
    rcases List.mem_cons.mp hp with rfl | hp
    · exact hout.resolve_left (Nat.not_le.mpr hpk)
    · exact hr.shown k (hc.outside k hout ▸ hk) p hp hpk
  nested := by
    intro p hp q hq hpq hqp
    rcases List.mem_cons.mp hp with rfl | hp <;> rcases List.mem_cons.mp hq with rfl | hq
    · exact Nat.le_refl _
    · exact hr.shown j hj q hq hqp
    · have := hr.from_le p hp
      simp only at hpq
      omega
    · exact hr.nested p hp q hq hpq hqp

end NearestHead
