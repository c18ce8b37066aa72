import Mathlib.Algebra.Order.Ring.Int
import Mathlib.Data.Nat.Find

/-!
# Bracket pairs by levels

A word of brackets and other letters is the weight of each position: 1 where a bracket opens,
-1 where one closes, and 0 elsewhere. Its level may be negative. Two brackets are a pair where
the level is above that of the first until the second, also in words with brackets that have
no partner.
-/

namespace BracketPairs

/-- The brackets that have been opened less those that have been closed in front of `i`. -/
def levelAt (w : Nat → Int) : Nat → Int
  | 0 => 0
  | i + 1 => levelAt w i + w i

structure Pair (w : Nat → Int) (s e : Nat) : Prop where
  opens : w s = 1
  closes : w e = -1
  lt : s < e
  back : levelAt w (e + 1) = levelAt w s
  above : ∀ k, s < k → k ≤ e → levelAt w s < levelAt w k

/-- A pair that stands in no other pair. -/
structure Outer (w : Nat → Int) (s e : Nat) : Prop where
  pair : Pair w s e
  maximal : ∀ s' e', Pair w s' e' → s' < s → ¬e < e'

variable {w : Nat → Int} {s e s' e' i : Nat}

theorem Pair.end_unique (h : Pair w s e) (h' : Pair w s e') : e = e' := by
  by_contra hne
  rcases Nat.lt_or_gt_of_ne hne with hlt | hlt
  · exact (h.back ▸ h'.above (e + 1) (by have := h.lt; omega) hlt).false
  · exact (h'.back ▸ h.above (e' + 1) (by have := h'.lt; omega) hlt).false

/-- The brackets of a pair in another one stand at a higher level. -/
theorem Pair.level_lt (h : Pair w s e) (hs : s < s') (he : s' ≤ e) : levelAt w s < levelAt w s' :=
  h.above s' hs he

/-- A pair at level 0 is in no other pair that is at level 0 or in one. -/
theorem Outer.of_level_zero (hzero : ∀ s e, Outer w s e → s + 1 < e → levelAt w s = 0)
    (h : Pair w s e) (hs : levelAt w s = 0) : Outer w s e := by
  refine ⟨h, fun s' e' h' hs' he' => ?_⟩
  -- the first of the pairs around this one is outermost
  have hex : ∃ p, ∃ q, Pair w p q ∧ p < s ∧ e < q := ⟨s', e', h', hs', he'⟩
  classical
  obtain ⟨q, hpair, hp, hq⟩ := Nat.find_spec hex
  have houter : Outer w (Nat.find hex) q := by
    refine ⟨hpair, fun p' q' hpair' hp' hq' => ?_⟩
    exact Nat.find_min hex hp' ⟨q', hpair', hp'.trans hp, hq.trans hq'⟩
  have hlevel := hzero _ _ houter (by have := h.lt; omega)
  have := hpair.level_lt hp (h.lt.le.trans hq.le)
  omega

/-- No pair is around a bracket at level 0 if no bracket is closed too early in front of it. -/
theorem Outer.of_nonneg (h : Pair w s e) (hs : levelAt w s = 0)
    (hnonneg : ∀ k < s, 0 ≤ levelAt w k) : Outer w s e := by
  refine ⟨h, fun s' e' h' hs' he' => ?_⟩
  have hlt := h'.level_lt hs' (h.lt.le.trans he'.le)
  exact absurd (hnonneg s' hs') (by omega)

instance : Decidable (Pair w s e) :=
  decidable_of_iff (w s = 1 ∧ w e = -1 ∧ s < e ∧ levelAt w (e + 1) = levelAt w s ∧
      ∀ k < e + 1, s < k → levelAt w s < levelAt w k)
    ⟨fun h => ⟨h.1, h.2.1, h.2.2.1, h.2.2.2.1, fun k hk hke => h.2.2.2.2 k (by omega) hk⟩,
      fun h => ⟨h.opens, h.closes, h.lt, h.back, fun k hk hsk => h.above k hsk (by omega)⟩⟩

end BracketPairs
