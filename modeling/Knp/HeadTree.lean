import Mathlib.Data.Finset.Lattice.Fold
import Mathlib.Logic.Relation
import Mathlib.Tactic.Common

/-!
# Trees given by heads

Each of the nodes `0 .. n-1` has a head, -1 for none. `IsTree` says that the
heads form a tree with the given root. If every other node has a head of higher
rank, they do.
-/

namespace HeadTree

open Relation (ReflTransGen)

variable {n root : Nat} {head : Nat → Int}

/-- `j` is the head of `i`. -/
def Arc (head : Nat → Int) (i j : Nat) : Prop := head i = j

/-- One root; the other heads are nodes, and lead to the root. -/
structure IsTree (n : Nat) (head : Nat → Int) (root : Nat) : Prop where
  root_lt : root < n
  head_root : head root = -1
  head_mem : ∀ i < n, i ≠ root → 0 ≤ head i ∧ head i < n
  reaches : ∀ i < n, ReflTransGen (Arc head) i root

/-- No node of a tree is its own head. -/
theorem IsTree.head_ne_self (h : IsTree n head root) {i : Nat} (hi : i < n) : head i ≠ i := by
  intro hself
  have hstay : ∀ j, ReflTransGen (Arc head) i j → j = i := by
    intro j hj
    induction hj with
    | refl => rfl
    | tail _ harc ih =>
        subst ih
        have : head _ = _ := harc
        omega
  obtain rfl := hstay root (h.reaches i hi)
  have := h.head_root
  omega

/-- Heads of higher rank lead to the root. -/
theorem isTree_of_rank (rank : Nat → Nat) (hroot : root < n) (hhead : head root = -1)
    (hup : ∀ i < n, i ≠ root → ∃ j < n, head i = j ∧ rank i < rank j) :
    IsTree n head root where
  root_lt := hroot
  head_root := hhead
  head_mem := by
    intro i hi hne
    obtain ⟨j, hj, hij, -⟩ := hup i hi hne
    omega
  reaches := by
    obtain ⟨top, htop⟩ : ∃ top, ∀ i < n, rank i ≤ top :=
      ⟨(Finset.range n).sup rank, fun i hi => Finset.le_sup (Finset.mem_range.mpr hi)⟩
    -- by induction on how far the rank is below the highest one
    have hreach : ∀ gap i, i < n → top - rank i ≤ gap → ReflTransGen (Arc head) i root := by
      intro gap
      induction gap with
      | zero =>
          intro i hi hgap
          by_cases hne : i = root
          · exact hne ▸ .refl
          · obtain ⟨j, hj, -, hlt⟩ := hup i hi hne
            have := htop j hj
            omega
      | succ gap ih =>
          intro i hi hgap
          by_cases hne : i = root
          · exact hne ▸ .refl
          · obtain ⟨j, hj, hij, hlt⟩ := hup i hi hne
            have := htop j hj
            exact (ih j hj (by omega)).head hij
    exact fun i hi => hreach _ i hi le_rfl

end HeadTree
