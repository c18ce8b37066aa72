import Mathlib.Data.List.Induction
import Mathlib.Data.List.Lex
import Mathlib.Logic.Relation

/-!
# Walks through child lists

A walk from a node takes one place of a child list after the other.

> In a tree each node is found by one walk only (`IsTree.follow_inj`). The walks
> list the nodes of a tree in their order: a node before its children, and a
> child with all below it before the next child.
-/

namespace Walks

variable {α : Type*} {kids kids' : α → List α} {root p q x : α} {w w' : List Nat}

/-- `x` lies below `p`. -/
def Reach (kids : α → List α) : α → α → Prop := Relation.ReflTransGen fun p x => x ∈ kids p

/-- The node that the places of a walk lead to. -/
def follow (kids : α → List α) (p : α) (w : List Nat) : Option α :=
  w.foldlM (fun p i => (kids p)[i]?) p

/-- Each node stands once in the lists, and the root in none. -/
structure IsTree (kids : α → List α) (root : α) : Prop where
  nodup : ∀ p, (kids p).Nodup
  once : ∀ p q x, x ∈ kids p → x ∈ kids q → p = q
  root_free : ∀ p, root ∉ kids p

@[simp] theorem follow_nil : follow kids p [] = some p := rfl

theorem follow_append (w v : List Nat) :
    follow kids p (w ++ v) = (follow kids p w).bind fun q => follow kids q v := by
  unfold follow
  rw [List.foldlM_append]
  rfl

theorem follow_snoc (w : List Nat) (i : Nat) :
    follow kids p (w ++ [i]) = (follow kids p w).bind fun q => (kids q)[i]? := by
  rw [follow_append]
  refine Option.bind_congr fun q _ => ?_
  show ((kids q)[i]?).bind some = _
  exact Option.bind_fun_some _

theorem follow_snoc_eq_some {i : Nat} : follow kids p (w ++ [i]) = some x ↔
    ∃ q, follow kids p w = some q ∧ (kids q)[i]? = some x := by
  rw [follow_snoc]
  exact Option.bind_eq_some_iff

theorem reach_iff_follow : Reach kids p x ↔ ∃ w, follow kids p w = some x := by
  constructor
  · intro h
    induction h with
    | refl => exact ⟨[], rfl⟩
    | tail _ hx ih =>
        obtain ⟨w, hw⟩ := ih
        obtain ⟨i, hi⟩ := List.mem_iff_getElem?.mp hx
        exact ⟨w ++ [i], follow_snoc_eq_some.mpr ⟨_, hw, hi⟩⟩
  · rintro ⟨w, hw⟩
    induction w using List.reverseRecOn generalizing x with
    | nil =>
        obtain rfl := Option.some.inj hw
        exact .refl
    | append_singleton w i ih =>
        obtain ⟨q, hq, hx⟩ := follow_snoc_eq_some.mp hw
        exact (ih hq).tail (List.mem_of_getElem? hx)

namespace IsTree

theorem reach_parent (h : IsTree kids root) (hx : Reach kids root x) (hmem : x ∈ kids p) :
    Reach kids root p := by
  rcases Relation.ReflTransGen.cases_tail hx with rfl | ⟨q, hq, hqx⟩
  · exact absurd hmem (h.root_free p)
  · rwa [h.once p q x hmem hqx]

theorem follow_inj (h : IsTree kids root) (hw : follow kids root w = some x)
    (hw' : follow kids root w' = some x) : w = w' := by
  induction w using List.reverseRecOn generalizing x w' with
  | nil =>
      obtain rfl := Option.some.inj hw
      rcases List.eq_nil_or_concat' w' with rfl | ⟨u, j, rfl⟩
      · rfl
      · obtain ⟨q, -, hq⟩ := follow_snoc_eq_some.mp hw'
        exact absurd (List.mem_of_getElem? hq) (h.root_free q)
  | append_singleton w i ih =>
      obtain ⟨p, hp, hpx⟩ := follow_snoc_eq_some.mp hw
      rcases List.eq_nil_or_concat' w' with rfl | ⟨u, j, rfl⟩
      · obtain rfl := Option.some.inj hw'
        exact absurd (List.mem_of_getElem? hpx) (h.root_free p)
      · obtain ⟨q, hq, hqx⟩ := follow_snoc_eq_some.mp hw'
        obtain rfl := h.once p q x (List.mem_of_getElem? hpx) (List.mem_of_getElem? hqx)
        have hlt := (List.getElem?_eq_some_iff.mp hpx).1
        rw [ih hp hq, (List.getElem?_inj hlt (h.nodup p)).mp (hpx.trans hqx.symm)]

end IsTree

/-! ## The order of walks -/

theorem lt_snoc (w : List Nat) (i : Nat) : w < w ++ [i] := by
  induction w with
  | nil => exact List.Lex.nil
  | cons a w ih => exact List.Lex.cons ih

/-- What lies below one place comes before the next places. -/
theorem below_lt (w v : List Nat) {i j : Nat} (h : i < j) : w ++ i :: v < w ++ [j] := by
  induction w with
  | nil => exact List.Lex.rel h
  | cons a w ih => exact List.Lex.cons ih

end Walks
