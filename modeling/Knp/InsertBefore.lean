import Mathlib.Data.List.Sort
import Mathlib.Order.Lattice

/-!
# Insertion in front of the first greater one

A list is sorted by inserting its elements one after the other, each in front of the first one
that is greater, or at the end. Without the end only those below the first element come in.

> What is inserted that way is sorted; without the end it is the first element and those below.
-/

namespace InsertBefore

variable {α : Type*} [LinearOrder α]

/-- In front of the first greater element, or at the end. -/
def insertBefore (n : α) (l : List α) : List α := l.insertIdx (l.findIdx (n < ·)) n

/-- In front of the first greater element, if there is one. -/
def insertInside (n : α) (l : List α) : List α :=
  if l.any (n < ·) then insertBefore n l else l

variable {l ns : List α} {m n : α}

theorem insertBefore_cons_of_lt (h : n < m) (l : List α) :
    insertBefore n (m :: l) = n :: m :: l := by
  rw [insertBefore, List.findIdx_cons, decide_eq_true h]
  rfl

theorem insertBefore_cons_of_le (h : m ≤ n) (l : List α) :
    insertBefore n (m :: l) = m :: insertBefore n l := by
  rw [insertBefore, List.findIdx_cons, decide_eq_false h.not_gt]
  rfl

theorem insertBefore_perm (n : α) (l : List α) : (insertBefore n l).Perm (n :: l) := by
  induction l with
  | nil => exact List.Perm.refl _
  | cons m l ih =>
      rcases lt_or_ge n m with h | h
      · rw [insertBefore_cons_of_lt h]
      · rw [insertBefore_cons_of_le h]
        exact (ih.cons m).trans (List.Perm.swap n m l)

theorem insertBefore_sorted (n : α) (h : l.Pairwise (· ≤ ·)) :
    (insertBefore n l).Pairwise (· ≤ ·) := by
  induction l with
  | nil => exact List.pairwise_singleton _ _
  | cons m l ih =>
      obtain ⟨hm, hl⟩ := List.pairwise_cons.mp h
      rcases lt_or_ge n m with hlt | hge
      · rw [insertBefore_cons_of_lt hlt]
        refine List.pairwise_cons.mpr ⟨fun k hk => ?_, h⟩
        rcases List.mem_cons.mp hk with rfl | hk
        · exact hlt.le
        · exact hlt.le.trans (hm k hk)
      · rw [insertBefore_cons_of_le hge]
        refine List.pairwise_cons.mpr ⟨fun k hk => ?_, ih hl⟩
        rcases List.mem_cons.mp ((insertBefore_perm n l).mem_iff.mp hk) with rfl | hk
        · exact hge
        · exact hm k hk

/-! ## All elements -/

theorem foldl_insertBefore (ns : List α) (h : l.Pairwise (· ≤ ·)) :
    (ns.foldl (fun l n => insertBefore n l) l).Pairwise (· ≤ ·) ∧
      (ns.foldl (fun l n => insertBefore n l) l).Perm (l ++ ns) := by
  induction ns generalizing l with
  | nil => exact ⟨h, List.Perm.of_eq (List.append_nil l).symm⟩
  | cons n ns ih =>
      obtain ⟨hsorted, hperm⟩ := ih (insertBefore_sorted n h)
      refine ⟨hsorted, hperm.trans ?_⟩
      exact ((insertBefore_perm n l).append_right ns).trans List.perm_middle.symm

/-- The greatest element stays the one at the start. -/
theorem foldl_insertInside (ns : List α) (h : l.Pairwise (· ≤ ·)) (hm : m ∈ l)
    (hmax : ∀ k ∈ l, k ≤ m) :
    (ns.foldl (fun l n => insertInside n l) l).Pairwise (· ≤ ·) ∧
      (ns.foldl (fun l n => insertInside n l) l).Perm (l ++ ns.filter (· < m)) := by
  induction ns generalizing l with
  | nil => exact ⟨h, List.Perm.of_eq (List.append_nil l).symm⟩
  | cons n ns ih =>
      rw [List.foldl_cons]
      by_cases hlt : n < m
      · have hany : l.any (n < ·) = true := List.any_eq_true.mpr ⟨m, hm, decide_eq_true hlt⟩
        have hins : insertInside n l = insertBefore n l := if_pos hany
        have hmem : ∀ k, k ∈ insertBefore n l ↔ k = n ∨ k ∈ l := fun k =>
          (insertBefore_perm n l).mem_iff.trans List.mem_cons
        have hfilter : (n :: ns).filter (· < m) = n :: ns.filter (· < m) :=
          List.filter_cons_of_pos (decide_eq_true hlt)
        rw [hins, hfilter]
        obtain ⟨hsorted, hperm⟩ := ih (insertBefore_sorted n h) ((hmem m).mpr (Or.inr hm))
          fun k hk => ((hmem k).mp hk).elim (fun heq => heq ▸ hlt.le) (hmax k)
        refine ⟨hsorted, hperm.trans ?_⟩
        exact ((insertBefore_perm n l).append_right _).trans List.perm_middle.symm
      · have hany : ¬l.any (n < ·) = true := by
          rw [List.any_eq_true]
          rintro ⟨k, hk, hnk⟩
          exact hlt ((of_decide_eq_true hnk).trans_le (hmax k hk))
        have hins : insertInside n l = l := if_neg hany
        have hfilter : (n :: ns).filter (· < m) = ns.filter (· < m) :=
          List.filter_cons_of_neg fun h => hlt (of_decide_eq_true h)
        rw [hins, hfilter]
        exact ih h hm hmax

end InsertBefore
