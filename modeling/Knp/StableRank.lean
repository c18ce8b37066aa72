import Mathlib.Data.List.Induction
import Mathlib.Data.List.Perm.Basic
import Mathlib.Order.Lattice
import Mathlib.Tactic.Common

/-!
# The stable ranking of a sequence

Elements come one after the other, and each goes behind those that are at least as high.

> The ranking is sorted, and elements of the same height stand in the order in which they came.

The first places after an insertion depend only on the first places before it.
-/

namespace StableRank

variable {α S : Type*} [LinearOrder S] (height : α → S)

/-- `x` goes in front of the first element that is lower. -/
def place (x : α) : List α → List α
  | [] => [x]
  | y :: l => if height y < height x then x :: y :: l else y :: place x l

def ranking (l : List α) : List α := l.foldl (fun r x => place height x r) []

/-- `r` is `l`, sorted from the highest on, and stable. -/
structure IsRanking (l r : List α) : Prop where
  perm : r.Perm l
  sorted : r.Pairwise fun a b => height b ≤ height a
  stable : ∀ h, r.filter (height · = h) = l.filter (height · = h)

variable {height} {x y : α} {l r : List α}

theorem place_perm (x : α) (l : List α) : (place height x l).Perm (x :: l) := by
  induction l with
  | nil => exact List.Perm.refl _
  | cons y l ih =>
      rw [place]
      split
      · exact List.Perm.refl _
      · exact (ih.cons y).trans (List.Perm.swap x y l)

theorem mem_place : y ∈ place height x l ↔ y = x ∨ y ∈ l := by
  rw [(place_perm x l).mem_iff, List.mem_cons]

theorem place_sorted (h : l.Pairwise fun a b => height b ≤ height a) :
    (place height x l).Pairwise fun a b => height b ≤ height a := by
  induction l with
  | nil => exact List.pairwise_singleton _ x
  | cons y l ih =>
      obtain ⟨hy, hl⟩ := List.pairwise_cons.mp h
      rw [place]
      split
      next hlt =>
        refine List.pairwise_cons.mpr ⟨?_, h⟩
        intro z hz
        rcases List.mem_cons.mp hz with rfl | hz
        · exact hlt.le
        · exact (hy z hz).trans hlt.le
      next hle =>
        refine List.pairwise_cons.mpr ⟨?_, ih hl⟩
        intro z hz
        rcases mem_place.mp hz with rfl | hz
        · exact not_lt.mp hle
        · exact hy z hz

/-- Behind the elements of its own height. -/
theorem filter_place (h : l.Pairwise fun a b => height b ≤ height a) (s : S) :
    (place height x l).filter (height · = s) = (l ++ [x]).filter (height · = s) := by
  induction l with
  | nil => rfl
  | cons y l ih =>
      obtain ⟨hy, hl⟩ := List.pairwise_cons.mp h
      rw [place]
      split
      next hlt =>
        -- no other element is as high as `x`
        have hlow : ∀ z ∈ y :: l, height z < height x := by
          intro z hz
          rcases List.mem_cons.mp hz with rfl | hz
          · exact hlt
          · exact (hy z hz).trans_lt hlt
        rw [List.filter_append, List.filter_cons, List.filter_singleton]
        by_cases hs : height x = s
        · have hnone : (y :: l).filter (height · = s) = [] := by
            refine List.filter_eq_nil_iff.mpr ?_
            intro z hz hzs
            exact (hlow z hz).ne ((of_decide_eq_true hzs).trans hs.symm)
          rw [hnone, decide_eq_true hs]
          rfl
        · rw [decide_eq_false hs]
          exact (List.append_nil _).symm
      next =>
        rw [List.cons_append, List.filter_cons, List.filter_cons, ih hl]

theorem IsRanking.nil : IsRanking height [] [] :=
  ⟨List.Perm.refl _, List.Pairwise.nil, fun _ => rfl⟩

theorem IsRanking.place (h : IsRanking height l r) (x : α) :
    IsRanking height (l ++ [x]) (place height x r) where
  perm := (place_perm x r).trans
    ((h.perm.cons x).trans (List.perm_append_singleton x l).symm)
  sorted := place_sorted h.sorted
  stable s := by
    rw [filter_place h.sorted, List.filter_append, h.stable, List.filter_append]

theorem ranking_append (l : List α) (x : α) :
    ranking height (l ++ [x]) = place height x (ranking height l) := by
  rw [ranking, List.foldl_append]
  rfl

theorem ranking_isRanking (height : α → S) (l : List α) :
    IsRanking height l (ranking height l) := by
  induction l using List.reverseRecOn with
  | nil => exact IsRanking.nil
  | append_singleton l x ih =>
      rw [ranking_append]
      exact ih.place x

theorem take_place (n : Nat) (x : α) (l : List α) :
    (place height x (l.take n)).take n = (place height x l).take n := by
  induction l generalizing n with
  | nil => rw [List.take_nil]
  | cons y l ih =>
      cases n with
      | zero => rfl
      | succ n =>
          rw [List.take_succ_cons, place, place]
          split
          · cases n with
            | zero => rfl
            | succ n => rw [List.take_succ_cons, List.take_succ_cons, List.take_succ_cons,
                List.take_succ_cons, List.take_take, Nat.min_eq_left (Nat.le_succ n)]
          · rw [List.take_succ_cons, List.take_succ_cons, ih]

/-- The elements in front of the new one, and those behind it. -/
theorem place_eq_append (height : α → S) (x : α) (l : List α) : ∃ front back, l = front ++ back ∧
    place height x l = front ++ x :: back ∧ (∀ y ∈ front, height x ≤ height y) ∧
      ∀ y ∈ back.head?, height y < height x := by
  induction l with
  | nil =>
      refine ⟨[], [], rfl, rfl, ?_, ?_⟩
      · intro y hy
        cases hy
      · intro y hy
        cases hy
  | cons y l ih =>
      rw [place]
      split
      next hlt =>
        refine ⟨[], y :: l, rfl, rfl, ?_, ?_⟩
        · intro z hz
          cases hz
        · intro z hz
          obtain rfl := Option.some.inj hz
          exact hlt
      next hle =>
        obtain ⟨front, back, hl, hplace, hfront, hback⟩ := ih
        refine ⟨y :: front, back, congrArg (y :: ·) hl, congrArg (y :: ·) hplace, ?_, hback⟩
        intro z hz
        rcases List.mem_cons.mp hz with rfl | hz
        · exact not_lt.mp hle
        · exact hfront z hz

end StableRank
