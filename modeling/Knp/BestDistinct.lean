import Mathlib.Data.List.Basic
import Mathlib.Order.Lattice

/-!
# The best distinct elements

Of the elements that have come, those with the best scores are kept, at most `limit` of them,
in the order of their scores and none twice.

> A new element takes its place among those that are kept, and the last one is given up if there
> are too many. One that is there already changes nothing if its score is no better.
-/

namespace BestDistinct

variable {α S : Type*} [LinearOrder S]

/-- What is kept of the elements seen; `same` is the equality that counts. -/
structure BestOf (same : α → α → Prop) (score : α → S) (limit : Nat) (seen kept : List α) :
    Prop where
  sorted : kept.Pairwise fun a b => score b ≤ score a
  length_le : kept.length ≤ limit
  distinct : kept.Pairwise fun a b => ¬same a b
  mem : ∀ a ∈ kept, a ∈ seen
  best : ∀ c ∈ seen, (∃ a ∈ kept, same a c ∧ score c ≤ score a) ∨
    kept.length = limit ∧ ∀ a ∈ kept, score c ≤ score a

variable {same : α → α → Prop} {score : α → S} {limit : Nat} {seen kept l₁ l₂ : List α} {c : α}

theorem BestOf.nil (same : α → α → Prop) (score : α → S) (limit : Nat) :
    BestOf same score limit [] [] :=
  ⟨.nil, Nat.zero_le limit, .nil, List.forall_mem_nil _, List.forall_mem_nil _⟩

/-- One that is there with a score as good. -/
theorem BestOf.again (h : BestOf same score limit seen kept)
    (hc : ∃ a ∈ kept, same a c ∧ score c ≤ score a) :
    BestOf same score limit (seen ++ [c]) kept := by
  refine ⟨h.sorted, h.length_le, h.distinct, fun a ha => List.mem_append_left _ (h.mem a ha),
    fun x hx => ?_⟩
  rcases List.mem_append.mp hx with hx | hx
  · exact h.best x hx
  · rw [List.mem_singleton.mp hx]
    exact .inl hc

theorem sorted_insert (h : (l₁ ++ l₂).Pairwise fun a b => score b ≤ score a)
    (hfront : ∀ a ∈ l₁, score c ≤ score a) (hback : ∀ a ∈ l₂, score a ≤ score c) :
    (l₁ ++ c :: l₂).Pairwise fun a b => score b ≤ score a := by
  obtain ⟨h₁, h₂, hcross⟩ := List.pairwise_append.mp h
  refine List.pairwise_append.mpr ⟨h₁, List.pairwise_cons.mpr ⟨hback, h₂⟩, fun a ha b hb => ?_⟩
  rcases List.mem_cons.mp hb with rfl | hb
  · exact hfront a ha
  · exact hcross a ha b hb

theorem distinct_insert (hsymm : ∀ a b, same a b → same b a)
    (h : (l₁ ++ l₂).Pairwise fun a b => ¬same a b) (hnew : ∀ a ∈ l₁ ++ l₂, ¬same a c) :
    (l₁ ++ c :: l₂).Pairwise fun a b => ¬same a b := by
  obtain ⟨h₁, h₂, hcross⟩ := List.pairwise_append.mp h
  have hback : ∀ a ∈ l₂, ¬same c a := fun a ha hca =>
    hnew a (List.mem_append_right _ ha) (hsymm c a hca)
  refine List.pairwise_append.mpr ⟨h₁, List.pairwise_cons.mpr ⟨hback, h₂⟩, fun a ha b hb => ?_⟩
  rcases List.mem_cons.mp hb with rfl | hb
  · exact hnew a (List.mem_append_left _ ha)
  · exact hcross a ha b hb

/-- **A new one, at its place.** -/
theorem BestOf.insert (hrefl : same c c) (hsymm : ∀ a b, same a b → same b a)
    (h : BestOf same score limit seen (l₁ ++ l₂)) (hnew : ∀ a ∈ l₁ ++ l₂, ¬same a c)
    (hfront : ∀ a ∈ l₁, score c ≤ score a) (hback : ∀ a ∈ l₂, score a ≤ score c) :
    BestOf same score limit (seen ++ [c]) ((l₁ ++ c :: l₂).take limit) := by
  have hsorted := sorted_insert h.sorted hfront hback
  have hlen : (l₁ ++ c :: l₂).length = (l₁ ++ l₂).length + 1 := by
    rw [List.length_append, List.length_append, List.length_cons, Nat.add_assoc]
  have hmem : ∀ a ∈ l₁ ++ l₂, a ∈ l₁ ++ c :: l₂ := fun a ha =>
    List.mem_append.mpr ((List.mem_append.mp ha).imp_right (List.mem_cons_of_mem c))
  -- what is given up is no better than what is kept, and then all places are taken
  have hgiven : ∀ a ∈ l₁ ++ c :: l₂, a ∈ (l₁ ++ c :: l₂).take limit ∨
      ((l₁ ++ c :: l₂).take limit).length = limit ∧
        ∀ b ∈ (l₁ ++ c :: l₂).take limit, score a ≤ score b := by
    intro a ha
    rw [← List.take_append_drop limit (l₁ ++ c :: l₂)] at ha hsorted
    rcases List.mem_append.mp ha with ha | ha
    · exact .inl ha
    · have hlong := List.length_pos_of_mem ha
      rw [List.length_drop] at hlong
      refine .inr ⟨List.length_take_of_le (by omega), fun b hb => ?_⟩
      exact (List.pairwise_append.mp hsorted).2.2 b hb a ha
  refine ⟨hsorted.sublist (List.take_sublist _ _), List.length_take_le _ _,
    (distinct_insert hsymm h.distinct hnew).sublist (List.take_sublist _ _), fun a ha => ?_,
    fun x hx => ?_⟩
  · rcases List.mem_append.mp (List.mem_of_mem_take ha) with ha | ha
    · exact List.mem_append_left _ (h.mem a (List.mem_append_left _ ha))
    · rcases List.mem_cons.mp ha with rfl | ha
      · exact List.mem_append_right _ (List.mem_singleton_self a)
      · exact List.mem_append_left _ (h.mem a (List.mem_append_right _ ha))
  · rcases List.mem_append.mp hx with hx | hx
    · rcases h.best x hx with ⟨a, ha, hsame, hle⟩ | ⟨hfull, hle⟩
      · rcases hgiven a (hmem a ha) with hkept | ⟨hall, hbetter⟩
        · exact .inl ⟨a, hkept, hsame, hle⟩
        · exact .inr ⟨hall, fun b hb => hle.trans (hbetter b hb)⟩
      · refine .inr ⟨List.length_take_of_le (by omega), fun b hb => ?_⟩
        cases l₂ with
        | nil =>
            rw [List.append_nil] at hfull hle
            rw [List.take_left' hfull] at hb
            exact hle b hb
        | cons a l₂ =>
            have hca : score x ≤ score c :=
              (hle a (List.mem_append_right _ List.mem_cons_self)).trans (hback a List.mem_cons_self)
            rcases List.mem_append.mp (List.mem_of_mem_take hb) with hb | hb
            · exact hle b (List.mem_append_left _ hb)
            · rcases List.mem_cons.mp hb with rfl | hb
              · exact hca
              · exact hle b (List.mem_append_right _ hb)
    · rw [List.mem_singleton.mp hx]
      rcases hgiven c (List.mem_append_right _ List.mem_cons_self) with hkept | hfull
      · exact .inl ⟨c, hkept, hrefl, le_rfl⟩
      · exact .inr hfull

end BestDistinct
