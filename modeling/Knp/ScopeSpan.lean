import Mathlib.Data.Fintype.EquivFin
import Knp.ScopeForest

/-!
# Widening groups to their first and last children

Every group of a least forest has bounds of its own, and is widened to the left
by the child that was attached first, to the right by the one attached last.

> A group reaches exactly as far right as the scopes below it, so the last child
> decides for all of them; on the left, the tree of a later child begins after
> the group or after its first child.
-/

namespace LeastForest

open Relation Scopes ScopeGroups

/-- The bounds of the groups of a forest, each widened by two of its children. -/
structure Widening {ι : Type*} [Fintype ι] {S : Scopes ι} {G : ScopeGroups S}
    (F : LeastForest G) where
  /-- Where the last scope listed for a group stops. -/
  fin : ι → ℕ
  first : ι → Option ι
  last : ι → Option ι
  left : ι → ℕ
  right : ι → ℕ
  fin_mem : ∀ P, G.root P = P → ∃ z, G.Member P z ∧ fin P = S.stop z
  stop_le_fin : ∀ x, S.stop x ≤ fin (G.root x)
  first_upper : ∀ P C, G.root P = P → first P = some C → F.upper C = some P
  first_le : ∀ P D, F.upper D = some P →
    ∃ C, first P = some C ∧ (D = C ∨ S.key (F.att C) < S.key (F.att D))
  last_upper : ∀ P C, G.root P = P → last P = some C → F.upper C = some P
  last_le : ∀ P D, F.upper D = some P →
    ∃ C, last P = some C ∧ (C = D ∨ S.key (F.att D) < S.key (F.att C))
  left_eq : ∀ P, G.root P = P →
    left P = (first P).elim (S.start P) fun C => min (S.start P) (left C)
  right_eq : ∀ P, G.root P = P →
    right P = (last P).elim (fin P) fun C => max (fin P) (right C)

variable {ι : Type*} [Fintype ι] {S : Scopes ι} {G : ScopeGroups S} {F : LeastForest G}
  {C D P X x z : ι}

/-- A property that is handed from the children to their parent holds of all groups. -/
theorem child_induction (F : LeastForest G) {motive : ι → Prop}
    (step : ∀ P, (∀ C, F.upper C = some P → motive C) → motive P) (P : ι) : motive P := by
  let below (C P : ι) : Prop := rank S C < rank S P
  have : IsTrans ι below := ⟨fun _ _ _ h h' => lt_trans h h'⟩
  have : Std.Irrefl below := ⟨fun C => lt_irrefl (rank S C)⟩
  have hwf : WellFounded below := Finite.wellFounded_of_trans_of_irrefl below
  induction P using hwf.induction with
  | _ P ih => exact step P fun C hC => ih C (F.rank_lt hC)

namespace Widening

variable (W : F.Widening)

theorem left_le_start (hP : G.root P = P) : W.left P ≤ S.start P := by
  rw [W.left_eq P hP]
  cases W.first P with
  | none => exact le_rfl
  | some C => exact min_le_left _ _

theorem fin_le_right (hP : G.root P = P) : W.fin P ≤ W.right P := by
  rw [W.right_eq P hP]
  cases W.last P with
  | none => exact le_rfl
  | some C => exact le_max_left _ _

/-- The left bound is the start of a group in the tree. -/
theorem exists_start (hP : G.root P = P) : ∃ X, F.InTree P X ∧ W.left P = S.start X := by
  induction P using F.child_induction with
  | step P ih =>
      rw [W.left_eq P hP]
      cases hC : W.first P with
      | none => exact ⟨P, .refl, rfl⟩
      | some C =>
          have hup := W.first_upper P C hP hC
          rcases le_total (S.start P) (W.left C) with hle | hle
          · exact ⟨P, .refl, min_eq_left hle⟩
          · obtain ⟨X, hX, heq⟩ := ih C hup (F.root_of_upper hup)
            exact ⟨X, .head hup hX, (min_eq_right hle).trans heq⟩

/-- **Left bounds.** The left bound of a group is no greater than its children's. -/
theorem left_le (hC : F.upper C = some P) : W.left P ≤ W.left C := by
  have hP := F.root_of_upper_eq hC
  obtain ⟨D, hD, hle⟩ := W.first_le P C hC
  have hDP := W.first_upper P D hP hD
  have hfirst : W.left P ≤ W.left D := by
    rw [W.left_eq P hP, hD]
    exact min_le_right _ _
  rcases hle with rfl | hlt
  · exact hfirst
  · obtain ⟨X, hX, heq⟩ := W.exists_start (F.root_of_upper hC)
    rw [heq]
    rcases F.start_le_of_inTree hDP hC hlt hX with h | h
    · exact (W.left_le_start hP).trans h
    · exact (hfirst.trans (W.left_le_start (F.root_of_upper hDP))).trans h

/-- The right bound covers everything that is reached from the group. -/
theorem stop_le_right (hP : G.root P = P) (hx : ReflTransGen S.Down P x) :
    S.stop x ≤ W.right P := by
  induction P using F.child_induction generalizing x with
  | step P ih =>
      obtain ⟨a, ha, hlast⟩ := G.exists_last hP
      have haP : S.stop a ≤ W.right P := (ha ▸ W.stop_le_fin a).trans (W.fin_le_right hP)
      rcases G.root_path_cases a (ha.symm ▸ hx) with h | hax
      · exact h.trans ((S.key_lt_stop a).le.trans haP)
      rcases reflTransGen_iff_eq_or_transGen.mp hax with rfl | hax
      · exact haP
      rcases path_cases hax with hin | ⟨t, hat, ht, htx⟩
      · have hlt := (key_lt_of_path hax).trans_le (S.start_le_key x)
        exact (stop_le_of_key_lt hlt hin).trans haP
      · -- beyond the group, the last child decides
        have htP : G.root t ≠ P := fun h => absurd (hlast t h) (not_le.mpr hat.key_lt)
        obtain ⟨D, hD, hpath⟩ := F.exists_child_path ha hlast hat ht htP
        obtain ⟨C, hC, hle⟩ := W.last_le P D hD
        have hup := W.last_upper P C hP hC
        have hCt := hpath C hup (hle.symm)
        have hright := ih C hup (F.root_of_upper hup) (hCt.trans htx)
        rw [W.right_eq P hP, hC]
        exact hright.trans (le_max_right _ _)

/-- A bound that is reached below a child is reached below its parent, or lies
before the parent's end. -/
theorem reached_of_child (hC : F.upper C = some P) (hx : ReflTransGen S.Down C x) :
    ReflTransGen S.Down P x ∨ S.stop x ≤ W.fin P := by
  obtain ⟨hc, y, hy, hb⟩ := F.upper_att C P hC
  rcases hb with hb | hb
  · have hstop := Member.stop_le (Or.inl hc) hb hx
    exact Or.inr (hstop.trans ((S.key_lt_stop y).le.trans (hy ▸ W.stop_le_fin y)))
  · have hyC : S.Under y C := hc ▸ G.under_root hb
    exact Or.inl (((hy ▸ G.path_root y : ReflTransGen S.Down P y).tail hyC.1).trans hx)

/-- The right bound is reached. -/
theorem exists_stop (hP : G.root P = P) :
    ∃ x, ReflTransGen S.Down P x ∧ W.right P = S.stop x := by
  induction P using F.child_induction with
  | step P ih =>
      obtain ⟨z, hz, hfin⟩ := W.fin_mem P hP
      rw [W.right_eq P hP]
      cases hC : W.last P with
      | none => exact ⟨z, hz.path, hfin⟩
      | some C =>
          have hup := W.last_upper P C hP hC
          obtain ⟨x, hx, heq⟩ := ih C hup (F.root_of_upper hup)
          rcases le_total (W.right C) (W.fin P) with hle | hle
          · exact ⟨z, hz.path, (max_eq_left hle).trans hfin⟩
          · rcases W.reached_of_child hup hx with hPx | hlt
            · exact ⟨x, hPx, (max_eq_right hle).trans heq⟩
            · refine ⟨z, hz.path, (max_eq_left ?_).trans hfin⟩
              rw [heq]
              exact hlt

/-- **Right bounds.** The right bound of a group is no less than its children's. -/
theorem right_le (hC : F.upper C = some P) : W.right C ≤ W.right P := by
  obtain ⟨x, hx, heq⟩ := W.exists_stop (F.root_of_upper hC)
  have hP := F.root_of_upper_eq hC
  rw [heq]
  rcases W.reached_of_child hC hx with hPx | hlt
  · exact W.stop_le_right hP hPx
  · exact hlt.trans (W.fin_le_right hP)

end Widening

end LeastForest
