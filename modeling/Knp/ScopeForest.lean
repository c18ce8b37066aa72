import Mathlib
import Knp.Scopes

/-!
# The forest of least upper groups

Groups of nested scopes, each below other groups: it lies under them, or stops
before one of their keys.

> Every group has a rank which strictly increases from the lower group to the
> upper one, so no choice of one upper group for each group makes a cycle. When
> every group chooses the upper group of least rank, the children of a group
> fit: only the first one begins before it, only the last one stops after it.

The upper groups of a group need not be comparable, but a smaller one reached
to the right always lies below (`upper_of_rank_lt`): an incomparable pair lies
to the two sides of the group.
-/

namespace ScopeGroups

open Relation Scopes

variable {ι : Type*} {S : Scopes ι} (G : ScopeGroups S) {a b c p q u x y z A C P X Y : ι}

open Classical in
/-- The last scope of a group. -/
theorem exists_last [Fintype ι] (hP : G.root P = P) :
    ∃ a, G.root a = P ∧ ∀ x, G.root x = P → S.key x ≤ S.key a := by
  obtain ⟨a, ha, hmax⟩ := Finset.exists_max_image (Finset.univ.filter fun x => G.root x = P) S.key
    ⟨P, Finset.mem_filter.mpr ⟨Finset.mem_univ P, hP⟩⟩
  exact ⟨a, (Finset.mem_filter.mp ha).2, fun x hx =>
    hmax x (Finset.mem_filter.mpr ⟨Finset.mem_univ x, hx⟩)⟩

/-! ## The rank of a group -/

section Rank

variable [Fintype ι]

open Classical in
/-- The greatest key reached from a scope. -/
noncomputable def reach (S : Scopes ι) (q : ι) : ℕ :=
  (Finset.univ.filter (ReflTransGen S.Down q)).sup S.key

theorem key_le_reach (h : ReflTransGen S.Down q x) : S.key x ≤ reach S q := by
  classical
  exact Finset.le_sup (Finset.mem_filter.mpr ⟨Finset.mem_univ x, h⟩)

theorem exists_reach (S : Scopes ι) (q : ι) :
    ∃ x, ReflTransGen S.Down q x ∧ S.key x = reach S q := by
  classical
  obtain ⟨x, hx, heq⟩ := Finset.exists_mem_eq_sup (Finset.univ.filter (ReflTransGen S.Down q))
    ⟨q, Finset.mem_filter.mpr ⟨Finset.mem_univ q, .refl⟩⟩ S.key
  exact ⟨x, (Finset.mem_filter.mp hx).2, heq.symm⟩

theorem reach_mono (h : ReflTransGen S.Down p q) : reach S q ≤ reach S p := by
  obtain ⟨x, hx, heq⟩ := exists_reach S q
  exact heq ▸ key_le_reach (h.trans hx)

/-- The rank of a group: how far it reaches, and among equals, how early it begins. -/
noncomputable def rank (S : Scopes ι) (A : ι) : ℕ ×ₗ ℕᵒᵈ :=
  toLex (reach S A, OrderDual.toDual (S.key A))

theorem rank_injective : Function.Injective (rank S) := by
  intro A B h
  have h2 := congrArg (fun r => OrderDual.ofDual (ofLex r).2) h
  exact S.key_injective h2

theorem reach_le_of_rank_le (h : rank S X ≤ rank S Y) : reach S X ≤ reach S Y := by
  rcases Prod.Lex.toLex_le_toLex.mp h with h | h
  · exact h.le
  · exact h.1.le

/-- **Rank.** Whatever lies below a group has smaller rank. -/
theorem rank_lt_of_below (hx : G.Member X x) (hy : G.Member Y y) (h : S.Below x y) :
    rank S X < rank S Y := by
  rcases h with h | h
  · refine Prod.Lex.toLex_lt_toLex.mpr (Or.inl ?_)
    obtain ⟨z, hz, heq⟩ := exists_reach S X
    have hzy := hx.stop_le h hz
    have := S.key_lt_stop z
    have := key_le_reach hy.path
    omega
  · have hyX := hx.under h
    have hle := reach_mono (hy.path.tail hyX.1)
    have hkey := (key_le_of_path hy.path).trans_lt hyX.1.key_lt
    rcases hle.lt_or_eq with hlt | heq
    · exact Prod.Lex.toLex_lt_toLex.mpr (Or.inl hlt)
    · exact Prod.Lex.toLex_lt_toLex.mpr (Or.inr ⟨heq, hkey⟩)

variable {G} in
theorem Upper.rank_lt (h : G.Upper X Y) : rank S X < rank S Y := by
  obtain ⟨x, y, hx, hy, hxy⟩ := h
  exact G.rank_lt_of_below (Or.inl hx) (Or.inl hy) hxy

/-! ## Comparing the upper groups of a group -/

/-- A group under `a` that also stops before `y`, where `y` is within the reach
of the group of `a`: then `y` lies in the second part of `a`. -/
theorem down_of_before (ha : S.Under a (G.root x)) (hy : S.Before x y)
    (hreach : S.key y ≤ reach S (G.root a)) : S.Down a y := by
  obtain ⟨x₀, hx₀, heq⟩ := exists_reach S (G.root a)
  have haC := ha.1.key_lt
  have hroot := G.key_root_le a
  have hCx := G.key_root_le x
  obtain ⟨u, hu, huy⟩ := exists_down_of_path hx₀ (y := y) (by have := hy.key_lt; omega) (by omega)
  have huC : S.Under u (G.root x) := G.under_root (hy.under huy)
  rcases lt_trichotomy (S.key u) (S.key a) with hlt | heq' | hgt
  · -- `u` is reached before `a` in the group of `a`, and cannot contain it
    have hua := huC.total ha hlt
    rcases G.root_path_cases a hu with h | h
    · have := hua.1.2
      have := huC.1.2
      omega
    · have := key_le_of_path h
      omega
  · exact S.key_injective heq' ▸ huy
  · have hau := ha.total huC hgt
    have hstop := stop_le_of_key_lt hgt (huC.1.key_lt.trans_le ha.1.2)
    exact ⟨hgt.trans huy.1, huy.2.trans hstop⟩

/-- An upper group of smaller rank through `Before` lies below any other upper group. -/
theorem upper_of_rank_lt (hb : S.Before c b) (hX : G.Upper (G.root c) X)
    (hlt : rank S (G.root b) < rank S X) : G.Upper (G.root b) X := by
  obtain ⟨x, y, hx, rfl, hxy⟩ := hX
  rcases hxy with hxy | hxy
  · -- both from the later of the two links
    obtain ⟨m, hmb, hmy⟩ : ∃ m, S.Before m b ∧ S.Before m y := by
      rcases le_total (S.key c) (S.key x) with hle | hle
      · exact ⟨x, G.before_chain hx.symm hle hb, hxy⟩
      · exact ⟨c, hb, G.before_chain hx hle hxy⟩
    rcases lt_trichotomy (S.key b) (S.key y) with h | h | h
    · exact ⟨b, y, rfl, rfl, Or.inl (hmb.total hmy h)⟩
    · rw [S.key_injective h] at hlt
      exact absurd hlt (lt_irrefl _)
    · have hyb : G.Upper (G.root y) (G.root b) := ⟨y, b, rfl, rfl, Or.inl (hmy.total hmb h)⟩
      exact absurd hlt (lt_asymm hyb.rank_lt)
  · have hyC : S.Under y (G.root c) := hx ▸ G.under_root hxy
    have hreach : S.key b ≤ reach S (G.root y) :=
      (key_le_reach (G.path_root b)).trans (reach_le_of_rank_le hlt.le)
    rcases G.root_of_down (G.down_of_before hyC hb hreach) with h | h
    · rw [h] at hlt
      exact absurd hlt (lt_irrefl _)
    · exact ⟨G.root b, y, G.root_root b, rfl, Or.inr h⟩

end Rank

end ScopeGroups

/-! ## The forest of least upper groups -/

/-- A choice of an upper group of least rank for every group that has one.
`att` is the scope of the group through which it was last attached. -/
structure LeastForest {ι : Type*} [Fintype ι] {S : Scopes ι} (G : ScopeGroups S) where
  upper : ι → Option ι
  att : ι → ι
  upper_ne_none : ∀ X Y, G.Upper X Y → upper X ≠ none
  upper_att : ∀ X P, upper X = some P → G.root (att X) = X ∧
    ∃ y, G.root y = P ∧ S.Below (att X) y
  least : ∀ X P Y, upper X = some P → G.Upper X Y →
    ScopeGroups.rank S P ≤ ScopeGroups.rank S Y

namespace LeastForest

open Relation Scopes ScopeGroups

variable {ι : Type*} [Fintype ι] {S : Scopes ι} {G : ScopeGroups S} (F : LeastForest G)
  {a j q t w x y z A C D P X Y Z : ι}

theorem upper_of (h : F.upper X = some P) : G.Upper X P := by
  obtain ⟨hx, y, hy, hxy⟩ := F.upper_att X P h
  exact ⟨F.att X, y, hx, hy, hxy⟩

theorem rank_lt (h : F.upper X = some P) : rank S X < rank S P := (F.upper_of h).rank_lt

theorem root_of_upper (h : F.upper X = some P) : G.root X = X := by
  obtain ⟨hx, -⟩ := F.upper_att X P h
  rw [← hx, G.root_root]

theorem root_of_upper_eq (h : F.upper X = some P) : G.root P = P := by
  obtain ⟨-, y, hy, -⟩ := F.upper_att X P h
  rw [← hy, G.root_root]

/-- `X` is `D` or below it in the forest. -/
def InTree (D X : ι) : Prop := ReflTransGen (fun Y X => F.upper X = some Y) D X

theorem rank_le_of_inTree (h : F.InTree D X) : rank S X ≤ rank S D := by
  induction h with
  | refl => exact le_rfl
  | tail _ hup ih => exact (F.rank_lt hup).le.trans ih

theorem root_of_inTree (hD : G.root D = D) (h : F.InTree D X) : G.root X = X := by
  induction h with
  | refl => exact hD
  | tail _ hup _ => exact F.root_of_upper hup

/-- The whole tree of a group under `q` is reached from `q`. -/
theorem path_of_inTree (hD : TransGen S.Down q D) (h : F.InTree D X) : TransGen S.Down q X := by
  induction h with
  | refl => exact hD
  | @tail X Y _ hup ih =>
      obtain ⟨hY, y, hy, hb⟩ := F.upper_att Y X hup
      have hqy : TransGen S.Down q y := ih.trans_left (hy ▸ G.path_root y)
      rcases hb with hb | hb
      · obtain ⟨u, hqu, huy⟩ := TransGen.tail'_iff.mp hqy
        exact .tail' hqu (hY ▸ (G.under_root (hb.under huy)).1)
      · exact hqy.tail (hY ▸ (G.under_root hb).1)

/-! ## Right ends -/

/-- **Right ends.** When the chain of a group continues from its last member
`a` at a scope `t` of another group, then what `t` reaches is reached from the
child that was attached last. -/
theorem exists_child_path (ha : G.root a = P) (hlast : ∀ x, G.root x = P → S.key x ≤ S.key a)
    (hat : S.Down a t) (htkey : S.key t = S.stop a) (htP : G.root t ≠ P) :
    ∃ D, F.upper D = some P ∧ ∀ Z, F.upper Z = some P →
      S.key (F.att D) < S.key (F.att Z) ∨ Z = D → ReflTransGen S.Down Z t := by
  classical
  -- the group of greatest rank among those under `a` that reach `t`
  obtain ⟨D, hD, hmax⟩ := Finset.exists_max_image
    (Finset.univ.filter fun X => S.Under a X ∧ G.root X = X ∧ ReflTransGen S.Down X t)
    (rank S) (by
      refine ⟨G.root t, Finset.mem_filter.mpr ⟨Finset.mem_univ _, ?_, G.root_root t, G.path_root t⟩⟩
      exact (G.root_of_down hat).resolve_left fun h => htP (h.trans ha))
  obtain ⟨-, haD, hDroot, hDt⟩ := Finset.mem_filter.mp hD
  have hDP : G.Upper D P := ⟨D, a, hDroot, ha, Or.inr haD⟩
  have hup : F.upper D = some P := by
    obtain ⟨Q, hQ⟩ := Option.ne_none_iff_exists'.mp (F.upper_ne_none D P hDP)
    by_cases hQP : Q = P
    · rw [hQ, hQP]
    have hlt : rank S Q < rank S P :=
      lt_of_le_of_ne (F.least D Q P hQ hDP) fun h => hQP (rank_injective h)
    obtain ⟨hx, y, hy, hb⟩ := F.upper_att D Q hQ
    exfalso
    rcases hb with hb | hb
    · have hty := Member.stop_le (Or.inl hx) hb hDt
      have hreach : S.key y ≤ reach S (G.root a) :=
        (key_le_reach (hy ▸ G.path_root y)).trans (ha ▸ reach_le_of_rank_le hlt.le)
      have hay := G.down_of_before (hx.symm ▸ haD) hb hreach
      have := hay.2
      have := S.key_lt_stop t
      omega
    · have hyD : S.Under y D := hx ▸ G.under_root hb
      rcases lt_trichotomy (S.key y) (S.key a) with h | h | h
      · have := (G.upper_of_under hyD haD h).rank_lt
        rw [ha, hy] at this
        exact lt_asymm hlt this
      · exact hQP (by rw [← hy, ← ha, S.key_injective h])
      · have haQ : S.Under a Q := hy ▸ G.under_root (haD.total hyD h)
        have hQt : ReflTransGen S.Down Q t :=
          ((hy ▸ G.path_root y : ReflTransGen S.Down Q y).tail hyD.1).trans hDt
        have hle := hmax Q (Finset.mem_filter.mpr
          ⟨Finset.mem_univ _, haQ, by rw [← hy, G.root_root], hQt⟩)
        exact absurd (F.rank_lt hQ) (not_lt.mpr hle)
  refine ⟨D, hup, fun Z hZ hDZ => ?_⟩
  rcases hDZ with hatt | rfl
  · obtain ⟨hz, y, hy, hb⟩ := F.upper_att Z P hZ
    obtain ⟨hd, -⟩ := F.upper_att D P hup
    have hDz : S.key D < S.key (F.att Z) := (hd ▸ G.key_root_le (F.att D)).trans_lt hatt
    have haD' := haD.1.key_lt
    have hya := hlast y hy
    rcases hb with hb | hb
    · have := hb.key_lt
      omega
    · have hyeq : y = a := by
        refine S.key_injective (hya.antisymm ?_)
        by_contra hlt
        rcases G.root_path_cases a (ha.trans hy.symm ▸ G.path_root y) with h | h
        · have := hb.1.2
          omega
        · exact hlt (key_le_of_path h)
      subst hyeq
      have hzt : S.key (F.att Z) ≤ S.key t := htkey ▸ hb.1.2
      obtain ⟨u, hDu, huz⟩ := exists_down_of_path hDt hDz hzt
      rcases G.root_of_path (.tail' hDu huz) with h | ⟨u', hDu', hu'⟩
      · rw [hz, hDroot] at h
        exact h ▸ hDt
      · rw [hz] at hu'
        have hyZ : S.Under y Z := hz ▸ G.under_root hb
        have hyu : S.key y < S.key u' := haD'.trans_le (key_le_of_path hDu')
        have hlt := (G.upper_of_under hyZ hu' hyu).rank_lt
        have hZroot : G.root Z = Z := F.root_of_upper hZ
        have hle := F.least Z P (G.root u') hZ ⟨Z, u', hZroot, rfl, Or.inr hu'⟩
        rw [ha] at hlt
        exact absurd hlt (not_lt.mpr hle)
  · exact hDt

/-! ## Left ends -/

/-- The tree of a group attached under a scope of `P` starts right of `P`. -/
theorem start_le_of_under (hy : G.root y = P) (hD : S.Under y D) (h : F.InTree D X) :
    S.start P ≤ S.start X := by
  have hyX := key_lt_of_path (F.path_of_inTree (.single hD.1) h)
  have hPy := G.key_root_le y
  rw [hy] at hPy
  have := S.start_le_key P
  omega

/-- No group in the tree of a sibling is an upper group of `C`: it would have
been the lesser choice. -/
theorem not_upper_of_inTree (hC : F.upper C = some P) (hD : F.upper D = some P)
    (hX : F.InTree D X) : ¬ G.Upper C X := fun h =>
  absurd (F.least C P X hC h) (not_le.mpr ((F.rank_le_of_inTree hX).trans_lt (F.rank_lt hD)))

/-- The groups in the tree of a sibling begin right of the scope through which
`C` is attached, once they pass it. -/
theorem att_lt_of_lt (hC : F.upper C = some P) (hX : G.root X = X) (hCX : X ≠ C)
    (hnot : ¬ G.Upper C X) (hx : G.root x = X) (hlt : S.key (F.att C) < S.key x) :
    S.key (F.att C) < S.key X := by
  obtain ⟨hc, -⟩ := F.upper_att C P hC
  by_contra hle
  rcases (show S.key X ≤ S.key (F.att C) by omega).lt_or_eq with h | h
  · obtain ⟨w, hw, hwc⟩ := G.under_of_root_lt (x := x) (hx ▸ h) hlt
      (by rw [hc, hx]; exact hCX.symm)
    exact hnot ⟨F.att C, w, hc, hw.trans hx, Or.inr hwc⟩
  · have heq := S.key_injective h
    rw [← heq, hX] at hc
    exact hCX hc

/-- **Left ends.** Of two children attached to the first scope of `P`, the tree
of the later one begins after the earlier one. -/
theorem stop_att_lt (hC : F.upper C = some P) (hD : F.upper D = some P)
    (hatt : S.key (F.att C) < S.key (F.att D)) (h : F.InTree D X) :
    S.key (F.att C) < S.key X ∧ S.stop (F.att C) < S.start X := by
  obtain ⟨hc, -⟩ := F.upper_att C P hC
  have hCrank : rank S C < rank S P := F.rank_lt hC
  induction h with
  | refl =>
      obtain ⟨hd, -⟩ := F.upper_att D P hD
      have hne : D ≠ C := fun h => by rw [h] at hatt; exact lt_irrefl _ hatt
      have hDD := F.root_of_upper hD
      have hnot := F.not_upper_of_inTree hC hD .refl
      have hlt := F.att_lt_of_lt hC hDD hne hnot hd hatt
      refine ⟨hlt, stop_lt_start hlt (fun hdown => ?_) fun hb => ?_⟩
      · rcases G.root_of_down hdown with h | h
        · exact hne (hDD.symm.trans (h.trans hc))
        · have := F.least D P C hD ⟨D, F.att C, hDD, hc, Or.inr (hDD ▸ h)⟩
          exact absurd hCrank (not_lt.mpr this)
      · exact hnot ⟨F.att C, D, hc, hDD, Or.inl hb⟩
  | @tail X Y hDX hup ih =>
      obtain ⟨hlt, hstop⟩ := ih
      have hX := F.root_of_inTree (F.root_of_upper hD) hDX
      have hXrank := (F.rank_le_of_inTree hDX).trans_lt (F.rank_lt hD)
      have hDY : F.InTree D Y := hDX.tail hup
      have hY := F.root_of_upper hup
      have hnot := F.not_upper_of_inTree hC hD hDY
      have hne : Y ≠ C := fun h => by
        rw [h, hC] at hup
        rw [Option.some.inj hup] at hXrank
        exact lt_irrefl _ hXrank
      obtain ⟨hx, y, hy, hb⟩ := F.upper_att Y X hup
      rcases G.root_or_under hy hb with ⟨-, hbX⟩ | ⟨w, hw, hwx⟩
      · -- `Y` is attached to the first scope of `X`
        have hYc : S.key (F.att C) < S.key Y := by
          refine F.att_lt_of_lt hC hY hne hnot hx ?_
          by_contra hle
          rcases (show S.key (F.att Y) ≤ S.key (F.att C) by omega).lt_or_eq with h | h
          · have hreach : S.key (F.att C) < S.stop (F.att Y) := by
              have := S.key_lt_stop (F.att C)
              rcases hbX with ⟨hs, -, -⟩ | ⟨m, -, hm, hs, -⟩
              · omega
              · omega
            exact hnot ⟨F.att C, F.att Y, hc, hx, Or.inr (under_of_key_lt h hreach)⟩
          · have heq := S.key_injective h
            rw [heq, hc] at hx
            exact hne hx.symm
        refine ⟨hYc, stop_lt_start hYc (fun hdown => ?_) fun hb => ?_⟩
        · rcases G.root_of_down hdown with h | h
          · exact hne (hY.symm.trans (h.trans hc))
          · rw [hY] at h
            have hle := F.least Y X C hup ⟨Y, F.att C, hY, hc, Or.inr h⟩
            have hreach : S.key X ≤ reach S (G.root (F.att C)) :=
              (key_le_reach .refl).trans (hc.symm ▸ reach_le_of_rank_le hle)
            have hcX := G.down_of_before (hx.symm ▸ h) hbX hreach
            have := hcX.2
            have := S.start_le_key X
            omega
        · exact hnot ⟨F.att C, Y, hc, hY, Or.inl hb⟩
      · have hwY := hx ▸ G.under_root hwx
        have hXw := G.key_root_le w
        rw [hw] at hXw
        have := S.start_le_key X
        have := hwY.1.1
        have := hwY.1.key_lt
        omega

/-- The tree of a child starts no earlier than the group, or than the child
that was attached before it. -/
theorem start_le_of_inTree (hC : F.upper C = some P) (hD : F.upper D = some P)
    (hatt : S.key (F.att C) < S.key (F.att D)) (h : F.InTree D X) :
    S.start P ≤ S.start X ∨ S.start C ≤ S.start X := by
  obtain ⟨hd, y, hy, hb⟩ := F.upper_att D P hD
  obtain ⟨hc, z, hz, hbz⟩ := F.upper_att C P hC
  rcases G.root_or_under hy hb with ⟨-, hdP⟩ | ⟨w, hw, hwd⟩
  · have hdlt := hdP.key_lt
    rcases G.root_or_under hz hbz with - | ⟨w, hw, hwc⟩
    · right
      have hstop := (F.stop_att_lt hC hD hatt h).2
      have hCc := G.key_root_le (F.att C)
      rw [hc] at hCc
      have := S.start_le_key C
      have := S.key_lt_stop (F.att C)
      omega
    · have hPw := G.key_root_le w
      rw [hw] at hPw
      have := hwc.1.key_lt
      omega
  · exact Or.inl (F.start_le_of_under hw (hd ▸ G.under_root hwd) h)

end LeastForest
