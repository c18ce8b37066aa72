import Knp.TreeExpand

/-!
# The tree of the bunsetsu without coordination

Without coordination `make_dpnd_tree` is `make_simple_tree`. It links up to 31
modifiers to a bunsetsu, the nearest ones, and leaves the others without a
parent.

> The parents are the heads exactly if no bunsetsu has more than 31 modifiers.
-/

namespace Knp

open TreeData

section Plain

variable {env : TreeEnv} {buffer : Nat → Int} {d d' : TreeData} {s s' : LinkState} {b h j : Nat}

/-! ## At most 31 modifiers -/

/-- In the turn of `j`, which has not been merged, `att` get the parent `j`. -/
structure Turn (j : Nat) (att : List Nat) (s s' : LinkState) : Prop where
  num_eq : s'.data.num = s.data.num
  paraTopP_eq : s'.data.paraTopP = s.data.paraTopP
  pre_eq : s'.preNodeChildNum = s.preNodeChildNum
  parent_eq : ∀ x, s'.data.parent x = if x ∈ att then some j else s.data.parent x

theorem Turn.refl : Turn j [] s s := ⟨rfl, rfl, rfl, fun _ => (if_neg List.not_mem_nil).symm⟩

theorem addModifier_turn (hj : s.data.merged j = false) (hadd : addModifier j b s = some s') :
    Turn j [] s s' ∧ s'.childNum = s.childNum + 1 := by
  unfold addModifier at hadd
  rw [if_neg (by simp [hj])] at hadd
  obtain ⟨d, hset, rfl⟩ := Option.map_eq_some_iff.mp hadd
  unfold setChild at hset
  split_ifs at hset
  obtain rfl := Option.some.inj hset
  exact ⟨⟨rfl, rfl, rfl, fun _ => (if_neg List.not_mem_nil).symm⟩, rfl⟩

/-- The counter bounds the number of modifiers that get a parent. -/
theorem linkModifiers_turn : ∀ (n : Nat) {s s' : LinkState}, s.data.merged j = false →
    s.childNum < PARA_PART_MAX → linkModifiers env buffer j n s = some s' →
    ∃ att, s.childNum + att.length < PARA_PART_MAX ∧ Turn j att s s'
  | 0, s, s', _, hchild, hrun => by
      obtain rfl := Option.some.inj hrun
      exact ⟨[], hchild, .refl⟩
  | i + 1, s, s', hj, hchild, hrun => by
      unfold linkModifiers at hrun
      split_ifs at hrun
      · exact linkModifiers_turn i hj hchild hrun
      · exact linkModifiers_turn i hj hchild hrun
      · obtain ⟨s₁, hadd, hrest⟩ := Option.bind_eq_some_iff.mp hrun
        obtain ⟨hturn, hcount⟩ := addModifier_turn hj hadd
        split_ifs at hrest with hfull
        · obtain rfl := Option.some.inj hrest
          exact ⟨[], hchild, hturn.num_eq, hturn.paraTopP_eq, hturn.pre_eq, hturn.parent_eq⟩
        · have hj₁ : s₁.data.merged j = false := by rw [merged_congr hturn.num_eq, hj]
          obtain ⟨att, hatt, hlater⟩ := linkModifiers_turn i
            (s := { s₁ with data := linkParent env j i s₁.data }) hj₁ (Nat.lt_of_not_le hfull) hrest
          refine ⟨i :: att, ?_, hlater.num_eq.trans hturn.num_eq,
            hlater.paraTopP_eq.trans hturn.paraTopP_eq, hlater.pre_eq.trans hturn.pre_eq,
            fun x => ?_⟩
          · dsimp only at hatt
            rw [List.length_cons]
            omega
          · have hparent : (linkParent env j i s₁.data).parent x =
                if x = i then some j else s.data.parent x := by
              unfold linkParent
              dsimp only
              rw [hj₁, Function.update_apply, hturn.parent_eq, if_neg List.not_mem_nil]
              rfl
            rw [hlater.parent_eq, hparent]
            simp only [List.mem_cons]
            split_ifs <;> first | rfl | tauto
      · exact linkModifiers_turn i hj hchild hrun

/-- What the heads below `m` leave. -/
structure FewParents (m : Nat) (d d' : TreeData) : Prop where
  num_eq : d'.num = d.num
  paraTopP_eq : d'.paraTopP = d.paraTopP
  few : ∀ j, ∃ att : List Nat, att.length < PARA_PART_MAX ∧
    ∀ x, d'.parent x = some j → j < m ∧ x ∈ att ∨ d.parent x = some j

theorem linkHead_few (hj : d.merged j = false) {pre : Nat}
    (hrun : linkHead env buffer j 0 d = some (pre, d')) : pre = 0 ∧
      ∃ att : List Nat, att.length < PARA_PART_MAX ∧ d'.num = d.num ∧ d'.paraTopP = d.paraTopP ∧
        ∀ x, d'.parent x = if x ∈ att then some j else d.parent x := by
  obtain ⟨s, hmods, hclose⟩ := Option.bind_eq_some_iff.mp hrun
  obtain ⟨d₁, hset, heq⟩ := Option.map_eq_some_iff.mp hclose
  obtain ⟨rfl, rfl⟩ := Prod.mk.inj heq
  obtain ⟨att, hatt, hturn⟩ := linkModifiers_turn j (s := ⟨d, 0, 0⟩) hj (Nat.zero_lt_succ _) hmods
  unfold setChild at hset
  split_ifs at hset
  obtain rfl := Option.some.inj hset
  exact ⟨hturn.pre_eq, att, by omega, hturn.num_eq, hturn.paraTopP_eq, hturn.parent_eq⟩

theorem linkHeads_few : ∀ (m : Nat) {d d' : TreeData}, (∀ i < m, d.merged i = false) →
    linkHeads env buffer m 0 d = some d' → FewParents m d d'
  | 0, d, d', _, hrun => by
      obtain rfl := Option.some.inj hrun
      exact ⟨rfl, rfl, fun j => ⟨[], Nat.zero_lt_succ _, fun x hx => Or.inr hx⟩⟩
  | m + 1, d, d', hleft, hrun => by
      obtain ⟨⟨pre, d₁⟩, hhead, hrest⟩ := Option.bind_eq_some_iff.mp hrun
      obtain ⟨rfl, att, hatt, hnum, hpara, hparent⟩ := linkHead_few (hleft m (Nat.lt_succ_self m)) hhead
      have hlater : FewParents m d₁ d' := linkHeads_few m
        (fun i hi => by rw [merged_congr hnum, hleft i (by omega)]) hrest
      refine ⟨hlater.num_eq.trans hnum, hlater.paraTopP_eq.trans hpara, fun j => ?_⟩
      by_cases hjm : j = m
      · -- no later turn sets a parent `m`
        subst hjm
        obtain ⟨att', -, hfew⟩ := hlater.few j
        refine ⟨att, hatt, fun x hx => ?_⟩
        rcases hfew x hx with ⟨hlt, -⟩ | hold
        · exact absurd hlt (Nat.lt_irrefl j)
        · rw [hparent] at hold
          split_ifs at hold with hmem
          · exact Or.inl ⟨Nat.lt_succ_self j, hmem⟩
          · exact Or.inr hold
      · obtain ⟨att', hatt', hfew⟩ := hlater.few j
        refine ⟨att', hatt', fun x hx => ?_⟩
        rcases hfew x hx with ⟨hlt, hmem⟩ | hold
        · exact Or.inl ⟨Nat.lt_succ_of_lt hlt, hmem⟩
        · rw [hparent] at hold
          split_ifs at hold
          · exact absurd (Option.some.inj hold).symm hjm
          · exact Or.inr hold

theorem sortHeads_keep : ∀ (n : Nat) {d d' : TreeData}, sortHeads n d = some d' →
    d'.num = d.num ∧ d'.paraTopP = d.paraTopP ∧ d'.parent = d.parent
  | 0, d, d', hrun => by
      obtain rfl := Option.some.inj hrun
      exact ⟨rfl, rfl, rfl⟩
  | j + 1, d, d', hrun => by
      obtain ⟨d₁, hhead, hrest⟩ := Option.bind_eq_some_iff.mp hrun
      obtain ⟨c, -, rfl⟩ := Option.map_eq_some_iff.mp hhead
      have hlater := sortHeads_keep j hrest
      exact hlater

theorem makeSimpleTree_few (hleft : ∀ i < env.bnstNum, d.merged i = false)
    (hrun : makeSimpleTree env d = some d') : FewParents env.bnstNum d d' := by
  obtain ⟨d₁, hlink, hsort⟩ := Option.bind_eq_some_iff.mp hrun
  obtain ⟨hnum, hpara, hparent⟩ := sortHeads_keep _ hsort
  have hfew := linkHeads_few _ hleft hlink
  refine ⟨hnum.trans hfew.num_eq, hpara.trans hfew.paraTopP_eq, ?_⟩
  rw [hparent]
  exact hfew.few

/-! ## The parents -/

/-- Complete heads without coordination. -/
structure PlainHeads (env : TreeEnv) (d : TreeData) : Prop where
  complete : CompleteHeads env.bnstNum d
  noPara : env.para.paraMNum = 0
  bnst : env.bnstNum ≤ BNST_MAX

namespace PlainHeads

variable (hplain : PlainHeads env d)
include hplain

theorem fit : ManagersFit env := fun m hm => by
  rw [hplain.noPara] at hm
  exact absurd hm (Nat.not_lt_zero m)

theorem headOf_eq : headOf env d = d.dpndHead := by
  funext i
  unfold headOf
  rw [hplain.noPara]
  rfl

/-- `make_dpnd_tree` is `make_simple_tree`. -/
theorem makeDpndTree_eq : makeDpndTree env d =
    (makeSimpleTree env (initBnstTreeProperty d)).map fun d => (true, ⟨d, 0⟩) := by
  have hroots : env.para.roots = [] := by
    unfold ParaState.roots
    rw [hplain.noPara]
    rfl
  unfold makeDpndTree
  rw [hroots]
  cases makeSimpleTree env (initBnstTreeProperty d) <;> rfl

/-- What the tree has of the bunsetsu, whether they have too many modifiers or not. -/
theorem tree {s : ExpandState} (hrun : makeDpndTree env d = some (true, s)) :
    s.newBnstNum = 0 ∧ FewParents env.bnstNum (initBnstTreeProperty d) s.data ∧
      ParentsFrom d.dpndHead (initBnstTreeProperty d) s.data := by
  rw [hplain.makeDpndTree_eq] at hrun
  obtain ⟨d', hsimple, heq⟩ := Option.map_eq_some_iff.mp hrun
  obtain ⟨-, rfl⟩ := Prod.mk.inj heq
  have hfrom := makeSimpleTree_parentsFrom hsimple
  have hhead : headOf env (initBnstTreeProperty d) = d.dpndHead := hplain.headOf_eq
  rw [hhead] at hfrom
  exact ⟨rfl, makeSimpleTree_few (fun i hi => hplain.complete.merged_eq_false hi) hsimple, hfrom⟩

/-- A parent is the head. -/
theorem parent_eq {s : ExpandState} (hrun : makeDpndTree env d = some (true, s))
    (hb : b < env.bnstNum) {p : Nat} (hp : s.data.parent b = some p) :
    (p : Int) = d.dpndHead b ∧ p < env.bnstNum := by
  obtain ⟨-, -, hfrom⟩ := hplain.tree hrun
  rcases hfrom.sound b p hp with hinit | ⟨k, hlink, rfl⟩
  · rw [initBnstTreeProperty_parent (hb.trans_le hplain.bnst)] at hinit
    cases hinit
  · have hbuf := (links_iff.mp hlink).2.1
    have hlt := hplain.complete.headOf_lt hplain.fit hb
    rw [hplain.headOf_eq, hbuf] at hlt
    have htarget : (initBnstTreeProperty d).target k = k :=
      hplain.complete.target_eq (by exact_mod_cast hlt)
    rw [htarget, hbuf]
    exact ⟨rfl, by exact_mod_cast hlt⟩

/-- All bunsetsu get their heads as parents exactly if there are few modifiers. -/
theorem parents_iff : (∃ s, makeDpndTree env d = some (true, s) ∧
    ∀ b, b + 1 < env.bnstNum → (s.data.parent b).isSome) ↔
    ∀ h < env.bnstNum, modifierNum env d.dpndHead h < PARA_PART_MAX := by
  constructor
  · rintro ⟨s, hrun, hall⟩ h hh
    obtain ⟨-, hfew, -⟩ := hplain.tree hrun
    obtain ⟨att, hatt, hmem⟩ := hfew.few h
    have hsub : ((Finset.range env.bnstNum).filter fun i => d.dpndHead i = h) ⊆ att.toFinset := by
      intro b hb
      rw [Finset.mem_filter, Finset.mem_range] at hb
      have hlast : b + 1 < env.bnstNum := by
        by_contra hge
        have := hplain.complete.last_head b (by omega)
        omega
      obtain ⟨p, hp⟩ := Option.isSome_iff_exists.mp (hall b hlast)
      obtain rfl : p = h := by
        have := (hplain.parent_eq hrun hb.1 hp).1
        omega
      rcases hmem b hp with ⟨-, hatt⟩ | hinit
      · exact List.mem_toFinset.mpr hatt
      · rw [initBnstTreeProperty_parent (hb.1.trans_le hplain.bnst)] at hinit
        cases hinit
    have hcard := (Finset.card_le_card hsub).trans (List.toFinset_card_le att)
    unfold modifierNum
    omega
  · intro hfew
    have hbuf : headBuffer env (initBnstTreeProperty d) = headOf env d := headBuffer_eq
    obtain ⟨d', hrun, htree⟩ := makeSimpleTree_spec env (d := initBnstTreeProperty d)
      (fun hpos => hplain.complete.merged_eq_false hpos)
      (by rw [hbuf]; exact fun x hx _ => hplain.complete.headOf_lt hplain.fit hx)
      (by
        rw [hbuf]
        intro p hp
        have hlen := hplain.complete.kids_length_le hplain.fit hp
        rw [hplain.headOf_eq] at hlen ⊢
        exact hlen.trans_lt (hfew p hp))
    rw [hbuf] at htree
    refine ⟨⟨d', 0⟩, by rw [hplain.makeDpndTree_eq, hrun]; rfl, fun b hb => ?_⟩
    obtain ⟨j, hj, hbj, hjn⟩ := hplain.complete.forward hplain.fit b hb
    have hkid := (hplain.complete.mem_kids_iff hplain.fit hjn).mpr ⟨hbj, hj⟩
    obtain ⟨k, hmem, htarget⟩ := mem_kids.mp hkid
    have hk : k = j := by
      have := (links_iff.mp (mem_attached.mp hmem).2).2.1
      omega
    subst hk
    rw [htree.parent_eq k b hjn hmem]
    rfl

end PlainHeads

end Plain

end Knp
