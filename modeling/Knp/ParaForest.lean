import Knp.ScopeForest
import Knp.ParaPartition

/-!
# The forest of managers

The second double loop of `detect_para_relation` gives every manager the upper
manager of least rank: `set_parent` replaces the parent only by a manager below
it, and where two upper managers are unrelated the pairs come in an order that
makes the first one the right choice.

> Parents have a greater rank than their children, so no order of replacements
> closes a cycle.

The invariant `Linked` follows the pairs processed so far, and carries for each
manager the coordination through which it was last attached: the children of a
manager stand in the order of these.
-/

namespace Knp

open Scopes ScopeGroups

/-! ## The groups of the managers -/

section Groups

variable {sp : ParaSentence} {rel : RelMatrix} {st : ParaState} {x y : Coord sp} {m : Nat}

namespace Grouped

variable (g : Grouped sp (finalRel sp rel) sp.paraNum st)

include g in
theorem isSome_ptr (x : Coord sp) : (st.managerPtr x.index).isSome :=
  Option.isSome_iff_ne_none.mpr (g.ptr_of_lt x.index x.index_lt x.live)

/-- The manager of a coordination. -/
def mgr (x : Coord sp) : Nat := (st.managerPtr x.index).get (g.isSome_ptr x)

theorem ptr_eq (x : Coord sp) : st.managerPtr x.index = some (g.mgr x) :=
  (Option.some_get _).symm

theorem mgr_eq_iff : g.mgr x = m ↔ st.managerPtr x.index = some m := by
  rw [g.ptr_eq]
  exact Option.some_inj.symm

theorem mgr_lt (x : Coord sp) : g.mgr x < st.paraMNum := (g.ptr_mem _ _ (g.ptr_eq x)).1.1

include g in
/-- Every manager has a first coordination, which it owns. -/
theorem exists_leader (hm : m < st.paraMNum) : ∃ a : Coord sp, g.mgr a = m ∧
    (st.manager m).paraDataNum.head? = some a.index ∧
    ∀ p, ¬ Link sp (finalRel sp rel) p a.index := by
  obtain ⟨a, hc, ha, hfirst⟩ := g.chained m hm
  obtain ⟨-, han, hal⟩ := g.ptr_mem a m ha
  exact ⟨.mk' a han hal, g.mgr_eq_iff.mpr ha, hc.head, hfirst⟩

/-- The first coordination of the manager of a coordination. -/
noncomputable def leader (x : Coord sp) : Coord sp := (g.exists_leader (g.mgr_lt x)).choose

theorem leader_spec (x : Coord sp) : g.mgr (g.leader x) = g.mgr x ∧
    (st.manager (g.mgr x)).paraDataNum.head? = some (g.leader x).index ∧
    ∀ p, ¬ Link sp (finalRel sp rel) p (g.leader x).index :=
  (g.exists_leader (g.mgr_lt x)).choose_spec

theorem leader_eq_iff : g.leader x = g.leader y ↔ g.mgr x = g.mgr y := by
  constructor
  · intro h
    rw [← (g.leader_spec x).1, h, (g.leader_spec y).1]
  · intro h
    have hx := (g.leader_spec x).2.1
    rw [h, (g.leader_spec y).2.1] at hx
    exact (Coord.index_injective (Option.some.inj hx)).symm

theorem leader_of_head (h : (st.manager (g.mgr x)).paraDataNum.head? = some x.index) :
    g.leader x = x :=
  Coord.index_injective (Option.some.inj ((g.leader_spec x).2.1.symm.trans h))

/-- The managers as the groups of the scopes. -/
noncomputable def groups (hbad : badPair sp = none) : ScopeGroups (scopesOf sp hbad) where
  root := g.leader
  root_first x p hp := (g.leader_spec x).2.2 p.index ((link_iff_sibling hbad rel).mpr hp)
  root_step y := by
    rcases g.source y.index (g.mgr y) (g.ptr_eq y) with hhead | ⟨p, hp, hlink, hpm, hmax⟩
    · exact Or.inl (g.leader_of_head hhead)
    · let p' : Coord sp := .mk' p hp hlink.2.1
      refine Or.inr ⟨p', (link_iff_sibling hbad rel).mp hlink, ?_, fun q hq => ?_⟩
      · exact g.leader_eq_iff.mpr (g.mgr_eq_iff.mpr hpm)
      · have hle := hmax q.index q.index_lt ((link_iff_sibling hbad rel).mpr hq)
        by_contra hlt
        have := (Coord.key_lt_key_iff p' q).mp (not_le.mp hlt)
        exact absurd this (not_lt.mpr hle)

/-- Whatever a manager lists is in its group or continues it. -/
theorem member_of_mem (hbad : badPair sp = none)
    (hx : x.index ∈ (st.manager (g.mgr y)).paraDataNum) :
    (g.groups hbad).Member (g.leader y) x := by
  rcases g.mem_cases (g.mgr y) (g.mgr_lt y) x.index hx with hhead | ⟨p, hp, hpm, hlink⟩
  · left
    have := (g.leader_spec y).2.1.symm.trans hhead
    obtain rfl := Coord.index_injective (Option.some.inj this)
    exact g.leader_eq_iff.mpr (g.leader_spec y).1
  · let p' : Coord sp := .mk' p hp hlink.2.1
    exact Or.inr ⟨p', g.leader_eq_iff.mpr (g.mgr_eq_iff.mpr hpm),
      (link_iff_sibling hbad rel).mp hlink⟩

theorem mem_mgr (x : Coord sp) : x.index ∈ (st.manager (g.mgr x)).paraDataNum :=
  (g.ptr_mem _ _ (g.ptr_eq x)).1.2

end Grouped

end Groups

/-! ## What `set_parent` changes -/

section SetParent

variable {st st' : ParaState} {parent child m : Nat}

theorem setManager_self {mgr : ParaManager} : (st.setManager m mgr).manager m = mgr :=
  Function.update_self ..

theorem setManager_of_ne {mgr : ParaManager} {k : Nat} (h : k ≠ m) :
    (st.setManager m mgr).manager k = st.manager k :=
  Function.update_of_ne h ..

theorem setParentPtr_parent (p : Option Nat) (k : Nat) :
    ((st.setManager m { st.manager m with parent := p }).manager k).parent =
      if k = m then p else (st.manager k).parent := by
  by_cases hk : k = m
  · rw [hk, setManager_self, if_pos rfl]
  · rw [setManager_of_ne hk, if_neg hk]

theorem setParentPtr_child (p : Option Nat) (k : Nat) :
    ((st.setManager m { st.manager m with parent := p }).manager k).child =
      (st.manager k).child := by
  by_cases hk : k = m
  · rw [hk, setManager_self]
  · rw [setManager_of_ne hk]

theorem setChildren_parent (cs : List Nat) (k : Nat) :
    ((st.setManager m { st.manager m with child := cs }).manager k).parent =
      (st.manager k).parent := by
  by_cases hk : k = m
  · rw [hk, setManager_self]
  · rw [setManager_of_ne hk]

theorem setChildren_child (cs : List Nat) (k : Nat) :
    ((st.setManager m { st.manager m with child := cs }).manager k).child =
      if k = m then cs else (st.manager k).child := by
  by_cases hk : k = m
  · rw [hk, setManager_self, if_pos rfl]
  · rw [setManager_of_ne hk, if_neg hk]

theorem attach_parent (h : attach parent child st = some st') (m : Nat) :
    (st'.manager m).parent = if m = child then some parent else (st.manager m).parent := by
  dsimp only [attach] at h
  split_ifs at h
  rw [← Option.some.inj h, setChildren_parent, setParentPtr_parent]

theorem attach_child (h : attach parent child st = some st') (m : Nat) :
    (st'.manager m).child =
      if m = parent then (st.manager m).child ++ [child] else (st.manager m).child := by
  dsimp only [attach] at h
  split_ifs at h
  rw [← Option.some.inj h, setChildren_child, setParentPtr_child, setParentPtr_child]
  by_cases hm : m = parent
  · rw [hm]
  · rw [if_neg hm, if_neg hm]

theorem deleteChild_parent (m : Nat) :
    ((deleteChild parent child st).manager m).parent = (st.manager m).parent :=
  setChildren_parent _ m

theorem deleteChild_child (m : Nat) :
    ((deleteChild parent child st).manager m).child =
      if m = parent then (st.manager m).child.erase child else (st.manager m).child := by
  rw [deleteChild, setChildren_child]
  by_cases hm : m = parent
  · rw [hm]
  · rw [if_neg hm, if_neg hm]

/-- The scan of two managers ends at a pair that decides, or finds no related pair. -/
theorem newIsBelow_cases (rel : RelMatrix) (old new : List Nat) :
    match newIsBelow rel old new with
    | some false => ∃ x ∈ old, ∃ y ∈ new, childRel rel x y
    | some true => ∃ x ∈ old, ∃ y ∈ new, childRel rel y x
    | none => ∀ x ∈ old, ∀ y ∈ new, ¬ childRel rel x y ∧ ¬ childRel rel y x := by
  cases hscan : newIsBelow rel old new with
  | none =>
      intro x hx y hy
      have hpair := List.findSome?_eq_none_iff.mp hscan (x, y)
        (List.mem_flatMap.mpr ⟨x, hx, List.mem_map.mpr ⟨y, hy, rfl⟩⟩)
      dsimp only at hpair
      split_ifs at hpair with hxy hyx
      exact ⟨hxy, hyx⟩
  | some b =>
      obtain ⟨⟨x, y⟩, hmem, hpair⟩ := List.exists_of_findSome?_eq_some hscan
      obtain ⟨x', hx, hmap⟩ := List.mem_flatMap.mp hmem
      obtain ⟨y', hy, heq⟩ := List.mem_map.mp hmap
      obtain ⟨rfl, rfl⟩ := Prod.mk.inj heq
      dsimp only at hpair
      split_ifs at hpair with hxy hyx
      · obtain rfl := Option.some.inj hpair
        exact ⟨x', hx, y', hy, hxy⟩
      · obtain rfl := Option.some.inj hpair
        exact ⟨x', hx, y', hy, hyx⟩

end SetParent

/-! ## The invariant of the linking pass -/

section Linking

variable {sp : ParaSentence} {rel : RelMatrix} {st₀ st st' : ParaState}
  (hbad : badPair sp = none) (g : Grouped sp (finalRel sp rel) sp.paraNum st₀)
  {T : Coord sp → Coord sp → Prop} {att : Nat → Nat} {x y i j : Coord sp} {C P m : Nat}

/-- The rank of the manager of a coordination. -/
noncomputable def mgrRank (x : Coord sp) : ℕ ×ₗ ℕᵒᵈ := rank (scopesOf sp hbad) (g.leader x)

/-- The links after the pairs of `T`; manager `C` was last attached through
coordination `att C`. -/
structure Linked (T : Coord sp → Coord sp → Prop) (att : Nat → Nat) (st : ParaState) : Prop where
  same : SameGroups st₀ st
  mem_child_iff : ∀ P C, C ∈ (st.manager P).child ↔ (st.manager C).parent = some P
  sorted : ∀ P, (st.manager P).child.Pairwise fun C D => att C < att D
  source : ∀ C P, (st.manager C).parent = some P → ∃ i j, T i j ∧ (scopesOf sp hbad).Below i j ∧
    (g.mgr i = C ∧ g.mgr j = P) ∧ i.index = att C
  covered : ∀ i j, T i j → (scopesOf sp hbad).Below i j →
    ∃ p, (st.manager (g.mgr i)).parent = some (g.mgr p) ∧
      mgrRank hbad g p ≤ mgrRank hbad g j

variable {hbad g}

theorem mgrRank_congr (h : g.mgr x = g.mgr y) : mgrRank hbad g x = mgrRank hbad g y := by
  rw [mgrRank, g.leader_eq_iff.mpr h, mgrRank]

/-- What a scan finds is right: the listed coordinations stand for their managers. -/
theorem rank_lt_of_scan {a b : Nat} (ha : a ∈ (st₀.manager (g.mgr i)).paraDataNum)
    (hb : b ∈ (st₀.manager (g.mgr j)).paraDataNum) (h : childRel (finalRel sp rel) a b) :
    mgrRank hbad g i < mgrRank hbad g j := by
  obtain ⟨han, hal⟩ := g.live_of_mem (g.mgr_lt i) ha
  obtain ⟨hbn, hbl⟩ := g.live_of_mem (g.mgr_lt j) hb
  exact rank_lt_of_below (g.groups hbad) (g.member_of_mem (x := .mk' a han hal) hbad ha)
    (g.member_of_mem (x := .mk' b hbn hbl) hbad hb)
    ((childRel_iff hbad rel (i := .mk' a han hal) (j := .mk' b hbn hbl)).mp h)

/-- A manager has a parent of smaller rank than every manager before which or
under which it was seen to lie, also where the scan finds no relation. -/
theorem rank_le_of_unrelated {o : Coord sp}
    (hT : ∀ a b, T a b ↔ a.index < i.index ∨ (a = i ∧ b.index < j.index))
    (h : Linked hbad g T att st) (hparent : (st.manager (g.mgr i)).parent = some (g.mgr o))
    (hb : (scopesOf sp hbad).Below i j)
    (hscan : ∀ x ∈ (st₀.manager (g.mgr o)).paraDataNum,
      ∀ y ∈ (st₀.manager (g.mgr j)).paraDataNum, ¬ childRel (finalRel sp rel) y x) :
    mgrRank hbad g o ≤ mgrRank hbad g j := by
  by_contra hlt
  have hlt : mgrRank hbad g j < mgrRank hbad g o := not_le.mp hlt
  have hno : ¬ (g.groups hbad).Upper (g.leader j) (g.leader o) := by
    rintro ⟨y, x, hy, hx, hyx⟩
    have hy' : g.mgr y = g.mgr j := g.leader_eq_iff.mp hy
    have hx' : g.mgr x = g.mgr o := g.leader_eq_iff.mp hx
    exact hscan x.index (hx' ▸ g.mem_mgr x) y.index (hy' ▸ g.mem_mgr y)
      ((childRel_iff hbad rel).mpr hyx)
  obtain ⟨a, b, hab, hbelow, ⟨ha, hbo⟩, -⟩ := h.source _ _ hparent
  have hup : (g.groups hbad).Upper (g.leader i) (g.leader o) :=
    ⟨a, b, g.leader_eq_iff.mpr ha, g.leader_eq_iff.mpr hbo, hbelow⟩
  rcases hb with hb | hb
  · exact hno (upper_of_rank_lt (g.groups hbad) hb hup hlt)
  · by_cases hfirst : g.leader i = i
    · -- the parent, too, was met at the first coordination of the manager
      have hle := (g.groups hbad).key_root_le a
      have hroot : (g.groups hbad).root a = i := (g.leader_eq_iff.mpr ha).trans hfirst
      rw [hroot] at hle
      have hia : i.index ≤ a.index := by
        by_contra hlt'
        exact absurd ((Coord.key_lt_key_iff a i).mpr (not_le.mp hlt')) (not_lt.mpr hle)
      rcases (hT a b).mp hab with hai | ⟨rfl, hbj⟩
      · omega
      · have hkey := (Coord.key_lt_key_iff b j).mpr hbj
        have hja := hb.1.key_lt
        rcases hbelow with hbelow | hbelow
        · have := hbelow.key_lt
          exact absurd (this.trans (hkey.trans hja)) (lt_irrefl _)
        · have := upper_of_under (g.groups hbad) hbelow hb hkey
          rw [show (g.groups hbad).root b = g.leader o from g.leader_eq_iff.mpr hbo] at this
          exact hno this
    · -- the first coordination of the manager has met `j` already
      have hunder := (g.groups hbad).under_root hb
      have hlt' : (g.leader i).index < i.index := by
        rw [← Coord.key_lt_key_iff]
        exact lt_of_le_of_ne ((g.groups hbad).key_root_le i) fun heq =>
          hfirst ((scopesOf sp hbad).key_injective heq)
      obtain ⟨p, hp, hle⟩ := h.covered (g.leader i) j ((hT _ _).mpr (Or.inl hlt')) (Or.inr hunder)
      rw [(g.leader_spec i).1, hparent] at hp
      rw [← mgrRank_congr (Option.some.inj hp)] at hle
      exact absurd hlt (not_lt.mpr hle)

theorem Linked.congr {T' : Coord sp → Coord sp → Prop} (h : Linked hbad g T att st)
    (hT : ∀ a b, T a b ↔ T' a b) : Linked hbad g T' att st where
  same := h.same
  mem_child_iff := h.mem_child_iff
  sorted := h.sorted
  source C P hp := by
    obtain ⟨i, j, hij, hs⟩ := h.source C P hp
    exact ⟨i, j, (hT i j).mp hij, hs⟩
  covered i j hij hb := h.covered i j ((hT i j).mpr hij) hb

theorem Linked.nodup (h : Linked hbad g T att st) (P : Nat) : (st.manager P).child.Nodup :=
  (h.sorted P).imp fun hlt heq => by
    rw [heq] at hlt
    exact lt_irrefl _ hlt

theorem Linked.init (hlinks : ∀ m, (st₀.manager m).parent = none ∧ (st₀.manager m).child = [])
    (hT : ∀ a b, ¬ T a b) : Linked hbad g T att st₀ where
  same := .refl st₀
  mem_child_iff P C := by
    rw [(hlinks P).2, (hlinks C).1]
    simp
  sorted P := by
    rw [(hlinks P).2]
    exact .nil
  source C P hp := by
    rw [(hlinks C).1] at hp
    cases hp
  covered i j hij := absurd hij (hT i j)

/-- A pair that changes nothing. -/
theorem Linked.keep (h : Linked hbad g T att st)
    (hcov : (scopesOf sp hbad).Below i j →
      ∃ p, (st.manager (g.mgr i)).parent = some (g.mgr p) ∧
        mgrRank hbad g p ≤ mgrRank hbad g j) :
    Linked hbad g (fun a b => T a b ∨ (a = i ∧ b = j)) att st where
  same := h.same
  mem_child_iff := h.mem_child_iff
  sorted := h.sorted
  source C P hp := by
    obtain ⟨a, b, hab, hs⟩ := h.source C P hp
    exact ⟨a, b, Or.inl hab, hs⟩
  covered a b hab hb := by
    rcases hab with hab | ⟨rfl, rfl⟩
    · exact h.covered a b hab hb
    · exact hcov hb

/-- A pair whose second manager becomes the parent of the first one. -/
theorem Linked.replace (hT : ∀ a b, T a b ↔ a.index < i.index ∨ (a = i ∧ b.index < j.index))
    (h : Linked hbad g T att st) (hb : (scopesOf sp hbad).Below i j)
    (hsame : SameGroups st₀ st')
    (hparent : ∀ m, (st'.manager m).parent =
      if m = g.mgr i then some (g.mgr j) else (st.manager m).parent)
    (hchild : ∀ m, (st'.manager m).child =
      if m = g.mgr j then (st.manager m).child.erase (g.mgr i) ++ [g.mgr i]
      else (st.manager m).child.erase (g.mgr i))
    (hcov : ∀ a b, T a b → (scopesOf sp hbad).Below a b → g.mgr a = g.mgr i →
      mgrRank hbad g j ≤ mgrRank hbad g b) :
    Linked hbad g (fun a b => T a b ∨ (a = i ∧ b = j))
      (Function.update att (g.mgr i) i.index) st' where
  same := hsame
  mem_child_iff P C := by
    rw [hparent, hchild]
    by_cases hC : C = g.mgr i
    · rw [if_pos hC, hC]
      have herase : g.mgr i ∉ (st.manager P).child.erase (g.mgr i) := (h.nodup P).not_mem_erase
      by_cases hP : P = g.mgr j
      · simp [hP]
      · simp only [if_neg hP, herase, Option.some_inj, false_iff]
        exact fun heq => hP heq.symm
    · rw [if_neg hC, ← h.mem_child_iff]
      by_cases hP : P = g.mgr j
      · simp [hP, hC, List.mem_erase_of_ne hC]
      · rw [if_neg hP, List.mem_erase_of_ne hC]
  sorted P := by
    have hold : ((st.manager P).child.erase (g.mgr i)).Pairwise fun C D =>
        Function.update att (g.mgr i) i.index C < Function.update att (g.mgr i) i.index D := by
      refine ((h.sorted P).sublist List.erase_sublist).imp_of_mem fun {C D} hC hD hlt => ?_
      rw [Function.update_of_ne (fun heq => (h.nodup P).not_mem_erase (heq ▸ hC)),
        Function.update_of_ne (fun heq => (h.nodup P).not_mem_erase (heq ▸ hD))]
      exact hlt
    rw [hchild]
    split_ifs
    · refine List.pairwise_append.mpr ⟨hold, List.pairwise_singleton _ _, fun C hC D hD => ?_⟩
      -- the other children of the manager were attached in earlier turns
      have hne : C ≠ g.mgr i := fun heq => (h.nodup P).not_mem_erase (heq ▸ hC)
      obtain ⟨a, b, hab, -, ⟨ha, -⟩, hatt⟩ :=
        h.source C P ((h.mem_child_iff P C).mp (List.mem_of_mem_erase hC))
      rw [List.mem_singleton.mp hD, Function.update_self, Function.update_of_ne hne, ← hatt]
      rcases (hT a b).mp hab with hlt | ⟨rfl, -⟩
      · exact hlt
      · exact absurd ha.symm hne
    · exact hold
  source C P hp := by
    rw [hparent] at hp
    by_cases hC : C = g.mgr i
    · rw [if_pos hC] at hp
      exact ⟨i, j, Or.inr ⟨rfl, rfl⟩, hb, ⟨hC.symm, Option.some.inj hp⟩, by
        rw [hC, Function.update_self]⟩
    · rw [if_neg hC] at hp
      obtain ⟨a, b, hab, hbelow, hm, hatt⟩ := h.source C P hp
      exact ⟨a, b, Or.inl hab, hbelow, hm, by rw [Function.update_of_ne hC, hatt]⟩
  covered a b hab hbelow := by
    rw [hparent]
    by_cases ha : g.mgr a = g.mgr i
    · refine ⟨j, if_pos ha, ?_⟩
      rcases hab with hab | ⟨-, rfl⟩
      · exact hcov a b hab hbelow ha
      · exact le_rfl
    · rw [if_neg ha]
      rcases hab with hab | ⟨rfl, -⟩
      · exact h.covered a b hab hbelow
      · exact absurd rfl ha

/-- **One pair** keeps the invariant. -/
theorem Linked.step (hT : ∀ a b, T a b ↔ a.index < i.index ∨ (a = i ∧ b.index < j.index))
    (h : Linked hbad g T att st) (hstep : linkStep sp i.index j.index st = some st') :
    ∃ att', Linked hbad g (fun a b => T a b ∨ (a = i ∧ b = j)) att' st' := by
  have hrel : st.rel = finalRel sp rel := h.same.rel_eq.trans g.rel_eq
  have hptr : ∀ x : Coord sp, st.managerPtr x.index = some (g.mgr x) := fun x => by
    rw [h.same.ptr_eq, g.ptr_eq]
  have hsame' := h.same.trans (SameGroups.linkStep hstep)
  unfold linkStep at hstep
  rw [hrel, hptr, hptr] at hstep
  by_cases hb : (scopesOf sp hbad).Below i j
  · rw [if_pos ⟨i.live, j.live, (childRel_iff hbad rel).mpr hb⟩] at hstep
    have hset : setParent (g.mgr j) (g.mgr i) st = some st' := hstep
    unfold setParent at hset
    split at hset
    · rename_i hnone
      refine ⟨_, h.replace hT hb hsame' (attach_parent hset) (fun m => ?_) fun a b hab hbel ha => ?_⟩
      · have hnot : g.mgr i ∉ (st.manager m).child := fun hmem => by
          rw [h.mem_child_iff, hnone] at hmem
          cases hmem
        rw [List.erase_of_not_mem hnot, attach_child hset]
      · obtain ⟨p, hp, -⟩ := h.covered a b hab hbel
        rw [ha, hnone] at hp
        cases hp
    · rename_i old hold
      obtain ⟨_, o, _, _, ⟨_, rfl⟩, _⟩ := h.source _ _ hold
      split_ifs at hset with heq
      · obtain rfl := Option.some.inj hset
        exact ⟨att, h.keep fun _ => ⟨o, hold, (mgrRank_congr heq).le⟩⟩
      · rw [hrel, h.same.data_eq, h.same.data_eq] at hset
        have hscan := newIsBelow_cases (finalRel sp rel) (st₀.manager (g.mgr o)).paraDataNum
          (st₀.manager (g.mgr j)).paraDataNum
        cases hres : newIsBelow (finalRel sp rel) (st₀.manager (g.mgr o)).paraDataNum
          (st₀.manager (g.mgr j)).paraDataNum with
        | none =>
            rw [hres] at hset hscan
            obtain rfl := Option.some.inj hset
            exact ⟨att, h.keep fun _ => ⟨o, hold, rank_le_of_unrelated hT h hold hb
              fun x hx y hy => (hscan x hx y hy).2⟩⟩
        | some b =>
            rw [hres] at hset hscan
            cases b with
            | false =>
                obtain rfl := Option.some.inj hset
                obtain ⟨x, hx, y, hy, hxy⟩ := hscan
                exact ⟨att, h.keep fun _ => ⟨o, hold, (rank_lt_of_scan hx hy hxy).le⟩⟩
            | true =>
                obtain ⟨x, hx, y, hy, hyx⟩ := hscan
                refine ⟨_, h.replace hT hb hsame' (fun m => ?_) (fun m => ?_)
                  fun a b hab hbel ha => ?_⟩
                · rw [attach_parent hset, deleteChild_parent]
                · rw [attach_child hset, deleteChild_child]
                  by_cases hm : m = g.mgr o
                  · rw [if_pos hm]
                  · have hnot : g.mgr i ∉ (st.manager m).child := fun hmem => by
                      rw [h.mem_child_iff, hold] at hmem
                      exact hm (Option.some.inj hmem).symm
                    rw [if_neg hm, List.erase_of_not_mem hnot]
                · obtain ⟨p, hp, hle⟩ := h.covered a b hab hbel
                  rw [ha, hold] at hp
                  rw [← mgrRank_congr (Option.some.inj hp)] at hle
                  exact (rank_lt_of_scan hy hx hyx).le.trans hle
  · rw [if_neg fun hc => hb ((childRel_iff hbad rel).mp hc.2.2)] at hstep
    obtain rfl := Option.some.inj hstep
    exact ⟨att, h.keep fun hb' => absurd hb' hb⟩

/-- The pairs before the one of coordinations `i` and `j`. -/
def PairBefore (i j : Nat) (a b : Coord sp) : Prop :=
  a.index < i ∨ (a.index = i ∧ b.index < j)

/-- One turn of the inner loop, for any two indices. -/
theorem Linked.turn {i j : Nat} (h : Linked hbad g (PairBefore i j) att st) (hi : i < sp.paraNum)
    (hj : j < sp.paraNum) (hstep : linkStep sp i j st = some st') :
    ∃ att', Linked hbad g (PairBefore i (j + 1)) att' st' := by
  by_cases hlive : sp.live i ∧ sp.live j
  · let i' : Coord sp := .mk' i hi hlive.1
    let j' : Coord sp := .mk' j hj hlive.2
    have hT : ∀ a b : Coord sp, PairBefore i j a b ↔
        a.index < i'.index ∨ (a = i' ∧ b.index < j'.index) := fun a b => by
      rw [← Coord.index_injective.eq_iff (a := a)]
      rfl
    obtain ⟨att', hl'⟩ := Linked.step (i := i') (j := j') hT h hstep
    refine ⟨att', hl'.congr fun a b => ?_⟩
    rw [← Coord.index_injective.eq_iff (a := a), ← Coord.index_injective.eq_iff (a := b)]
    simp only [PairBefore, i', j', Coord.index_mk']
    omega
  · have hno : ¬ (sp.live i ∧ sp.live j ∧ childRel st.rel i j) := fun hc =>
      hlive ⟨hc.1, hc.2.1⟩
    rw [linkStep, if_neg hno] at hstep
    obtain rfl := Option.some.inj hstep
    refine ⟨att, h.congr fun a b => ?_⟩
    have hne : ¬ (a.index = i ∧ b.index = j) := fun hab =>
      hlive ⟨hab.1 ▸ a.live, hab.2 ▸ b.live⟩
    simp only [PairBefore]
    omega

theorem Linked.nextRow {i : Nat} (h : Linked hbad g (PairBefore i sp.paraNum) att st) :
    Linked hbad g (PairBefore (i + 1) 0) att st :=
  h.congr fun a b => by
    have := b.index_lt
    simp only [PairBefore]
    omega

theorem Linked.start (hlinks : ∀ m, (st₀.manager m).parent = none ∧ (st₀.manager m).child = []) :
    Linked hbad g (PairBefore 0 0) att st₀ :=
  .init hlinks fun a b => by
    simp only [PairBefore]
    omega

theorem Linked.finish (h : Linked hbad g (PairBefore sp.paraNum 0) att st) :
    Linked hbad g (fun _ _ => True) att st :=
  h.congr fun a _ => iff_of_true (Or.inl a.index_lt) trivial

variable (hbad) in
/-- **All pairs** keep it. -/
theorem Linked.run (h : linkPass sp st₀ = some st) :
    ∃ att, Linked hbad g (fun _ _ => True) att st := by
  have hrun := Loop.upTo?_induction (fun i s => ∃ att, Linked hbad g (PairBefore i 0) att s)
    (Nat.zero_le _) (fun i s s' _ hi hs hloop => ?_) ⟨fun _ => 0, .start g.unlinked⟩ h
  · obtain ⟨att, hl⟩ := hrun
    exact ⟨att, hl.finish⟩
  · have hrow := Loop.upTo?_induction (fun j s => ∃ att, Linked hbad g (PairBefore i j) att s)
      (Nat.zero_le _) (fun j s s' _ hj ⟨_, hl⟩ hstep => hl.turn hi hj hstep) hs hloop
    obtain ⟨att, hl⟩ := hrow
    exact ⟨att, hl.nextRow⟩

end Linking

/-! ## The forest -/

/-- The links among the managers make a forest: no manager is its own ancestor,
a manager with a parent is listed once by its parent and by no other manager,
and a manager without one is listed nowhere. -/
structure ParaState.IsForest (st : ParaState) : Prop where
  parent_lt : ∀ m p, (st.manager m).parent = some p → m < st.paraMNum ∧ p < st.paraMNum
  acyclic : ∀ m, ¬ Relation.TransGen (fun a b => (st.manager a).parent = some b) m m
  listed_once : ∀ m p, (st.manager m).parent = some p →
    (st.manager p).child.count m = 1 ∧ ∀ q, q ≠ p → m ∉ (st.manager q).child
  unlisted : ∀ m, (st.manager m).parent = none → ∀ q, m ∉ (st.manager q).child

/-- All but the parts and the status of a manager. -/
structure SameNode (mgr mgr' : ParaManager) : Prop where
  parent_eq : mgr'.parent = mgr.parent
  child_eq : mgr'.child = mgr.child
  data_eq : mgr'.paraDataNum = mgr.paraDataNum

theorem SameNode.refl (mgr : ParaManager) : SameNode mgr mgr := ⟨rfl, rfl, rfl⟩

theorem SameNode.trans {mgr mgr₁ mgr' : ParaManager} (h : SameNode mgr mgr₁)
    (h' : SameNode mgr₁ mgr') : SameNode mgr mgr' where
  parent_eq := h'.parent_eq.trans h.parent_eq
  child_eq := h'.child_eq.trans h.child_eq
  data_eq := h'.data_eq.trans h.data_eq

/-- The same links between the same managers. -/
structure SameLinks (st st' : ParaState) : Prop where
  paraMNum_eq : st'.paraMNum = st.paraMNum
  node : ∀ m, SameNode (st.manager m) (st'.manager m)

section Forest

variable {sp : ParaSentence} {rel : RelMatrix} {st₀ st st' : ParaState}
  {hbad : badPair sp = none} {g : Grouped sp (finalRel sp rel) sp.paraNum st₀}
  {T : Coord sp → Coord sp → Prop} {att : Nat → Nat}

/-- A manager above another has the greater rank. -/
theorem Linked.rank_lt (h : Linked hbad g T att st) {x y : Coord sp}
    (hxy : (st.manager (g.mgr x)).parent = some (g.mgr y)) :
    mgrRank hbad g x < mgrRank hbad g y := by
  obtain ⟨i, j, -, hb, ⟨hi, hj⟩, -⟩ := h.source _ _ hxy
  rw [← mgrRank_congr hi, ← mgrRank_congr hj]
  exact rank_lt_of_below (g.groups hbad) (Or.inl rfl) (Or.inl rfl) hb

theorem Linked.isForest (h : Linked hbad g T att st) : st.IsForest where
  parent_lt m p hp := by
    obtain ⟨i, j, -, -, ⟨rfl, rfl⟩, -⟩ := h.source m p hp
    rw [h.same.paraMNum_eq]
    exact ⟨g.mgr_lt i, g.mgr_lt j⟩
  acyclic m hcycle := by
    -- along the links of a cycle the rank would increase
    have hup : ∀ a b, Relation.TransGen (fun a b => (st.manager a).parent = some b) a b →
        ∃ x y, g.mgr x = a ∧ g.mgr y = b ∧ mgrRank hbad g x < mgrRank hbad g y := by
      intro a b hab
      induction hab with
      | single hab =>
          obtain ⟨i, j, -, -, ⟨rfl, rfl⟩, -⟩ := h.source _ _ hab
          exact ⟨i, j, rfl, rfl, h.rank_lt hab⟩
      | tail _ hbc ih =>
          obtain ⟨x, y, hx, rfl, hlt⟩ := ih
          obtain ⟨i, j, -, -, ⟨hi, rfl⟩, -⟩ := h.source _ _ hbc
          rw [← hi] at hbc
          exact ⟨x, j, hx, rfl, hlt.trans ((mgrRank_congr hi).symm.trans_lt (h.rank_lt hbc))⟩
    obtain ⟨x, y, hx, hy, hlt⟩ := hup m m hcycle
    rw [mgrRank_congr (hx.trans hy.symm)] at hlt
    exact lt_irrefl _ hlt
  listed_once m p hp := by
    refine ⟨List.count_eq_one_of_mem (h.nodup p) ((h.mem_child_iff p m).mpr hp),
      fun q hq hmem => ?_⟩
    rw [h.mem_child_iff, hp] at hmem
    exact hq (Option.some.inj hmem).symm
  unlisted m hm q hmem := by
    rw [h.mem_child_iff, hm] at hmem
    cases hmem

theorem ParaState.IsForest.congr (hs : SameLinks st st') (h : st.IsForest) : st'.IsForest where
  parent_lt m p hp := by
    rw [(hs.node _).parent_eq] at hp
    rw [hs.paraMNum_eq]
    exact h.parent_lt m p hp
  acyclic m := by
    simp only [(hs.node _).parent_eq]
    exact h.acyclic m
  listed_once m p hp := by
    rw [(hs.node _).parent_eq] at hp
    simp only [(hs.node _).child_eq]
    exact h.listed_once m p hp
  unlisted m hm q := by
    rw [(hs.node _).parent_eq] at hm
    rw [(hs.node _).child_eq]
    exact h.unlisted m hm q

end Forest

/-! ## The revision leaves the links alone -/

section Links

variable {sp : ParaSentence} {mgr mgr' : Nat → ParaManager} {st st' : ParaState} {m first last : Nat}

theorem widen_node (k : Nat) : SameNode (mgr k) (widen mgr m first last k) := by
  by_cases hk : k = m
  · subst hk
    unfold widen
    constructor <;> split_ifs <;> simp
  · unfold widen
    constructor <;> split_ifs <;> simp [Function.update_of_ne hk]

theorem paraReviseScope_node : ∀ (depth m : Nat) (mgr mgr' : Nat → ParaManager),
    paraReviseScope depth m mgr = some mgr' → ∀ k, SameNode (mgr k) (mgr' k)
  | 0, _, _, _, h => by cases h
  | depth + 1, m, mgr, mgr', h => by
      unfold paraReviseScope at h
      split at h
      · obtain rfl := Option.some.inj h
        exact fun k => .refl _
      · obtain ⟨mgr₁, hfold, rfl⟩ := Option.map_eq_some_iff.mp h
        have hrun := Loop.foldlM_induction (fun _ s => ∀ k, SameNode (mgr k) (s k)) _ [] mgr mgr₁
          (fun _ a s s' _ hs hrec k => (hs k).trans (paraReviseScope_node depth a s s' hrec k))
          (fun k => .refl _) hfold
        exact fun k => (hrun k).trans (widen_node k)

theorem SameLinks.revisePass {depth : Nat} (h : revisePass depth st = some st') :
    SameLinks st st' := by
  obtain ⟨mgr, hloop, rfl⟩ := Option.map_eq_some_iff.mp h
  have hrun := Loop.upTo?_induction (fun _ s => ∀ k, SameNode (st.manager k) (s k))
    (Nat.zero_le _) (fun i s s' _ _ hs hstep => ?_) (fun k => .refl _) hloop
  · exact ⟨rfl, hrun⟩
  · split_ifs at hstep
    · exact fun k => (hs k).trans (paraReviseScope_node depth i s s' hstep k)
    · exact Option.some.inj hstep ▸ hs

theorem SameLinks.markPass (st : ParaState) : SameLinks st (markPass sp st) := by
  refine ⟨rfl, fun m => ⟨?_, ?_, ?_⟩⟩
  all_goals
    dsimp only [Knp.markPass]
    split_ifs <;> rfl

theorem SameLinks.trans {st₁ : ParaState} (h : SameLinks st st₁) (h' : SameLinks st₁ st') :
    SameLinks st st' where
  paraMNum_eq := h'.paraMNum_eq.trans h.paraMNum_eq
  node m := (h.node m).trans (h'.node m)

end Links

section Forest

variable {sp : ParaSentence} {rel : RelMatrix} {st : ParaState}

theorem detectParaRelation_eq_ok (h : detectParaRelation sp rel = .ok st) :
    ∃ st₁ st₂, detectManagers sp rel = .ok st₁ ∧ revisePass st₁.paraMNum st₁ = some st₂ ∧
      st = markPass sp st₂ := by
  unfold detectParaRelation at h
  split at h
  · cases h
  · rename_i st₁ hdetect
    split at h
    · cases h
    · rename_i st₂ hrevise
      exact ⟨st₁, st₂, hdetect, hrevise, by simpa using h.symm⟩

/-- What the linking pass leaves, with the groups it started from. -/
theorem detectManagers_linked (h : detectManagers sp rel = .ok st) :
    ∃ (hbad : badPair sp = none) (st₀ : ParaState)
      (g : Grouped sp (finalRel sp rel) sp.paraNum st₀) (att : Nat → Nat),
      Linked hbad g (fun _ _ => True) att st := by
  obtain ⟨hbad, st₀, hgroup, hlink⟩ := detectManagers_eq_ok h
  have g := Grouped.run (fun _ _ _ => link_unique hbad rel) hgroup
  obtain ⟨att, hl⟩ := Linked.run (g := g) hbad hlink
  exact ⟨hbad, st₀, g, att, hl⟩

/-- The managers of a sentence form a forest. -/
theorem detectParaRelation_isForest (h : detectParaRelation sp rel = .ok st) : st.IsForest := by
  obtain ⟨st₁, st₂, hdetect, hrevise, rfl⟩ := detectParaRelation_eq_ok h
  obtain ⟨hbad, st₀, g, att, hl⟩ := detectManagers_linked hdetect
  exact hl.isForest.congr ((SameLinks.revisePass hrevise).trans (SameLinks.markPass st₂))

end Forest

/-- A coordination inside the second part of another one, with a third after both. -/
def nestedPair : ParaSentence :=
  .ofList 8 [⟨0, 1, 4, 5, .n⟩, ⟨2, 3, 4, 5, .n⟩, ⟨0, 5, 7, 5, .n⟩] (by simp) (by simp)

theorem nestedPair_isForest :
    ∃ st, detectParaRelation nestedPair (fun _ _ => .not) = .ok st ∧
      (st.manager 1).parent = some 0 ∧ (st.manager 0).parent = some 2 ∧ st.IsForest := by
  obtain ⟨st, hst, h1, h0⟩ : ∃ st, detectParaRelation nestedPair (fun _ _ => .not) = .ok st ∧
      (st.manager 1).parent = some 0 ∧ (st.manager 0).parent = some 2 :=
    ⟨_, rfl, by decide, by decide⟩
  exact ⟨st, hst, h1, h0, detectParaRelation_isForest hst⟩

end Knp
