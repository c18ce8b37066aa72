import Mathlib.Data.Fintype.Card
import Knp.ParaSpan

/-!
# The arrays are large enough

`detect_para_relation` gives up with "Too many para" when a manager gets
`PARA_PART_MAX` coordinations or children. `check_para_key` lets the analysis
run only on sentences with fewer coordinations than that.

> Then `REL_BAD` is the only reason for which `detect_para_relation` fails.

A manager lists distinct coordinations, and distinct children.
-/

namespace Knp

theorem nodup_length_le {l : List Nat} {n : Nat} (h : l.Nodup) (hlt : ∀ x ∈ l, x < n) :
    l.length ≤ n := by
  have hsub : l.toFinset ⊆ Finset.range n := fun x hx =>
    Finset.mem_range.mpr (hlt x (List.mem_toFinset.mp hx))
  have hcard := Finset.card_le_card hsub
  rwa [List.toFinset_card_of_nodup h, Finset.card_range] at hcard

variable {sp : ParaSentence} {rel : RelMatrix} {st₀ st st' : ParaState} {att : Nat → Nat}
  {m i j : Nat}

/-! ## Coordinations of a manager -/

theorem Grouped.length_le (hbad : badPair sp = none) (g : Grouped sp (finalRel sp rel) i st)
    (hm : m < st.paraMNum) : (st.manager m).paraDataNum.length ≤ sp.paraNum := by
  obtain ⟨a, hc, -⟩ := g.chained m hm
  refine nodup_length_le ((hc.pairwise hbad rel).imp_of_mem fun {x y} hx _ hxy heq => ?_)
    fun x hx => (g.live_of_mem hm hx).1
  obtain ⟨hxn, hxl⟩ := g.live_of_mem hm hx
  have := key_lt_jend_of_live hxn hxl
  have := hxy.1
  rw [← heq] at this
  omega

/-- A turn of the grouping does not run out of room. -/
theorem Grouped.step_total (hbad : badPair sp = none) (hn : sp.paraNum < PARA_PART_MAX)
    (g : Grouped sp (finalRel sp rel) i st) (hi : i < sp.paraNum) :
    ∃ st', groupStep sp i st = some st' := by
  unfold groupStep
  split_ifs with hl
  swap
  · exact ⟨st, rfl⟩
  have huniq := fun i j k => link_unique (i := i) (j := j) (k := k) hbad rel
  obtain ⟨m, st₁, hopen, g₁, hptr⟩ : ∃ m st₁, managerOf sp i st = some (m, st₁) ∧
      Grouped sp (finalRel sp rel) i st₁ ∧ st₁.managerPtr i = some m := by
    unfold managerOf
    cases hptr : st.managerPtr i with
    | some m => exact ⟨m, st, rfl, g, hptr⟩
    | none =>
        rw [openManager_eq_opened (g.fresh st.paraMNum le_rfl)]
        exact ⟨st.paraMNum, opened sp i st, rfl, g.open_ hi hl hptr, opened_ptr_self⟩
  rw [hopen]
  have hroom : ∀ j, Link sp (finalRel sp rel) i j → addMember sp m j st₁ =
      some (joined sp m j st₁) := by
    intro j hlink
    have hm := (g₁.ptr_mem i m hptr).1.1
    have hlen := (g₁.join huniq hptr hlink).length_le hbad hm
    rw [joined_manager_self] at hlen
    exact addMember_eq_joined (lt_of_le_of_lt hlen hn)
  have hloop := Loop.upTo?_total
    (fun j (st : ParaState) =>
      if sp.live j ∧ st.rel i j = .par then addMember sp m j st else some st)
    (fun k s => ((∀ j < k, ¬ Link sp (finalRel sp rel) i j) ∧ s = st₁) ∨
      ∃ j < k, Link sp (finalRel sp rel) i j ∧ s = joined sp m j st₁)
    (show i + 1 ≤ sp.paraNum from hi) (fun k s hk hkn hs => ?_)
    (Or.inl ⟨fun j hj hlink => by have := hlink.1.1; omega, rfl⟩)
  · obtain ⟨st', hrun, -⟩ := hloop
    exact ⟨st', hrun⟩
  · have hlink_iff : Link sp (finalRel sp rel) i k ↔ sp.live k ∧ s.rel i k = .par := by
      have hrel : s.rel = finalRel sp rel := by
        rcases hs with ⟨-, rfl⟩ | ⟨_, -, -, rfl⟩
        · exact g₁.rel_eq
        · exact g₁.rel_eq
      rw [hrel]
      exact ⟨fun hlink => hlink.2.2, fun hc => ⟨⟨hk, hkn⟩, hl, hc⟩⟩
    by_cases hc : sp.live k ∧ s.rel i k = .par
    · have hlink := hlink_iff.mpr hc
      rw [if_pos hc]
      rcases hs with ⟨hnone, rfl⟩ | ⟨j, hjk, hj, -⟩
      · exact ⟨_, hroom k hlink, Or.inr ⟨k, Nat.lt_succ_self k, hlink, rfl⟩⟩
      · have := huniq i j k hj hlink
        omega
    · rw [if_neg hc]
      refine ⟨s, rfl, ?_⟩
      rcases hs with ⟨hnone, hs⟩ | ⟨j, hjk, hj, hs⟩
      · refine Or.inl ⟨fun j hj hlink => ?_, hs⟩
        rcases (Nat.lt_succ_iff.mp hj).lt_or_eq with hlt | rfl
        · exact hnone j hlt hlink
        · exact hc (hlink_iff.mp hlink)
      · exact Or.inr ⟨j, by omega, hj, hs⟩

theorem Grouped.run_total (hbad : badPair sp = none) (hn : sp.paraNum < PARA_PART_MAX) :
    ∃ st, groupPass sp (initParaManager (finalRel sp rel)) = some st := by
  obtain ⟨st, hrun, -⟩ := Loop.upTo?_total (groupStep sp)
    (fun i s => Grouped sp (finalRel sp rel) i s) (Nat.zero_le sp.paraNum)
    (fun i s _ hi g => by
      obtain ⟨s', hs'⟩ := g.step_total hbad hn hi
      exact ⟨s', hs', g.step (fun _ _ _ => link_unique hbad rel) hi hs'⟩)
    Grouped.init
  exact ⟨st, hrun⟩

/-! ## Children of a manager -/

section Children

variable {hbad : badPair sp = none} {g : Grouped sp (finalRel sp rel) sp.paraNum st₀}

include g in
/-- There are no more managers than coordinations. -/
theorem paraMNum_le : st₀.paraMNum ≤ sp.paraNum := by
  have hsub : (Finset.range st₀.paraMNum) ⊆
      (Finset.univ : Finset (Fin sp.paraNum)).image fun x : Fin sp.paraNum =>
        (st₀.managerPtr x.1).getD st₀.paraMNum := by
    intro m hm
    obtain ⟨a, ha, -⟩ := g.exists_leader (Finset.mem_range.mp hm)
    refine Finset.mem_image.mpr ⟨a.1, Finset.mem_univ _, ?_⟩
    have hptr : st₀.managerPtr a.1 = some m := g.mgr_eq_iff.mp ha
    rw [hptr]
    rfl
  have hcard := (Finset.card_le_card hsub).trans Finset.card_image_le
  rwa [Finset.card_range, Finset.card_univ, Fintype.card_fin] at hcard

theorem attach_total {parent child : Nat}
    (h : ((st.manager parent).child ++ [child]).length < PARA_PART_MAX) :
    ∃ st', attach parent child st = some st' := by
  dsimp only [attach]
  rw [if_neg]
  · exact ⟨_, rfl⟩
  · rw [setParentPtr_child]
    exact not_le.mpr h

/-- A manager has room for a child that it does not list yet. -/
theorem Linked.room {T : Coord sp → Coord sp → Prop} (hn : sp.paraNum < PARA_PART_MAX)
    (h : Linked hbad g T att st) {l : List Nat} {P : Nat} (x : Coord sp)
    (hl : l.Sublist (st.manager P).child) (hx : g.mgr x ∉ l) :
    (l ++ [g.mgr x]).length < PARA_PART_MAX := by
  have hnodup : (l ++ [g.mgr x]).Nodup := by
    refine List.nodup_append.mpr ⟨(h.nodup P).sublist hl, List.nodup_singleton _, ?_⟩
    intro a ha b hb heq
    rw [heq, List.mem_singleton.mp hb] at ha
    exact hx ha
  refine lt_of_le_of_lt (nodup_length_le (n := st₀.paraMNum) hnodup fun c hc => ?_)
    ((paraMNum_le (g := g)).trans_lt hn)
  rcases List.mem_append.mp hc with hc | hc
  · obtain ⟨y, _, _, _, ⟨rfl, _⟩, _⟩ := h.source c P ((h.mem_child_iff P c).mp (hl.subset hc))
    exact g.mgr_lt y
  · rw [List.mem_singleton.mp hc]
    exact g.mgr_lt x

/-- A turn of the linking does not run out of room. -/
theorem Linked.turn_total {T : Coord sp → Coord sp → Prop} (hn : sp.paraNum < PARA_PART_MAX)
    (h : Linked hbad g T att st) (hi : i < sp.paraNum) (hj : j < sp.paraNum) :
    ∃ st', linkStep sp i j st = some st' := by
  unfold linkStep
  split_ifs with hc
  swap
  · exact ⟨st, rfl⟩
  let x : Coord sp := .mk' i hi hc.1
  let y : Coord sp := .mk' j hj hc.2.1
  have hx : st.managerPtr i = some (g.mgr x) := by rw [h.same.ptr_eq]; exact g.ptr_eq x
  have hy : st.managerPtr j = some (g.mgr y) := by rw [h.same.ptr_eq]; exact g.ptr_eq y
  rw [hx, hy]
  show ∃ st', setParent (g.mgr y) (g.mgr x) st = some st'
  unfold setParent
  have hmem : ∀ P, g.mgr x ∈ (st.manager P).child → (st.manager (g.mgr x)).parent = some P :=
    fun P => (h.mem_child_iff P _).mp
  cases hparent : (st.manager (g.mgr x)).parent with
  | none =>
      refine attach_total (h.room hn x (List.Sublist.refl _) fun hin => ?_)
      rw [hmem _ hin] at hparent
      cases hparent
  | some old =>
      dsimp only
      split_ifs with heq
      · exact ⟨st, rfl⟩
      · split
        · refine attach_total ?_
          rw [deleteChild_child, if_neg fun hold => heq hold.symm]
          refine h.room hn x (List.Sublist.refl _) fun hin => ?_
          rw [hmem _ hin] at hparent
          exact heq (Option.some.inj hparent).symm
        · exact ⟨st, rfl⟩

theorem Linked.run_total (hbad : badPair sp = none)
    (g : Grouped sp (finalRel sp rel) sp.paraNum st₀) (hn : sp.paraNum < PARA_PART_MAX) :
    ∃ st, linkPass sp st₀ = some st := by
  obtain ⟨st, hrun, -⟩ := Loop.upTo?_total (fun i => Loop.upTo? 0 sp.paraNum (linkStep sp i))
    (fun i s => ∃ att, Linked hbad g (PairBefore i 0) att s) (Nat.zero_le sp.paraNum)
    (fun i s _ hi hs => by
      obtain ⟨s', hs', att, hl⟩ := Loop.upTo?_total (linkStep sp i)
        (fun j s => ∃ att, Linked hbad g (PairBefore i j) att s) (Nat.zero_le sp.paraNum)
        (fun j s _ hj ⟨_, hl⟩ => by
          obtain ⟨s', hs'⟩ := hl.turn_total hn hi hj
          exact ⟨s', hs', hl.turn hi hj hs'⟩) hs
      exact ⟨s', hs', att, hl.nextRow⟩)
    ⟨fun _ => 0, Linked.start g.unlinked⟩
  exact ⟨st, hrun⟩

end Children

/-! ## The analysis -/

/-- Sentences without `REL_BAD` are analysed to the end. -/
theorem detectManagers_total (hn : sp.paraNum < PARA_PART_MAX) (hbad : badPair sp = none) :
    ∃ st, detectManagers sp rel = .ok st := by
  obtain ⟨st₁, hgroup⟩ := Grouped.run_total hbad hn
  have g := Grouped.run (fun _ _ _ => link_unique hbad rel) hgroup
  obtain ⟨st, hlink⟩ := Linked.run_total hbad g hn
  have hrun : (groupPass sp (initParaManager (revPass sp (brotherPass sp (locatePass sp rel))))).bind
      (linkPass sp) = some st := Option.bind_eq_some_iff.mpr ⟨st₁, hgroup, hlink⟩
  refine ⟨st, ?_⟩
  unfold detectManagers
  rw [hbad]
  dsimp only
  rw [hrun]

/-- `REL_BAD` is the only reason for a failure. -/
theorem detectParaRelation_error (hn : sp.paraNum < PARA_PART_MAX) {e : ParaFailure}
    (h : detectParaRelation sp rel = .error e) :
    ∃ pre pos, badPair sp = some (pre, pos) ∧ e = .relBad pre pos := by
  cases hbad : badPair sp with
  | some p =>
      obtain ⟨pre, pos⟩ := p
      refine ⟨pre, pos, rfl, ?_⟩
      rw [detectParaRelation, detectManagers, hbad] at h
      exact (Except.error.inj h).symm
  | none =>
      obtain ⟨st, hst⟩ := detectManagers_total hn hbad
      obtain ⟨_, _, _, _, hl⟩ := detectManagers_linked hst
      obtain ⟨_, _, st', hrevise, -⟩ := hl.exists_revision
      rw [detectParaRelation, hst] at h
      dsimp only at h
      rw [hrevise] at h
      cases h

end Knp
