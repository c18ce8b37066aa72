import Knp.ParaGroup

/-!
# The managers as a partition of the coordinations

What `detect_para_relation` promises about its managers before it widens their
scopes: every coordination is in the list of the one manager its pointer names,
and the parts of a manager lie side by side.

> The parts always lie side by side. The managers are a partition exactly when
> no coordination has two `REL_PAR` predecessors.
-/

namespace Knp

/-- The parts of a manager: each ends at the key of the coordination that joins
it to the next part, which begins right behind that key. -/
structure PartsInOrder (sp : ParaSentence) (mgr : ParaManager) : Prop where
  start_length : mgr.startPos.length = mgr.paraDataNum.length + 1
  end_length : mgr.endPos.length = mgr.paraDataNum.length + 1
  joint : ∀ k i, mgr.paraDataNum[k]? = some i →
    mgr.endPos[k]? = some (sp.paraData i).keyPos ∧
      mgr.startPos[k + 1]? = some ((sp.paraData i).keyPos + 1)
  start_le_end : ∀ (k s e : Nat), mgr.startPos[k]? = some s → mgr.endPos[k]? = some e → s ≤ e

/-- Every coordination is in the list of exactly one manager, which its pointer
names, and the managers have their parts in order. -/
structure Partitioned (sp : ParaSentence) (st : ParaState) : Prop where
  unique : ∀ i < sp.paraNum, sp.live i → ∃ m < st.paraMNum, st.managerPtr i = some m ∧
    ∀ m' < st.paraMNum, i ∈ (st.manager m').paraDataNum ↔ m' = m
  parts : ∀ m < st.paraMNum, PartsInOrder sp (st.manager m)

/-- The pairs that become `REL_PAR`. -/
def ParPair (sp : ParaSentence) (i j : Nat) : Prop :=
  (i < j ∧ j < sp.paraNum) ∧ sp.live i ∧ sp.live j ∧
    (paraLocation sp i j = .par ∨ (paraLocation sp i j = .pos ∧ paraBrotherP sp i j))

/-- Two coordinations are continued by the same third one. -/
def TwoPredecessors (sp : ParaSentence) : Prop :=
  ∃ i j k, i < j ∧ ParPair sp i k ∧ ParPair sp j k

/-! ## Links -/

section Links

variable {sp : ParaSentence} (h : badPair sp = none) (rel : RelMatrix) {i j k : Nat}

theorem link_iff_sibling {i j : Coord sp} :
    Link sp (finalRel sp rel) i.index j.index ↔ (scopesOf sp h).Sibling i j := by
  constructor
  · intro hl
    exact (finalRel_eq_par_iff h rel hl.1.1).mp hl.2.2.2
  · intro hs
    have hij := (Coord.key_lt_key_iff i j).mp hs.1.key_lt
    exact ⟨⟨hij, j.index_lt⟩, i.live, j.live, (finalRel_eq_par_iff h rel hij).mpr hs⟩

include h in
theorem link_iff_parPair : Link sp (finalRel sp rel) i j ↔ ParPair sp i j := by
  refine and_congr_right fun hij => and_congr_right fun hi => and_congr_right fun hj => ?_
  let i' : Coord sp := .mk' i (hij.1.trans hij.2) hi
  let j' : Coord sp := .mk' j hij.2 hj
  exact (finalRel_eq_par_iff h rel (i := i') (j := j') hij.1).trans
    ((pairRel_eq_par_iff h rel (i := i') (j := j') hij.1).symm.trans
      (pairRel_eq_par rel (i := i') (j := j') hij.1))

include h in
theorem jend_eq_of_link (hl : Link sp (finalRel sp rel) i j) :
    (sp.paraData i).jendPos = (sp.paraData j).keyPos := by
  obtain ⟨⟨hij, hj⟩, hil, hjl, _⟩ := id hl
  have hs := (link_iff_sibling h rel (i := .mk' i (hij.trans hj) hil) (j := .mk' j hj hjl)).mp hl
  exact hs.2.1.symm

include h in
/-- A coordination is continued by one other at most. -/
theorem link_unique (hj : Link sp (finalRel sp rel) i j) (hk : Link sp (finalRel sp rel) i k) :
    j = k := by
  have hkey := (jend_eq_of_link h rel hj).symm.trans (jend_eq_of_link h rel hk)
  rcases lt_trichotomy j k with hlt | heq | hgt
  · have := sp.key_lt j k hlt hk.1.2
    omega
  · exact heq
  · have := sp.key_lt k j hgt hj.1.2
    omega

end Links

/-! ## Chains -/

section Chains

variable {sp : ParaSentence} {rel : RelMatrix} {st : ParaState} {mgr : ParaManager} {a i m x y : Nat}

theorem Grouped.live_of_mem (h : Grouped sp rel i st) (hm : m < st.paraMNum)
    (hx : x ∈ (st.manager m).paraDataNum) : x < sp.paraNum ∧ sp.live x := by
  rcases h.mem_cases m hm x hx with hhead | ⟨p, _, _, hlink⟩
  · obtain ⟨a, hc, ha, _⟩ := h.chained m hm
    obtain rfl : a = x := Option.some.inj (hc.head.symm.trans hhead)
    exact (h.ptr_mem a m ha).2
  · exact ⟨hlink.1.2, hlink.2.2.1⟩

/-- Coordination `x` ends before coordination `y` has its key. -/
def EndsBefore (sp : ParaSentence) (x y : Nat) : Prop :=
  (sp.paraData x).jendPos ≤ (sp.paraData y).keyPos ∧
    (sp.paraData y).keyPos < (sp.paraData y).jendPos

instance : Trans (EndsBefore sp) (EndsBefore sp) (EndsBefore sp) where
  trans hxy hyz := ⟨hxy.1.trans (hxy.2.le.trans hyz.1), hyz.2⟩

theorem key_lt_jend_of_live (hx : x < sp.paraNum) (hl : sp.live x) :
    (sp.paraData x).keyPos < (sp.paraData x).jendPos :=
  (Coord.mk' x hx hl).key_lt

theorem Chained.pairwise (hbad : badPair sp = none) (rel : RelMatrix)
    (h : Chained sp (finalRel sp rel) i mgr a) : mgr.paraDataNum.Pairwise (EndsBefore sp) :=
  (h.chain.imp fun _ _ hl =>
    ⟨(jend_eq_of_link hbad rel hl).le, key_lt_jend_of_live hl.1.2 hl.2.2.1⟩).pairwise

/-- Two coordinations of one manager: the earlier ends before the later has its key. -/
theorem endsBefore_of_mem (hbad : badPair sp = none) (rel : RelMatrix)
    (h : Grouped sp (finalRel sp rel) i st) (hm : m < st.paraMNum)
    (hx : x ∈ (st.manager m).paraDataNum) (hy : y ∈ (st.manager m).paraDataNum) (hxy : x < y) :
    EndsBefore sp x y := by
  obtain ⟨a, hc, _⟩ := h.chained m hm
  obtain ⟨p, hp, rfl⟩ := List.getElem_of_mem hx
  obtain ⟨q, hq, rfl⟩ := List.getElem_of_mem hy
  have hpair := List.pairwise_iff_getElem.mp (hc.pairwise hbad rel)
  rcases lt_trichotomy p q with hpq | rfl | hqp
  · exact hpair p q hp hq hpq
  · exact absurd hxy (lt_irrefl _)
  · have hyx := hpair q p hq hp hqp
    obtain ⟨hyn, hyl⟩ := h.live_of_mem hm hy
    have := key_lt_jend_of_live hyn hyl
    have := sp.key_lt _ _ hxy hyn
    have := hyx.1
    omega

/-- **Parts.** The parts of every manager lie side by side. -/
theorem Grouped.partsInOrder (hbad : badPair sp = none) (rel : RelMatrix)
    (h : Grouped sp (finalRel sp rel) i st) (hm : m < st.paraMNum) :
    PartsInOrder sp (st.manager m) := by
  obtain ⟨a, hc, _⟩ := h.chained m hm
  have hlive : ∀ k x, (st.manager m).paraDataNum[k]? = some x → x < sp.paraNum ∧ sp.live x :=
    fun k x hx => h.live_of_mem hm (List.mem_of_getElem? hx)
  have ha : (st.manager m).paraDataNum[0]? = some a := by
    rw [← List.head?_eq_getElem?]
    exact hc.head
  refine ⟨by simp [hc.startPos_eq], by simp [hc.endPos_eq], fun k x hx => ⟨?_, ?_⟩, ?_⟩
  · rw [hc.endPos_eq]
    cases k with
    | zero =>
        obtain rfl := Option.some.inj (ha.symm.trans hx)
        rfl
    | succ k =>
        -- the part before ends where `x` has its key
        obtain ⟨hk, hxk⟩ := List.getElem?_eq_some_iff.mp hx
        have hlink := hc.chain.getElem k hk
        rw [hxk] at hlink
        rw [List.getElem?_cons_succ, List.getElem?_map,
          List.getElem?_eq_getElem (Nat.lt_of_succ_lt hk)]
        exact congrArg some (jend_eq_of_link hbad rel hlink)
  · rw [hc.startPos_eq, List.getElem?_cons_succ, List.getElem?_map, hx]
    rfl
  · intro k s e hs he
    rw [hc.startPos_eq] at hs
    rw [hc.endPos_eq] at he
    cases k with
    | zero =>
        obtain ⟨han, hal⟩ := hlive 0 a ha
        obtain rfl := Option.some.inj hs
        obtain rfl := Option.some.inj he
        exact (Coord.mk' a han hal).start_le
    | succ k =>
        rw [List.getElem?_cons_succ, List.getElem?_map, Option.map_eq_some_iff] at hs he
        obtain ⟨x, hx, rfl⟩ := hs
        obtain ⟨y, hy, rfl⟩ := he
        obtain rfl := Option.some.inj (hx.symm.trans hy)
        obtain ⟨hxn, hxl⟩ := hlive k x hx
        exact key_lt_jend_of_live hxn hxl

end Chains

/-! ## The partition -/

section Partition

variable {sp : ParaSentence} {rel : RelMatrix} {st st' : ParaState}

/-- What a run of `detect_para_relation` that returns `TRUE` went through. -/
theorem detectManagers_eq_ok (h : detectManagers sp rel = .ok st) :
    badPair sp = none ∧ ∃ st₁, groupPass sp (initParaManager (finalRel sp rel)) = some st₁ ∧
      linkPass sp st₁ = some st := by
  unfold detectManagers at h
  split at h
  · cases h
  · rename_i hbad
    refine ⟨hbad, ?_⟩
    dsimp only at h
    split at h
    · cases h
    · rename_i st' hrun
      obtain ⟨st₁, hgroup, hlink⟩ := Option.bind_eq_some_iff.mp hrun
      obtain rfl : st' = st := by simpa using h
      exact ⟨st₁, hgroup, hlink⟩

theorem Partitioned.congr (hs : SameGroups st st') (h : Partitioned sp st) :
    Partitioned sp st' where
  unique i hi hl := by
    obtain ⟨m, hm, hptr, huniq⟩ := h.unique i hi hl
    refine ⟨m, hs.paraMNum_eq ▸ hm, hs.ptr_eq ▸ hptr, fun m' hm' => ?_⟩
    rw [hs.data_eq]
    exact huniq m' (hs.paraMNum_eq ▸ hm')
  parts m hm := by
    have hp := h.parts m (hs.paraMNum_eq ▸ hm)
    refine ⟨?_, ?_, fun k i hi => ?_, fun k s e hs' he => ?_⟩
    · rw [hs.start_eq, hs.data_eq]
      exact hp.start_length
    · rw [hs.end_eq, hs.data_eq]
      exact hp.end_length
    · rw [hs.data_eq] at hi
      rw [hs.start_eq, hs.end_eq]
      exact hp.joint k i hi
    · rw [hs.start_eq] at hs'
      rw [hs.end_eq] at he
      exact hp.start_le_end k s e hs' he

theorem SameGroups.symm (hs : SameGroups st st') : SameGroups st' st where
  rel_eq := hs.rel_eq.symm
  paraMNum_eq := hs.paraMNum_eq.symm
  ptr_eq := hs.ptr_eq.symm
  data_eq m := (hs.data_eq m).symm
  start_eq m := (hs.start_eq m).symm
  end_eq m := (hs.end_eq m).symm

/-- With one predecessor each, a coordination is in the list of its manager only. -/
theorem Grouped.partitioned (hbad : badPair sp = none)
    (h : Grouped sp (finalRel sp rel) sp.paraNum st) (htwo : ¬ TwoPredecessors sp) :
    Partitioned sp st where
  unique i hi hl := by
    obtain ⟨m, hptr⟩ := Option.ne_none_iff_exists'.mp (h.ptr_of_lt i hi hl)
    obtain ⟨⟨hm, hmem⟩, -⟩ := h.ptr_mem i m hptr
    refine ⟨m, hm, hptr, fun m' hm' => ⟨fun hmem' => ?_, fun heq => heq ▸ hmem⟩⟩
    obtain ⟨a', hc', ha', hfirst'⟩ := h.chained m' hm'
    rcases h.mem_cases m' hm' i hmem' with hhead | ⟨p, hp, hpm, hlink⟩
    · obtain rfl := Option.some.inj (hc'.head.symm.trans hhead)
      exact Option.some.inj (ha'.symm.trans hptr)
    · rcases h.source i m hptr with hhead | ⟨q, hq, hlink', hqm, -⟩
      · obtain ⟨a, hc, -, hfirst⟩ := h.chained m hm
        obtain rfl := Option.some.inj (hc.head.symm.trans hhead)
        exact absurd hlink (hfirst p)
      · -- both entries come from the one predecessor
        have hpair := (link_iff_parPair hbad rel).mp hlink
        have hpair' := (link_iff_parPair hbad rel).mp hlink'
        rcases lt_trichotomy p q with hlt | rfl | hgt
        · exact absurd ⟨p, q, i, hlt, hpair, hpair'⟩ htwo
        · exact Option.some.inj (hpm.symm.trans hqm)
        · exact absurd ⟨q, p, i, hgt, hpair', hpair⟩ htwo
  parts _ hm := h.partsInOrder hbad rel hm

/-- Two predecessors are in two managers, and both managers list their successor. -/
theorem Grouped.not_partitioned (hbad : badPair sp = none)
    (h : Grouped sp (finalRel sp rel) sp.paraNum st) (htwo : TwoPredecessors sp) :
    ¬ Partitioned sp st := by
  intro hpart
  obtain ⟨i, j, k, hij, hik, hjk⟩ := htwo
  have hlink_i := (link_iff_parPair hbad rel).mpr hik
  have hlink_j := (link_iff_parPair hbad rel).mpr hjk
  have hlisted : ∀ p, Link sp (finalRel sp rel) p k →
      ∃ m < st.paraMNum, p ∈ (st.manager m).paraDataNum ∧ k ∈ (st.manager m).paraDataNum := by
    intro p hp
    have hpn := hp.1.1.trans hp.1.2
    obtain ⟨m, hptr⟩ := Option.ne_none_iff_exists'.mp (h.ptr_of_lt p hpn hp.2.1)
    obtain ⟨⟨hm, hmem⟩, -⟩ := h.ptr_mem p m hptr
    exact ⟨m, hm, hmem, h.mem_of_link p hpn m k hptr hp⟩
  obtain ⟨m, hm, hmi, hmk⟩ := hlisted i hlink_i
  obtain ⟨m', hm', hmj, hmk'⟩ := hlisted j hlink_j
  obtain ⟨n, _, _, huniq⟩ := hpart.unique k hik.1.2 hik.2.2.1
  obtain rfl := (huniq m hm).mp hmk
  obtain rfl := (huniq m' hm').mp hmk'
  have hends := (endsBefore_of_mem hbad rel h hm hmi hmj hij).1
  have := jend_eq_of_link hbad rel hlink_i
  have := sp.key_lt j k hjk.1.1 hjk.1.2
  omega

/-- The managers partition the coordinations exactly when no coordination has
two predecessors. -/
theorem partitioned_iff (h : detectManagers sp rel = .ok st) :
    Partitioned sp st ↔ ¬ TwoPredecessors sp := by
  obtain ⟨hbad, st₁, hgroup, hlink⟩ := detectManagers_eq_ok h
  have hg := Grouped.run (fun _ _ _ => link_unique hbad rel) hgroup
  have hs := SameGroups.linkPass hlink
  constructor
  · exact fun hp htwo => hg.not_partitioned hbad htwo (hp.congr hs.symm)
  · exact fun htwo => (hg.partitioned hbad htwo).congr hs

end Partition

/-- Coordinations 0 and 1 end at the key of coordination 2, and both continue it. -/
def sharedSuccessor : ParaSentence :=
  .ofList 6 [⟨0, 0, 4, 5, .n⟩, ⟨1, 1, 4, 5, .n⟩, ⟨2, 4, 5, 5, .n⟩] (by simp) (by simp)

/-- Coordination 2 is in the lists of both managers. -/
theorem sharedSuccessor_not_partitioned :
    ∃ st, detectManagers sharedSuccessor (fun _ _ => .not) = .ok st ∧ st.paraMNum = 2 ∧
      (st.manager 0).paraDataNum = [0, 2] ∧ (st.manager 1).paraDataNum = [1, 2] ∧
      ¬ Partitioned sharedSuccessor st := by
  obtain ⟨st, hst, hm, h0, h1⟩ : ∃ st, detectManagers sharedSuccessor (fun _ _ => .not) = .ok st ∧
      st.paraMNum = 2 ∧ (st.manager 0).paraDataNum = [0, 2] ∧
      (st.manager 1).paraDataNum = [1, 2] := ⟨_, rfl, by decide, by decide, by decide⟩
  refine ⟨st, hst, hm, h0, h1, fun hp => ?_⟩
  obtain ⟨m, -, -, huniq⟩ := hp.unique 2 (by decide) (by decide)
  have h0m := (huniq 0 (by omega)).mp (by rw [h0]; decide)
  have h1m := (huniq 1 (by omega)).mp (by rw [h1]; decide)
  omega

/-- Three coordinations in a row. -/
def threeInARow : ParaSentence :=
  .ofList 4 [⟨0, 0, 1, 5, .n⟩, ⟨1, 1, 2, 5, .n⟩, ⟨2, 2, 3, 5, .n⟩] (by simp) (by simp)

theorem threeInARow_partitioned :
    ∃ st, detectManagers threeInARow (fun _ _ => .not) = .ok st ∧
      (st.manager 0).paraDataNum = [0, 1, 2] ∧
      (Partitioned threeInARow st ↔ ¬ TwoPredecessors threeInARow) := by
  obtain ⟨st, hst, h0⟩ : ∃ st, detectManagers threeInARow (fun _ _ => .not) = .ok st ∧
      (st.manager 0).paraDataNum = [0, 1, 2] := ⟨_, rfl, by decide⟩
  exact ⟨st, hst, h0, partitioned_iff hst⟩

end Knp
