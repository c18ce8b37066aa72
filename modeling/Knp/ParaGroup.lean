import Mathlib.Data.List.Chain
import Knp.ParaScopes

/-!
# Grouping the coordinations into managers

The first double loop of `detect_para_relation` after the relations are known
opens a manager for every coordination that has none, and lets each `REL_PAR`
successor join the manager of its predecessor.

> Every manager is a chain of coordinations, each the `REL_PAR` successor of
> the one before, with one part more than it has coordinations.

A coordination has at most one successor, but it may have several predecessors.
The creating branch asks whether the coordination has a manager, the joining
branch does not: a coordination with two predecessors is entered in the lists of
both their managers, and the later one keeps the pointer.
-/

namespace Knp

/-- Coordination `j` continues coordination `i`. -/
def Link (sp : ParaSentence) (rel : RelMatrix) (i j : Nat) : Prop :=
  (i < j ∧ j < sp.paraNum) ∧ sp.live i ∧ sp.live j ∧ rel i j = .par

/-! ## One turn of the grouping loop -/

section Turn

variable {sp : ParaSentence} {st st' : ParaState} {m i j k : Nat}

/-- The state with a new manager for coordination `i`. -/
def opened (sp : ParaSentence) (i : Nat) (st : ParaState) : ParaState :=
  let mgr := st.manager st.paraMNum
  { st with
    paraMNum := st.paraMNum + 1
    managerPtr := Function.update st.managerPtr i (some st.paraMNum)
    manager := Function.update st.manager st.paraMNum
      { mgr with
        paraDataNum := mgr.paraDataNum ++ [i]
        startPos := mgr.startPos ++ [(sp.paraData i).start, (sp.paraData i).keyPos + 1]
        endPos := mgr.endPos ++ [(sp.paraData i).keyPos, (sp.paraData i).jendPos] } }

/-- The state with coordination `j` in manager `m`. -/
def joined (sp : ParaSentence) (m j : Nat) (st : ParaState) : ParaState :=
  let mgr := st.manager m
  { st with
    managerPtr := Function.update st.managerPtr j (some m)
    manager := Function.update st.manager m
      { mgr with
        paraDataNum := mgr.paraDataNum ++ [j]
        startPos := mgr.startPos ++ [(sp.paraData j).keyPos + 1]
        endPos := mgr.endPos ++ [(sp.paraData j).jendPos] } }

theorem openManager_eq_some (h : openManager sp i st = some st') : st' = opened sp i st := by
  dsimp only [openManager] at h
  split_ifs at h
  exact (Option.some.inj h).symm

theorem addMember_eq_some (h : addMember sp m j st = some st') : st' = joined sp m j st := by
  dsimp only [addMember] at h
  split_ifs at h
  exact (Option.some.inj h).symm

theorem openManager_eq_opened (h : st.manager st.paraMNum = emptyManager) :
    openManager sp i st = some (opened sp i st) := by
  dsimp only [openManager]
  rw [if_neg]
  · rfl
  · rw [h]
    show ¬ PARA_PART_MAX ≤ 1
    decide

theorem addMember_eq_joined (h : ((st.manager m).paraDataNum ++ [j]).length < PARA_PART_MAX) :
    addMember sp m j st = some (joined sp m j st) := by
  dsimp only [addMember]
  rw [if_neg (not_le.mpr h)]
  rfl

@[simp] theorem opened_ptr_self : (opened sp i st).managerPtr i = some st.paraMNum :=
  Function.update_self ..

theorem opened_ptr_of_ne (h : k ≠ i) : (opened sp i st).managerPtr k = st.managerPtr k :=
  Function.update_of_ne h ..

theorem opened_manager_of_ne (h : k ≠ st.paraMNum) :
    (opened sp i st).manager k = st.manager k :=
  Function.update_of_ne h ..

theorem opened_manager_self (sp : ParaSentence) (i : Nat) (h : st.manager st.paraMNum = emptyManager) :
    (opened sp i st).manager st.paraMNum =
      { emptyManager with
        paraDataNum := [i]
        startPos := [(sp.paraData i).start, (sp.paraData i).keyPos + 1]
        endPos := [(sp.paraData i).keyPos, (sp.paraData i).jendPos] } := by
  dsimp only [opened]
  rw [Function.update_self, h]
  rfl

@[simp] theorem joined_ptr_self : (joined sp m j st).managerPtr j = some m :=
  Function.update_self ..

theorem joined_ptr_of_ne (h : k ≠ j) : (joined sp m j st).managerPtr k = st.managerPtr k :=
  Function.update_of_ne h ..

theorem joined_manager_of_ne (h : k ≠ m) : (joined sp m j st).manager k = st.manager k :=
  Function.update_of_ne h ..

theorem joined_manager_self :
    (joined sp m j st).manager m =
      { st.manager m with
        paraDataNum := (st.manager m).paraDataNum ++ [j]
        startPos := (st.manager m).startPos ++ [(sp.paraData j).keyPos + 1]
        endPos := (st.manager m).endPos ++ [(sp.paraData j).jendPos] } :=
  Function.update_self ..

/-- Since a coordination has one successor at most, the inner loop adds one at most. -/
theorem inner_loop (huniq : ∀ j k, Link sp st.rel i j → Link sp st.rel i k → j = k)
    (hi : i < sp.paraNum) (hl : sp.live i)
    (h : Loop.upTo? (i + 1) sp.paraNum (fun j st =>
      if sp.live j ∧ st.rel i j = .par then addMember sp m j st else some st) st = some st') :
    ((∀ j, ¬ Link sp st.rel i j) ∧ st' = st) ∨
      ∃ j, Link sp st.rel i j ∧ addMember sp m j st = some st' := by
  have hrun := Loop.upTo?_induction
    (fun k s => ((∀ j < k, ¬ Link sp st.rel i j) ∧ s = st) ∨
      ∃ j < k, Link sp st.rel i j ∧ addMember sp m j st = some s) (by omega) ?_ ?_ h
  · rcases hrun with ⟨hnone, hs⟩ | ⟨j, _, hj, hs⟩
    · exact Or.inl ⟨fun j hj => hnone j hj.1.2 hj, hs⟩
    · exact Or.inr ⟨j, hj, hs⟩
  · intro k s s' hk hkn hs hstep
    rcases hs with ⟨hnone, rfl⟩ | ⟨j, hjk, hj, hs⟩
    · split_ifs at hstep with hc
      · exact Or.inr ⟨k, by omega, ⟨⟨hk, hkn⟩, hl, hc.1, hc.2⟩, hstep⟩
      · refine Or.inl ⟨fun j hj hlink => ?_, (Option.some.inj hstep).symm⟩
        rcases (Nat.lt_succ_iff.mp hj).lt_or_eq with hlt | rfl
        · exact hnone j hlt hlink
        · exact hc ⟨hlink.2.2.1, hlink.2.2.2⟩
    · -- the one successor has joined already
      have hrel : s.rel = st.rel := by rw [addMember_eq_some hs]; rfl
      rw [hrel, if_neg fun hc => ?_] at hstep
      · exact Or.inr ⟨j, by omega, hj, hs.trans hstep⟩
      · have := huniq j k hj ⟨⟨hk, hkn⟩, hl, hc.1, hc.2⟩
        omega
  · exact Or.inl ⟨fun j hj hlink => by have := hlink.1.1; omega, rfl⟩

end Turn

/-! ## The invariant -/

/-- Manager `mgr` holds a chain that starts at coordination `a`, with its parts.
Only its last coordination can still be waiting for its turn `i`. -/
structure Chained (sp : ParaSentence) (rel : RelMatrix) (i : Nat) (mgr : ParaManager) (a : Nat) :
    Prop where
  head : mgr.paraDataNum.head? = some a
  chain : mgr.paraDataNum.IsChain (Link sp rel)
  dropLast_lt : ∀ x ∈ mgr.paraDataNum.dropLast, x < i
  startPos_eq : mgr.startPos =
    (sp.paraData a).start :: mgr.paraDataNum.map fun x => (sp.paraData x).keyPos + 1
  endPos_eq : mgr.endPos =
    (sp.paraData a).keyPos :: mgr.paraDataNum.map fun x => (sp.paraData x).jendPos

/-- The managers after the turns before `i`. -/
structure Grouped (sp : ParaSentence) (rel : RelMatrix) (i : Nat) (st : ParaState) : Prop where
  rel_eq : st.rel = rel
  fresh : ∀ m, st.paraMNum ≤ m → st.manager m = emptyManager
  unlinked : ∀ m, (st.manager m).parent = none ∧ (st.manager m).child = []
  ptr_mem : ∀ x m, st.managerPtr x = some m →
    (m < st.paraMNum ∧ x ∈ (st.manager m).paraDataNum) ∧ x < sp.paraNum ∧ sp.live x
  ptr_of_lt : ∀ x < i, sp.live x → st.managerPtr x ≠ none
  chained : ∀ m < st.paraMNum, ∃ a, Chained sp rel i (st.manager m) a ∧
    st.managerPtr a = some m ∧ ∀ p, ¬ Link sp rel p a
  mem_cases : ∀ m < st.paraMNum, ∀ x ∈ (st.manager m).paraDataNum,
    (st.manager m).paraDataNum.head? = some x ∨
      ∃ p < i, st.managerPtr p = some m ∧ Link sp rel p x
  mem_of_link : ∀ p < i, ∀ m x, st.managerPtr p = some m → Link sp rel p x →
    x ∈ (st.manager m).paraDataNum
  source : ∀ x m, st.managerPtr x = some m →
    (st.manager m).paraDataNum.head? = some x ∨
      ∃ p < i, Link sp rel p x ∧ st.managerPtr p = some m ∧
        ∀ p' < i, Link sp rel p' x → p' ≤ p
  no_source : ∀ x, st.managerPtr x = none → ∀ p < i, ¬ Link sp rel p x

namespace Chained

variable {sp : ParaSentence} {rel : RelMatrix} {mgr : ParaManager} {a i j : Nat}

theorem weaken (h : Chained sp rel i mgr a) : Chained sp rel (i + 1) mgr a :=
  { h with dropLast_lt := fun x hx => Nat.lt_succ_of_lt (h.dropLast_lt x hx) }

theorem ne_nil (h : Chained sp rel i mgr a) : mgr.paraDataNum ≠ [] := fun hnil => by
  have := h.head
  rw [hnil] at this
  cases this

theorem append (h : Chained sp rel i mgr a) (hlast : mgr.paraDataNum.getLast? = some i)
    (hlink : Link sp rel i j) :
    Chained sp rel (i + 1)
      { mgr with
        paraDataNum := mgr.paraDataNum ++ [j]
        startPos := mgr.startPos ++ [(sp.paraData j).keyPos + 1]
        endPos := mgr.endPos ++ [(sp.paraData j).jendPos] } a where
  head := by
    rw [List.head?_append_of_ne_nil _ h.ne_nil]
    exact h.head
  chain := by
    refine List.isChain_append.mpr ⟨h.chain, List.isChain_singleton j, fun x hx y hy => ?_⟩
    rw [hlast, Option.mem_some_iff] at hx
    obtain rfl : j = y := by simpa using hy
    exact hx ▸ hlink
  dropLast_lt x hx := by
    rw [List.dropLast_concat] at hx
    rw [← List.dropLast_append_getLast h.ne_nil, List.mem_append, List.mem_singleton] at hx
    rcases hx with hx | hx
    · exact Nat.lt_succ_of_lt (h.dropLast_lt x hx)
    · rw [List.getLast?_eq_some_getLast h.ne_nil, ← hx] at hlast
      exact Option.some.inj hlast ▸ Nat.lt_succ_self x
  startPos_eq := by simp [h.startPos_eq]
  endPos_eq := by simp [h.endPos_eq]

end Chained

namespace Grouped

variable {sp : ParaSentence} {rel : RelMatrix} {st st' : ParaState} {m i j x : Nat}

theorem init : Grouped sp rel 0 (initParaManager rel) where
  rel_eq := rfl
  fresh _ _ := rfl
  unlinked _ := ⟨rfl, rfl⟩
  ptr_mem _ _ h := by cases h
  ptr_of_lt _ h := absurd h (Nat.not_lt_zero _)
  chained _ h := absurd h (Nat.not_lt_zero _)
  mem_cases _ h := absurd h (Nat.not_lt_zero _)
  mem_of_link _ h := absurd h (Nat.not_lt_zero _)
  source _ _ h := by cases h
  no_source _ _ _ h := absurd h (Nat.not_lt_zero _)

/-- Opening a manager: coordination `i` has one now, before its turn. -/
theorem open_ (h : Grouped sp rel i st) (hi : i < sp.paraNum) (hl : sp.live i)
    (hnone : st.managerPtr i = none) : Grouped sp rel i (opened sp i st) := by
  have hself := opened_manager_self sp i (h.fresh st.paraMNum le_rfl)
  have hptr : ∀ x m, (opened sp i st).managerPtr x = some m →
      (x = i ∧ m = st.paraMNum) ∨
        ((x ≠ i ∧ m ≠ st.paraMNum) ∧ st.managerPtr x = some m) := by
    intro x m hx
    by_cases hxi : x = i
    · subst hxi
      rw [opened_ptr_self] at hx
      exact Or.inl ⟨rfl, (Option.some.inj hx).symm⟩
    · rw [opened_ptr_of_ne hxi] at hx
      exact Or.inr ⟨⟨hxi, (h.ptr_mem x m hx).1.1.ne⟩, hx⟩
  refine ⟨h.rel_eq, ?_, ?_, ?_, ?_, ?_, ?_, ?_, ?_, ?_⟩
  · intro m hm
    have hm' : st.paraMNum + 1 ≤ m := hm
    rw [opened_manager_of_ne (by omega)]
    exact h.fresh m (by omega)
  · intro m
    by_cases hm : m = st.paraMNum
    · rw [hm, hself]
      exact ⟨rfl, rfl⟩
    · rw [opened_manager_of_ne hm]
      exact h.unlinked m
  · intro x m hx
    rcases hptr x m hx with ⟨rfl, rfl⟩ | ⟨⟨_, hm⟩, hx⟩
    · rw [hself]
      exact ⟨⟨Nat.lt_succ_self _, List.mem_singleton_self x⟩, hi, hl⟩
    · rw [opened_manager_of_ne hm]
      obtain ⟨⟨hlt, hmem⟩, hx'⟩ := h.ptr_mem x m hx
      exact ⟨⟨Nat.lt_succ_of_lt hlt, hmem⟩, hx'⟩
  · intro x hx hxl
    rw [opened_ptr_of_ne hx.ne]
    exact h.ptr_of_lt x hx hxl
  · intro m hm
    rcases (Nat.lt_succ_iff.mp hm).lt_or_eq with hlt | rfl
    · obtain ⟨a, hc, ha, hfirst⟩ := h.chained m hlt
      have hai : a ≠ i := fun hai => by
        rw [hai, hnone] at ha
        cases ha
      rw [opened_manager_of_ne hlt.ne]
      exact ⟨a, hc, (opened_ptr_of_ne hai).trans ha, hfirst⟩
    · rw [hself]
      refine ⟨i, ⟨rfl, List.isChain_singleton i, fun x hx => ?_, rfl, rfl⟩, opened_ptr_self, ?_⟩
      · cases hx
      · exact fun p hp => h.no_source i hnone p hp.1.1 hp
  · intro m hm x hx
    rcases (Nat.lt_succ_iff.mp hm).lt_or_eq with hlt | rfl
    · rw [opened_manager_of_ne hlt.ne] at hx ⊢
      rcases h.mem_cases m hlt x hx with hhead | ⟨p, hp, hpm, hlink⟩
      · exact Or.inl hhead
      · exact Or.inr ⟨p, hp, (opened_ptr_of_ne hp.ne).trans hpm, hlink⟩
    · rw [hself] at hx ⊢
      exact Or.inl (congrArg some (List.mem_singleton.mp hx).symm)
  · intro p hp m x hpm hlink
    rw [opened_ptr_of_ne hp.ne] at hpm
    rw [opened_manager_of_ne (h.ptr_mem p m hpm).1.1.ne]
    exact h.mem_of_link p hp m x hpm hlink
  · intro x m hx
    rcases hptr x m hx with ⟨rfl, rfl⟩ | ⟨⟨_, hm⟩, hx⟩
    · rw [hself]
      exact Or.inl rfl
    · rw [opened_manager_of_ne hm]
      rcases h.source x m hx with hhead | ⟨p, hp, hlink, hpm, hmax⟩
      · exact Or.inl hhead
      · exact Or.inr ⟨p, hp, hlink, (opened_ptr_of_ne hp.ne).trans hpm, hmax⟩
  · intro x hx p hp hlink
    by_cases hxi : x = i
    · subst hxi
      rw [opened_ptr_self] at hx
      cases hx
    · rw [opened_ptr_of_ne hxi] at hx
      exact h.no_source x hx p hp hlink

/-- A turn that links nothing: the coordination is not live, or has no successor. -/
theorem skip (h : Grouped sp rel i st) (hlive : sp.live i → st.managerPtr i ≠ none)
    (hnone : ∀ j, ¬ Link sp rel i j) : Grouped sp rel (i + 1) st where
  rel_eq := h.rel_eq
  fresh := h.fresh
  unlinked := h.unlinked
  ptr_mem := h.ptr_mem
  ptr_of_lt x hx hxl := by
    rcases (Nat.lt_succ_iff.mp hx).lt_or_eq with hlt | rfl
    · exact h.ptr_of_lt x hlt hxl
    · exact hlive hxl
  chained m hm := by
    obtain ⟨a, hc, ha⟩ := h.chained m hm
    exact ⟨a, hc.weaken, ha⟩
  mem_cases m hm x hx := by
    rcases h.mem_cases m hm x hx with hhead | ⟨p, hp, hlink⟩
    · exact Or.inl hhead
    · exact Or.inr ⟨p, Nat.lt_succ_of_lt hp, hlink⟩
  mem_of_link p hp m x hpm hlink := by
    rcases (Nat.lt_succ_iff.mp hp).lt_or_eq with hlt | rfl
    · exact h.mem_of_link p hlt m x hpm hlink
    · exact absurd hlink (hnone x)
  source x m hx := by
    rcases h.source x m hx with hhead | ⟨p, hp, hlink, hpm, hmax⟩
    · exact Or.inl hhead
    · refine Or.inr ⟨p, Nat.lt_succ_of_lt hp, hlink, hpm, fun p' hp' hlink' => ?_⟩
      rcases (Nat.lt_succ_iff.mp hp').lt_or_eq with hlt | rfl
      · exact hmax p' hlt hlink'
      · exact absurd hlink' (hnone x)
  no_source x hx p hp hlink := by
    rcases (Nat.lt_succ_iff.mp hp).lt_or_eq with hlt | rfl
    · exact h.no_source x hx p hlt hlink
    · exact hnone x hlink

/-- The coordination whose turn it is closes the list of its manager. -/
theorem getLast_eq (h : Grouped sp rel i st) (hptr : st.managerPtr i = some m) :
    (st.manager m).paraDataNum.getLast? = some i := by
  obtain ⟨⟨hm, hmem⟩, -⟩ := h.ptr_mem i m hptr
  obtain ⟨a, hc, -⟩ := h.chained m hm
  have hne : (st.manager m).paraDataNum ≠ [] := List.ne_nil_of_mem hmem
  rw [List.getLast?_eq_some_getLast hne]
  rw [← List.dropLast_append_getLast hne, List.mem_append, List.mem_singleton] at hmem
  rcases hmem with hdrop | hlast
  · exact absurd (hc.dropLast_lt i hdrop) (lt_irrefl i)
  · rw [← hlast]

theorem joined_ptr_eq_some {x m' : Nat} (hx : (joined sp m j st).managerPtr x = some m') :
    (x = j ∧ m' = m) ∨ (x ≠ j ∧ st.managerPtr x = some m') := by
  by_cases hxj : x = j
  · subst hxj
    rw [joined_ptr_self] at hx
    exact Or.inl ⟨rfl, (Option.some.inj hx).symm⟩
  · rw [joined_ptr_of_ne hxj] at hx
    exact Or.inr ⟨hxj, hx⟩

theorem mem_joined (m' x : Nat) : x ∈ ((joined sp m j st).manager m').paraDataNum ↔
    x ∈ (st.manager m').paraDataNum ∨ (m' = m ∧ x = j) := by
  by_cases hm' : m' = m
  · rw [hm', joined_manager_self]
    simp
  · rw [joined_manager_of_ne hm']
    simp [hm']

theorem head?_joined {m' a : Nat} (ha : (st.manager m').paraDataNum.head? = some a) :
    ((joined sp m j st).manager m').paraDataNum.head? = some a := by
  by_cases hm' : m' = m
  · subst hm'
    rw [joined_manager_self, List.head?_append_of_ne_nil _ (fun hnil => by simp [hnil] at ha)]
    exact ha
  · rw [joined_manager_of_ne hm']
    exact ha

/-- The successor `j` of coordination `i` joins its manager. -/
theorem join (huniq : ∀ i j k, Link sp rel i j → Link sp rel i k → j = k)
    (h : Grouped sp rel i st) (hptr : st.managerPtr i = some m) (hlink : Link sp rel i j) :
    Grouped sp rel (i + 1) (joined sp m j st) := by
  have hij := hlink.1.1
  have hm := (h.ptr_mem i m hptr).1.1
  have hold : ∀ p, p < i + 1 → (joined sp m j st).managerPtr p = st.managerPtr p := fun p hp =>
    joined_ptr_of_ne (by omega)
  refine ⟨h.rel_eq, ?_, ?_, ?_, ?_, ?_, ?_, ?_, ?_, ?_⟩
  · intro m' hm'
    have hle : st.paraMNum ≤ m' := hm'
    rw [joined_manager_of_ne (by omega)]
    exact h.fresh m' hle
  · intro m'
    by_cases hm' : m' = m
    · rw [hm', joined_manager_self]
      exact h.unlinked m
    · rw [joined_manager_of_ne hm']
      exact h.unlinked m'
  · intro x m' hx
    rw [mem_joined]
    rcases joined_ptr_eq_some hx with ⟨rfl, rfl⟩ | ⟨-, hx⟩
    · exact ⟨⟨hm, Or.inr ⟨rfl, rfl⟩⟩, hlink.1.2, hlink.2.2.1⟩
    · obtain ⟨⟨hlt, hx'⟩, hlive⟩ := h.ptr_mem x m' hx
      exact ⟨⟨hlt, Or.inl hx'⟩, hlive⟩
  · intro x hx hxl
    rw [hold x hx]
    rcases (Nat.lt_succ_iff.mp hx).lt_or_eq with hlt | rfl
    · exact h.ptr_of_lt x hlt hxl
    · rw [hptr]
      exact Option.some_ne_none m
  · intro m' hm'
    obtain ⟨a, hc, ha, hfirst⟩ := h.chained m' hm'
    have haj : a ≠ j := fun haj => hfirst i (haj ▸ hlink)
    refine ⟨a, ?_, (joined_ptr_of_ne haj).trans ha, hfirst⟩
    by_cases hmm : m' = m
    · subst hmm
      rw [joined_manager_self]
      exact hc.append (h.getLast_eq hptr) hlink
    · rw [joined_manager_of_ne hmm]
      exact hc.weaken
  · intro m' hm' x hx
    rcases (mem_joined m' x).mp hx with hx | ⟨rfl, rfl⟩
    · rcases h.mem_cases m' hm' x hx with ha | ⟨p, hp, hpm, hlink'⟩
      · exact Or.inl (head?_joined ha)
      · exact Or.inr ⟨p, by omega, (hold p (by omega)).trans hpm, hlink'⟩
    · exact Or.inr ⟨i, Nat.lt_succ_self i, (hold i (by omega)).trans hptr, hlink⟩
  · intro p hp m' x hpm hlink'
    rw [hold p hp] at hpm
    rw [mem_joined]
    rcases (Nat.lt_succ_iff.mp hp).lt_or_eq with hlt | rfl
    · exact Or.inl (h.mem_of_link p hlt m' x hpm hlink')
    · rw [hptr] at hpm
      exact Or.inr ⟨(Option.some.inj hpm).symm, huniq p x j hlink' hlink⟩
  · intro x m' hx
    rcases joined_ptr_eq_some hx with ⟨rfl, rfl⟩ | ⟨hxj, hx⟩
    · exact Or.inr ⟨i, Nat.lt_succ_self i, hlink, (hold i (by omega)).trans hptr,
        fun p' hp' _ => Nat.lt_succ_iff.mp hp'⟩
    · rcases h.source x m' hx with ha | ⟨p, hp, hlink', hpm, hmax⟩
      · exact Or.inl (head?_joined ha)
      · refine Or.inr ⟨p, by omega, hlink', (hold p (by omega)).trans hpm, ?_⟩
        intro p' hp' hlink''
        rcases (Nat.lt_succ_iff.mp hp').lt_or_eq with hlt | rfl
        · exact hmax p' hlt hlink''
        · exact absurd (huniq p' x j hlink'' hlink) hxj
  · intro x hx p hp hlink'
    have hxj : x ≠ j := fun hxj => by
      rw [hxj, joined_ptr_self] at hx
      cases hx
    rw [joined_ptr_of_ne hxj] at hx
    rcases (Nat.lt_succ_iff.mp hp).lt_or_eq with hlt | rfl
    · exact h.no_source x hx p hlt hlink'
    · exact hxj (huniq p x j hlink' hlink)

/-- One turn keeps the invariant. -/
theorem step (huniq : ∀ i j k, Link sp rel i j → Link sp rel i k → j = k)
    (h : Grouped sp rel i st) (hi : i < sp.paraNum) (hstep : groupStep sp i st = some st') :
    Grouped sp rel (i + 1) st' := by
  unfold groupStep at hstep
  split_ifs at hstep with hl
  · obtain ⟨⟨m, st₁⟩, hopen, hloop⟩ := Option.bind_eq_some_iff.mp hstep
    have hst₁ : Grouped sp rel i st₁ ∧ st₁.managerPtr i = some m := by
      unfold managerOf at hopen
      cases hptr : st.managerPtr i with
      | some m' =>
          rw [hptr] at hopen
          obtain ⟨rfl, rfl⟩ := Prod.mk.inj (Option.some.inj hopen)
          exact ⟨h, hptr⟩
      | none =>
          rw [hptr] at hopen
          obtain ⟨st₂, hst₂, heq⟩ := Option.map_eq_some_iff.mp hopen
          obtain ⟨rfl, rfl⟩ := Prod.mk.inj heq
          rw [openManager_eq_some hst₂]
          exact ⟨h.open_ hi hl hptr, opened_ptr_self⟩
    obtain ⟨h₁, hptr⟩ := hst₁
    have huniq' := fun j k => huniq i j k
    rw [← h₁.rel_eq] at huniq'
    rcases inner_loop huniq' hi hl hloop with ⟨hnone, rfl⟩ | ⟨j, hlink, hadd⟩
    · rw [h₁.rel_eq] at hnone
      exact h₁.skip (fun _ => by rw [hptr]; exact Option.some_ne_none m) hnone
    · rw [h₁.rel_eq] at hlink
      rw [addMember_eq_some hadd]
      exact h₁.join huniq hptr hlink
  · obtain rfl := Option.some.inj hstep
    exact h.skip (fun hl' => absurd hl' hl) fun j hj => hl hj.2.1

/-- The grouping keeps it to the end. -/
theorem run (huniq : ∀ i j k, Link sp rel i j → Link sp rel i k → j = k)
    (h : groupPass sp (initParaManager rel) = some st) : Grouped sp rel sp.paraNum st :=
  Loop.upTo?_induction (fun i st => Grouped sp rel i st) (Nat.zero_le _)
    (fun _ _ _ _ hi hg hs => hg.step huniq hi hs) init h

end Grouped

/-! ## The linking pass leaves the groups alone -/

/-- The same managers with the same coordinations and parts. -/
structure SameGroups (st st' : ParaState) : Prop where
  rel_eq : st'.rel = st.rel
  paraMNum_eq : st'.paraMNum = st.paraMNum
  ptr_eq : st'.managerPtr = st.managerPtr
  data_eq : ∀ m, (st'.manager m).paraDataNum = (st.manager m).paraDataNum
  start_eq : ∀ m, (st'.manager m).startPos = (st.manager m).startPos
  end_eq : ∀ m, (st'.manager m).endPos = (st.manager m).endPos

namespace SameGroups

variable {sp : ParaSentence} {st st' st₁ : ParaState} {m parent child i j : Nat}

theorem refl (st : ParaState) : SameGroups st st :=
  ⟨rfl, rfl, rfl, fun _ => rfl, fun _ => rfl, fun _ => rfl⟩

theorem trans (h : SameGroups st st₁) (h' : SameGroups st₁ st') : SameGroups st st' where
  rel_eq := h'.rel_eq.trans h.rel_eq
  paraMNum_eq := h'.paraMNum_eq.trans h.paraMNum_eq
  ptr_eq := h'.ptr_eq.trans h.ptr_eq
  data_eq m := (h'.data_eq m).trans (h.data_eq m)
  start_eq m := (h'.start_eq m).trans (h.start_eq m)
  end_eq m := (h'.end_eq m).trans (h.end_eq m)

theorem setManager {mgr : ParaManager} (hdata : mgr.paraDataNum = (st.manager m).paraDataNum)
    (hstart : mgr.startPos = (st.manager m).startPos)
    (hend : mgr.endPos = (st.manager m).endPos) : SameGroups st (st.setManager m mgr) := by
  refine ⟨rfl, rfl, rfl, ?_, ?_, ?_⟩
  all_goals
    intro k
    dsimp only [ParaState.setManager]
    by_cases hk : k = m
    · subst hk
      rw [Function.update_self]
      assumption
    · rw [Function.update_of_ne hk]

theorem setParentPtr (p : Option Nat) :
    SameGroups st (st.setManager m { st.manager m with parent := p }) :=
  setManager rfl rfl rfl

theorem setChildren (cs : List Nat) :
    SameGroups st (st.setManager m { st.manager m with child := cs }) :=
  setManager rfl rfl rfl

theorem attach (h : attach parent child st = some st') : SameGroups st st' := by
  dsimp only [Knp.attach] at h
  split_ifs at h
  rw [← Option.some.inj h]
  exact (setParentPtr _).trans (setChildren _)

theorem setParent (h : setParent parent child st = some st') : SameGroups st st' := by
  unfold Knp.setParent at h
  split at h
  · exact attach h
  · split_ifs at h
    · exact Option.some.inj h ▸ refl st
    · split at h
      · exact (setChildren _).trans (attach h)
      · exact Option.some.inj h ▸ refl st

theorem linkStep (h : linkStep sp i j st = some st') : SameGroups st st' := by
  unfold Knp.linkStep at h
  split_ifs at h
  · obtain ⟨m1, _, h⟩ := Option.bind_eq_some_iff.mp h
    obtain ⟨m2, _, h⟩ := Option.bind_eq_some_iff.mp h
    exact setParent h
  · exact Option.some.inj h ▸ refl st

theorem linkPass (h : linkPass sp st = some st') : SameGroups st st' :=
  Loop.upTo?_induction (fun _ s => SameGroups st s) (Nat.zero_le _)
    (fun _ _ _ _ _ hs hrow => Loop.upTo?_induction (fun _ s => SameGroups st s) (Nat.zero_le _)
      (fun _ _ _ _ _ hs hstep => hs.trans (linkStep hstep)) hs hrow)
    (refl st) h

end SameGroups

end Knp
