import Mathlib.Data.Finset.Card
import Mathlib.Logic.Function.Basic
import Knp.Loop

/-!
# The search for a case-frame match (`case_match.c`)

`assign_list` gives the case elements of a predicate to the slots of a case
frame, one element a call, in every way the cases allow; when no element is left
the pair of lists is scored. A slot is filled before the recursive call and
emptied after it, the element keeps its last slot until the next one is tried.

> Where a pair of lists is scored, it is a matching of elements and slots.

The lists are functions on the indices. The scores, whose arithmetic is that of
`double`, are of an arbitrary type; `fuel` bounds the depth of the recursion.
-/

namespace Knp

def UNASSIGNED : Int := -1

def NIL_ASSIGNED : Int := -2

def END_M : Int := -10

def MATCH_NONE : Int := -2

/-- `pp_kstr_to_code` of `ガ`, `ノ`, `ガ２`, `外の関係` and `未`. -/
def ppGa : Int := 1

def ppNo : Int := 41

def ppGa2 : Int := 42

def ppSoto : Int := 43

def ppMi : Int := -3

/-- `CF_PRED`, `CF_NOUN` -/
inductive CfType
  | pred
  | noun
deriving DecidableEq

/-- `flag` of the search: `SEMANTIC_MARKER` or `EXAMPLE`. -/
inductive MatchFlag
  | semanticMarker
  | ofExample
deriving DecidableEq

/-- `CASE_FRAME`; `adjacent` is also read at an element's flag, in or outside
the array. -/
structure CaseFrame where
  elementNum : Nat
  adjacent : Int → Bool
  pp : Nat → List Int
  sp : Nat → Int
  weight : Nat → Int
  samecase : List (Int × Int)

/-- The predicate: `cf`, `elem_b_num`, and the type that `pred_b_ptr` has. -/
structure CasePred where
  cf : CaseFrame
  elemBNum : Nat → Int
  cfType : CfType

/-- `LIST` -/
structure AssignList (S : Type*) where
  flag : Nat → Int
  score : Nat → S
  pos : Nat → Int

/-- The options and the scores. -/
structure CaseEnv (S : Type*) where
  useProbability : Bool
  flag : MatchFlag
  /-- `cf_match_element` for `主体` -/
  isSubject : Nat → Bool
  /-- `elmnt_match_score`: score and position -/
  elmntMatchScore : Nat → Nat → S × Int
  /-- `FREQ0_ASSINED_SCORE` and the function probability of an element -/
  nilScore : Nat → S
  /-- division by a weight that is not 0 -/
  divWeight : S → Int → S
  add : S → S → S
  SOTO_THRESHOLD : S → Bool
  NOUN_THRESHOLD : S → Bool
  nonneg : S → Bool

/-- A pair of lists at the point where it is scored. -/
structure Scored (S : Type*) where
  list1 : AssignList S
  list2 : AssignList S
  score : S

section Search

variable {S : Type*} (env : CaseEnv S) (cfd : CasePred) (cfp : CaseFrame)

/-- `check_same_case` -/
def checkSameCase (dp pp : Int) : Bool :=
  (cfp.samecase.takeWhile fun c => c.1 ≠ END_M).any fun c =>
    c = (if dp < pp then (dp, pp) else (pp, dp))

/-- `check_adjacent_assigned` -/
def checkAdjacentAssigned (list1 : AssignList S) : Bool :=
  (List.range cfd.cf.elementNum).any fun i =>
    cfd.cf.adjacent i && list1.flag i ≠ NIL_ASSIGNED && cfp.adjacent (list1.flag i)

/-- `MatchPP2` for `ガ` -/
def matchesGa (i : Nat) : Bool :=
  ((cfp.pp i).takeWhile fun c => c ≠ END_M).any fun c => c = ppGa

/-- `gaflag`: a ガ slot is filled. -/
def gaFlag (list2 : AssignList S) : Bool :=
  (List.range cfp.elementNum).any fun i => list2.flag i ≠ UNASSIGNED && matchesGa cfp i

/-- The case `targetPp` of the element fits the case `p` of a slot. -/
def caseFits (ga : Bool) (list1 : AssignList S) (target : Nat) (targetPp p : Int) : Bool :=
  (targetPp = p &&
    !((p = ppSoto && env.isSubject target) || (p = ppGa2 && !ga) ||
      (p = ppNo && !checkAdjacentAssigned cfd cfp list1))) ||
  (targetPp = ppMi && checkSameCase cfp (cfd.cf.sp target) p)

/-- The score is good enough for the case. -/
def scoreFits (p : Int) (elmntScore : S) : Bool :=
  (env.useProbability || (p ≠ ppSoto && p ≠ ppNo && cfd.cfType ≠ .noun) ||
    ((p = ppSoto || p = ppNo) && env.SOTO_THRESHOLD elmntScore) ||
    (cfd.cfType = .noun && env.NOUN_THRESHOLD elmntScore)) &&
  (env.flag = .ofExample || (env.flag = .semanticMarker && env.nonneg elmntScore))

def byWeight (target : Nat) (elmntScore : S) : S :=
  if cfd.cf.weight target ≠ 0 then env.divWeight elmntScore (cfd.cf.weight target) else elmntScore

/-- The element that a call treats. -/
def target? (assignFlag : Bool) (list1 : AssignList S) : Option Nat :=
  (List.range cfd.cf.elementNum).find? fun i =>
    list1.flag i = UNASSIGNED && (assignFlag = decide (cfd.elemBNum i ≠ -1))

/-- `list1.flag[target] = i`, with its score. -/
def AssignList.assign (l : AssignList S) (t : Nat) (i : Int) (score : S) : AssignList S :=
  { l with flag := Function.update l.flag t i, score := Function.update l.score t score }

/-- `list2.flag[i] = target`, with its score and position. -/
def AssignList.fill (l : AssignList S) (i t : Nat) (score : S) (pos : Int) : AssignList S :=
  { flag := Function.update l.flag i t, score := Function.update l.score i score,
    pos := Function.update l.pos i pos }

/-- The slot is emptied, its score stays. -/
def AssignList.clear (l : AssignList S) (i : Nat) : AssignList S :=
  { l with flag := Function.update l.flag i UNASSIGNED, pos := Function.update l.pos i MATCH_NONE }

/-- The lists in the loop over the slots, whether a case was available, and what
has been scored. -/
structure SlotState (S : Type*) where
  list1 : AssignList S
  list2 : AssignList S
  caseAvailable : Bool
  scored : List (Scored S)

/-- One case of the element at slot `i`; `rec` is `assign_list`. -/
def tryCase (rec : AssignList S → AssignList S → S → Option (List (Scored S))) (ga : Bool)
    (target i : Nat) (score : S) (st : SlotState S) (targetPp : Int) : Option (SlotState S) :=
  match ((cfp.pp i).takeWhile (0 ≤ ·)).find? (caseFits env cfd cfp ga st.list1 target targetPp) with
  | none => some st
  | some p =>
      let (elmntScore, pos) := env.elmntMatchScore target i
      if scoreFits env cfd p elmntScore then
        let elmntScore := byWeight env cfd target elmntScore
        let list1 := st.list1.assign target i elmntScore
        let list2 := st.list2.fill i target elmntScore pos
        (rec list1 list2 (env.add score elmntScore)).map fun scored =>
          ⟨list1, list2.clear i, true, st.scored ++ scored⟩
      else some { st with caseAvailable := true }

/-- The loop over the slots. -/
def trySlot (rec : AssignList S → AssignList S → S → Option (List (Scored S))) (ga : Bool)
    (target : Nat) (score : S) (st : SlotState S) (i : Nat) : Option (SlotState S) :=
  if st.list2.flag i = UNASSIGNED then
    ((cfd.cf.pp target).takeWhile fun c => c ≠ END_M).foldlM
      (tryCase env cfd cfp rec ga target i score) st
  else some st

/-- `_assign_list`: `none` where it returns `TRUE`, no element being left. -/
def assignOne (rec : AssignList S → AssignList S → S → Option (List (Scored S))) (assignFlag : Bool)
    (list1 list2 : AssignList S) (score : S) : Option (Option (List (Scored S))) :=
  match target? cfd assignFlag list1 with
  | none => some none
  | some target =>
      ((List.range cfp.elementNum).foldlM
        (trySlot env cfd cfp rec (gaFlag cfp list2) target score) ⟨list1, list2, false, []⟩).bind
        fun st =>
          if !(cfd.cfType = .pred && env.useProbability) || !st.caseAvailable then
            -- 割り当てなしのスコア
            let elmntScore := byWeight env cfd target (env.nilScore target)
            (rec (st.list1.assign target NIL_ASSIGNED elmntScore) st.list2
              (if env.useProbability then env.add score elmntScore else score)).map
              fun scored => some (st.scored ++ scored)
          else some (some st.scored)

/-- `assign_list`: the pairs that it scores, in order. -/
def assignList : Nat → AssignList S → AssignList S → S → Option (List (Scored S))
  | 0, _, _, _ => none
  | fuel + 1, list1, list2, score =>
      match assignOne env cfd cfp (assignList fuel) true list1 list2 score with
      | none => none
      | some (some scored) => some scored
      | some none =>
          match assignOne env cfd cfp (assignList fuel) false list1 list2 score with
          | none => none
          | some (some scored) => some scored
          | some none => some [⟨list1, list2, score⟩]

/-- `assign_d_list` of `case_frame_match`: the entries behind the elements are
whatever they were. -/
def initD (n : Nat) (score : S) (rest : AssignList S) : AssignList S :=
  { flag := fun i => if i < n then UNASSIGNED else rest.flag i
    score := fun i => if i < n then score else rest.score i
    pos := rest.pos }

/-- `assign_p_list` of `case_frame_match` -/
def initP (score : S) : AssignList S :=
  { flag := fun _ => UNASSIGNED, score := fun _ => score, pos := fun _ => -1 }

end Search

/-! ## Matchings -/

/-- The flags of `n` elements and `m` slots are partial maps, inverse to each
other. -/
structure Correspond {S : Type*} (n m : Nat) (list1 list2 : AssignList S) : Prop where
  inverse : ∀ t < n, ∀ i < m, list1.flag t = i ↔ list2.flag i = t
  element : ∀ t < n,
    list1.flag t = UNASSIGNED ∨ list1.flag t = NIL_ASSIGNED ∨ ∃ i < m, list1.flag t = (i : Nat)
  slot : ∀ i < m, list2.flag i = UNASSIGNED ∨ ∃ t < n, list2.flag i = (t : Nat)

/-- A corresponding pair that leaves no element open. -/
structure IsMatching {S : Type*} (n m : Nat) (list1 list2 : AssignList S) : Prop where
  inverse : ∀ t < n, ∀ i < m, list1.flag t = i ↔ list2.flag i = t
  injective : ∀ t < n, ∀ t' < n, ∀ i < m, list1.flag t = i → list1.flag t' = i → t = t'
  element : ∀ t < n, list1.flag t = NIL_ASSIGNED ∨ ∃ i < m, list1.flag t = (i : Nat)
  slot : ∀ i < m, list2.flag i = UNASSIGNED ∨ ∃ t < n, list2.flag i = (t : Nat)

/-- Inside the loop over the slots: the flag of `target` is left over. -/
structure OffTarget {S : Type*} (n m target : Nat) (list1 list2 : AssignList S) : Prop where
  inverse : ∀ t < n, t ≠ target → ∀ i < m, list1.flag t = i ↔ list2.flag i = t
  element : ∀ t < n, t ≠ target →
    list1.flag t = UNASSIGNED ∨ list1.flag t = NIL_ASSIGNED ∨ ∃ i < m, list1.flag t = (i : Nat)
  slot : ∀ i < m, list2.flag i = UNASSIGNED ∨ ∃ t < n, t ≠ target ∧ list2.flag i = (t : Nat)

/-- The elements that are still open. -/
def openElements {S : Type*} (n : Nat) (list1 : AssignList S) : Finset Nat :=
  (Finset.range n).filter fun t => list1.flag t = UNASSIGNED

section Matchings

variable {S : Type*} {n m target i t : Nat} {v pos : Int} {score : S} {list1 list2 : AssignList S}

theorem natCast_ne_unassigned (i : Nat) : (i : Int) ≠ UNASSIGNED := by
  unfold UNASSIGNED
  omega

theorem natCast_ne_nilAssigned (i : Nat) : (i : Int) ≠ NIL_ASSIGNED := by
  unfold NIL_ASSIGNED
  omega

@[simp] theorem assign_flag_self : (list1.assign target v score).flag target = v := by
  simp [AssignList.assign]

theorem assign_flag_of_ne (h : t ≠ target) :
    (list1.assign target v score).flag t = list1.flag t := by
  simp [AssignList.assign, h]

@[simp] theorem fill_flag_self : (list2.fill i t score pos).flag i = t := by
  simp [AssignList.fill]

theorem fill_flag_of_ne {j : Nat} (h : j ≠ i) :
    (list2.fill i t score pos).flag j = list2.flag j := by
  simp [AssignList.fill, h]

/-- The undo. -/
theorem clear_fill_flag (h : list2.flag i = UNASSIGNED) :
    ((list2.fill i t score pos).clear i).flag = list2.flag := by
  simp [AssignList.fill, AssignList.clear, ← h]

theorem Correspond.offTarget (h : Correspond n m list1 list2) (ht : target < n)
    (hopen : list1.flag target = UNASSIGNED) : OffTarget n m target list1 list2 := by
  refine ⟨fun t htn _ => h.inverse t htn, fun t htn _ => h.element t htn, fun i hi => ?_⟩
  rcases h.slot i hi with hfree | ⟨t, htn, hslot⟩
  · exact Or.inl hfree
  · refine Or.inr ⟨t, htn, ?_, hslot⟩
    rintro rfl
    rw [(h.inverse t htn i hi).mpr hslot] at hopen
    exact natCast_ne_unassigned i hopen

/-- No slot holds the target. -/
theorem OffTarget.slot_ne (h : OffTarget n m target list1 list2) {j : Nat} (hj : j < m) :
    list2.flag j ≠ target := by
  intro heq
  rcases h.slot j hj with hnone | ⟨t', -, hne, hslot⟩
  · exact natCast_ne_unassigned target (heq.symm.trans hnone)
  · exact hne (Int.ofNat_inj.mp (hslot.symm.trans heq))

/-- The element goes to a free slot. -/
theorem OffTarget.assign_fill (h : OffTarget n m target list1 list2) (ht : target < n) (hi : i < m)
    (hfree : list2.flag i = UNASSIGNED) (score' : S) :
    Correspond n m (list1.assign target i score') (list2.fill i target score pos) := by
  refine ⟨fun t htn j hj => ?_, fun t htn => ?_, fun j hj => ?_⟩
  · by_cases hj' : j = i
    · subst hj'
      rw [fill_flag_self]
      by_cases ht' : t = target
      · rw [ht', assign_flag_self]
        exact iff_of_true rfl rfl
      · rw [assign_flag_of_ne ht', h.inverse t htn ht' j hj, hfree]
        exact iff_of_false (natCast_ne_unassigned t).symm
          fun heq => ht' (Int.ofNat_inj.mp heq).symm
    · rw [fill_flag_of_ne hj']
      by_cases ht' : t = target
      · rw [ht', assign_flag_self]
        exact iff_of_false (fun heq => hj' (Int.ofNat_inj.mp heq).symm) (h.slot_ne hj)
      · rw [assign_flag_of_ne ht']
        exact h.inverse t htn ht' j hj
  · by_cases ht' : t = target
    · rw [ht', assign_flag_self]
      exact Or.inr (Or.inr ⟨i, hi, rfl⟩)
    · rw [assign_flag_of_ne ht']
      exact h.element t htn ht'
  · by_cases hj' : j = i
    · rw [hj', fill_flag_self]
      exact Or.inr ⟨target, ht, rfl⟩
    · rw [fill_flag_of_ne hj']
      exact (h.slot j hj).imp_right fun ⟨t, htn, _, hslot⟩ => ⟨t, htn, hslot⟩

/-- The element stays without a slot. -/
theorem OffTarget.assign_nil (h : OffTarget n m target list1 list2) :
    Correspond n m (list1.assign target NIL_ASSIGNED score) list2 := by
  refine ⟨fun t htn j hj => ?_, fun t htn => ?_, fun j hj => ?_⟩
  · by_cases ht' : t = target
    · rw [ht', assign_flag_self]
      exact iff_of_false (natCast_ne_nilAssigned j).symm (h.slot_ne hj)
    · rw [assign_flag_of_ne ht']
      exact h.inverse t htn ht' j hj
  · by_cases ht' : t = target
    · rw [ht', assign_flag_self]
      exact Or.inr (Or.inl rfl)
    · rw [assign_flag_of_ne ht']
      exact h.element t htn ht'
  · exact (h.slot j hj).imp_right fun ⟨t, htn, _, hslot⟩ => ⟨t, htn, hslot⟩

/-- Only the flags matter, and of `list1` only those of the other elements. -/
theorem OffTarget.congr {list1' list2' : AssignList S} (h : OffTarget n m target list1 list2)
    (h1 : ∀ t, t ≠ target → list1'.flag t = list1.flag t) (h2 : list2'.flag = list2.flag) :
    OffTarget n m target list1' list2' := by
  refine ⟨fun t htn ht' i hi => ?_, fun t htn ht' => ?_, fun i hi => ?_⟩
  · rw [h1 t ht', h2]
    exact h.inverse t htn ht' i hi
  · rw [h1 t ht']
    exact h.element t htn ht'
  · rw [h2]
    exact h.slot i hi

/-- Nothing is open any more. -/
theorem Correspond.isMatching (h : Correspond n m list1 list2)
    (hopen : ∀ t < n, list1.flag t ≠ UNASSIGNED) : IsMatching n m list1 list2 := by
  refine ⟨h.inverse, fun t ht t' ht' i hi hti hti' => ?_,
    fun t ht => (h.element t ht).resolve_left (hopen t ht), h.slot⟩
  have hslot := (h.inverse t ht i hi).mp hti
  have hslot' := (h.inverse t' ht' i hi).mp hti'
  exact Int.ofNat_inj.mp (hslot.symm.trans hslot')

theorem openElements_assign (hv : v ≠ UNASSIGNED) :
    openElements n (list1.assign target v score) = (openElements n list1).erase target := by
  ext t
  simp only [openElements, Finset.mem_filter, Finset.mem_erase, Finset.mem_range]
  by_cases ht : t = target
  · simp [ht, hv]
  · simp [ht, assign_flag_of_ne ht]

end Matchings

/-! ## One element -/

section Step

variable {S : Type*} {env : CaseEnv S} {cfd : CasePred} {cfp : CaseFrame} {n m target i c : Nat}
  {rec : AssignList S → AssignList S → S → Option (List (Scored S))} {ga assignFlag : Bool}
  {score : S} {list1 list2 : AssignList S} {st : SlotState S} {U : Finset Nat}

/-- What the recursive call does if few elements are open. -/
def Solves (n m c : Nat) (rec : AssignList S → AssignList S → S → Option (List (Scored S))) : Prop :=
  ∀ list1 list2 score, Correspond n m list1 list2 → (openElements n list1).card < c →
    ∃ scored, rec list1 list2 score = some scored ∧ ∀ p ∈ scored, IsMatching n m p.list1 p.list2

/-- The invariant of the loop over the slots. -/
structure SlotInv (n m target : Nat) (U : Finset Nat) (st : SlotState S) : Prop where
  off : OffTarget n m target st.list1 st.list2
  opened : (openElements n st.list1).erase target = U
  scored : ∀ p ∈ st.scored, IsMatching n m p.list1 p.list2

theorem tryCase_total (hrec : Solves n m c rec) (hU : U.card < c) (ht : target < n) (hi : i < m)
    (hst : SlotInv n m target U st) (hfree : st.list2.flag i = UNASSIGNED) (targetPp : Int) :
    ∃ st', tryCase env cfd cfp rec ga target i score st targetPp = some st' ∧
      SlotInv n m target U st' ∧ st'.list2.flag i = UNASSIGNED := by
  unfold tryCase
  split
  · exact ⟨st, rfl, hst, hfree⟩
  · dsimp only
    split_ifs with hfits
    · generalize byWeight env cfd target (env.elmntMatchScore target i).1 = w
      generalize (env.elmntMatchScore target i).2 = pos
      have hpair : Correspond n m (st.list1.assign target i w) (st.list2.fill i target w pos) :=
        hst.off.assign_fill ht hi hfree w
      have hopen : openElements n (st.list1.assign target i w) =
          (openElements n st.list1).erase target := openElements_assign (natCast_ne_unassigned i)
      obtain ⟨scored, hcall, hscored⟩ := hrec _ _ (env.add score w) hpair
        (by rw [hopen, hst.opened]; exact hU)
      have hundo : ((st.list2.fill i target w pos).clear i).flag = st.list2.flag :=
        clear_fill_flag hfree
      rw [hcall]
      refine ⟨_, rfl, ⟨?_, ?_, ?_⟩, ?_⟩
      · exact hst.off.congr (fun t ht' => assign_flag_of_ne ht') hundo
      · rw [hopen, Finset.erase_idem, hst.opened]
      · intro p hp
        rcases List.mem_append.mp hp with hp | hp
        · exact hst.scored p hp
        · exact hscored p hp
      · rw [hundo, hfree]
    · exact ⟨_, rfl, ⟨hst.off, hst.opened, hst.scored⟩, hfree⟩

theorem trySlot_total (hrec : Solves n m c rec) (hU : U.card < c) (ht : target < n) (hi : i < m)
    (hst : SlotInv n m target U st) :
    ∃ st', trySlot env cfd cfp rec ga target score st i = some st' ∧ SlotInv n m target U st' := by
  unfold trySlot
  split_ifs with hfree
  · obtain ⟨st', hrun, hst', -⟩ := Loop.foldlM_total
      (fun _ st => SlotInv n m target U st ∧ st.list2.flag i = UNASSIGNED) _ [] st
      (fun _ targetPp st _ h => tryCase_total hrec hU ht hi h.1 h.2 targetPp) ⟨hst, hfree⟩
    exact ⟨st', hrun, hst'⟩
  · exact ⟨st, rfl, hst⟩

theorem target?_spec (h : target? cfd assignFlag list1 = some target) :
    target < cfd.cf.elementNum ∧ list1.flag target = UNASSIGNED := by
  have hmem := List.mem_of_find?_eq_some h
  have hprop := List.find?_some h
  rw [Bool.and_eq_true, decide_eq_true_eq] at hprop
  exact ⟨List.mem_range.mp hmem, hprop.1⟩

theorem target?_none {t : Nat} (h : target? cfd assignFlag list1 = none)
    (ht : t < cfd.cf.elementNum) (hflag : assignFlag = decide (cfd.elemBNum t ≠ -1)) :
    list1.flag t ≠ UNASSIGNED := by
  intro hopen
  have hno := List.find?_eq_none.mp h t (List.mem_range.mpr ht)
  rw [Bool.and_eq_true, decide_eq_true_eq, decide_eq_true_eq] at hno
  exact hno ⟨hopen, hflag⟩

/-- Where an element is left, everything the call scores is a matching. -/
theorem assignOne_total (assignFlag : Bool)
    (hrec : Solves cfd.cf.elementNum cfp.elementNum c rec)
    (h : Correspond cfd.cf.elementNum cfp.elementNum list1 list2)
    (hc : (openElements cfd.cf.elementNum list1).card < c + 1) :
    (target? cfd assignFlag list1 = none ∧
        assignOne env cfd cfp rec assignFlag list1 list2 score = some none) ∨
      ∃ scored, assignOne env cfd cfp rec assignFlag list1 list2 score = some (some scored) ∧
        ∀ p ∈ scored, IsMatching cfd.cf.elementNum cfp.elementNum p.list1 p.list2 := by
  unfold assignOne
  cases htarget : target? cfd assignFlag list1 with
  | none => exact Or.inl ⟨rfl, rfl⟩
  | some target =>
      refine Or.inr ?_
      obtain ⟨ht, hopen⟩ := target?_spec htarget
      have hmem : target ∈ openElements cfd.cf.elementNum list1 :=
        Finset.mem_filter.mpr ⟨Finset.mem_range.mpr ht, hopen⟩
      have hU : ((openElements cfd.cf.elementNum list1).erase target).card < c := by
        rw [Finset.card_erase_of_mem hmem]
        have hpos := Finset.card_pos.mpr ⟨target, hmem⟩
        omega
      obtain ⟨st, hloop, hst⟩ := Loop.foldlM_total
        (fun _ st => SlotInv cfd.cf.elementNum cfp.elementNum target
          ((openElements cfd.cf.elementNum list1).erase target) st) _ [] ⟨list1, list2, false, []⟩
        (fun _ i st hi hst => trySlot_total hrec hU ht (List.mem_range.mp hi) hst)
        ⟨h.offTarget ht hopen, rfl, fun p hp => nomatch hp⟩
      dsimp only
      rw [hloop, Option.bind_some]
      split
      · generalize byWeight env cfd target (env.nilScore target) = w
        have hnil : openElements cfd.cf.elementNum (st.list1.assign target NIL_ASSIGNED w) =
            (openElements cfd.cf.elementNum st.list1).erase target :=
          openElements_assign (by decide)
        obtain ⟨scored, hcall, hscored⟩ := hrec _ _
          (if env.useProbability then env.add score w else score) hst.off.assign_nil
          (by rw [hnil, hst.opened]; exact hU)
        rw [hcall]
        refine ⟨_, rfl, fun p hp => ?_⟩
        rcases List.mem_append.mp hp with hp | hp
        · exact hst.scored p hp
        · exact hscored p hp
      · exact ⟨_, rfl, hst.scored⟩

end Step

/-! ## The whole search -/

section Search

variable {S : Type*} {env : CaseEnv S} {cfd : CasePred} {cfp : CaseFrame}

/-- The recursion ends, and a pair is scored when no element is left. -/
theorem assignList_solves : ∀ fuel : Nat,
    Solves cfd.cf.elementNum cfp.elementNum fuel (assignList env cfd cfp fuel)
  | 0, _, _, _, _, hc => absurd hc (Nat.not_lt_zero _)
  | fuel + 1, list1, list2, score, h, hc => by
      have hrec := assignList_solves fuel
      unfold assignList
      rcases assignOne_total true hrec h hc with
        ⟨htrue, hone⟩ | ⟨scored, hone, hscored⟩
      · rw [hone]
        rcases assignOne_total false hrec h hc with
          ⟨hfalse, htwo⟩ | ⟨scored, htwo, hscored⟩
        · rw [htwo]
          refine ⟨_, rfl, fun p hp => ?_⟩
          obtain rfl := List.mem_singleton.mp hp
          refine h.isMatching fun t ht => ?_
          cases hnum : decide (cfd.elemBNum t ≠ -1) with
          | true => exact target?_none htrue ht hnum.symm
          | false => exact target?_none hfalse ht hnum.symm
        · rw [htwo]
          exact ⟨scored, rfl, hscored⟩
      · rw [hone]
        exact ⟨scored, rfl, hscored⟩

/-- More fuel does not change the result. -/
theorem tryCase_mono {rec rec' : AssignList S → AssignList S → S → Option (List (Scored S))}
    (hrec : ∀ {l1 l2 s r}, rec l1 l2 s = some r → rec' l1 l2 s = some r) {ga : Bool}
    {target i : Nat} {score : S} (st : SlotState S) (targetPp : Int) (st' : SlotState S)
    (h : tryCase env cfd cfp rec ga target i score st targetPp = some st') :
    tryCase env cfd cfp rec' ga target i score st targetPp = some st' := by
  unfold tryCase at h ⊢
  cases hfind : ((cfp.pp i).takeWhile (0 ≤ ·)).find?
      (caseFits env cfd cfp ga st.list1 target targetPp) with
  | none =>
      rw [hfind] at h
      exact h
  | some p =>
      rw [hfind] at h
      dsimp only at h ⊢
      split_ifs at h ⊢ with hfits
      · obtain ⟨scored, hcall, rfl⟩ := Option.map_eq_some_iff.mp h
        rw [hrec hcall]
        rfl
      · exact h

theorem assignOne_mono {rec rec' : AssignList S → AssignList S → S → Option (List (Scored S))}
    (hrec : ∀ {l1 l2 s r}, rec l1 l2 s = some r → rec' l1 l2 s = some r) {assignFlag : Bool}
    {list1 list2 : AssignList S} {score : S} {r : Option (List (Scored S))}
    (h : assignOne env cfd cfp rec assignFlag list1 list2 score = some r) :
    assignOne env cfd cfp rec' assignFlag list1 list2 score = some r := by
  unfold assignOne at h ⊢
  cases htarget : target? cfd assignFlag list1 with
  | none =>
      rw [htarget] at h
      exact h
  | some target =>
      rw [htarget] at h
      obtain ⟨st, hloop, hrest⟩ := Option.bind_eq_some_iff.mp h
      have hloop' := Loop.foldlM_mono (g := trySlot env cfd cfp rec' (gaFlag cfp list2) target score)
        (fun st i st' hslot => by
          unfold trySlot at hslot ⊢
          split_ifs at hslot ⊢ with hfree
          · exact Loop.foldlM_mono (tryCase_mono hrec) hslot
          · exact hslot) hloop
      refine Option.bind_eq_some_iff.mpr ⟨st, hloop', ?_⟩
      split at hrest
      case isTrue hnil =>
        rw [if_pos hnil]
        obtain ⟨scored, hcall, rfl⟩ := Option.map_eq_some_iff.mp hrest
        dsimp only
        rw [hrec hcall]
        rfl
      case isFalse hnil =>
        rw [if_neg hnil]
        exact hrest

theorem assignList_succ {fuel : Nat} : ∀ {list1 list2 : AssignList S} {score : S}
    {scored : List (Scored S)}, assignList env cfd cfp fuel list1 list2 score = some scored →
      assignList env cfd cfp (fuel + 1) list1 list2 score = some scored := by
  induction fuel with
  | zero =>
      intro list1 list2 score scored h
      cases h
  | succ fuel ih =>
      intro list1 list2 score scored h
      rw [assignList] at h ⊢
      cases hone : assignOne env cfd cfp (assignList env cfd cfp fuel) true list1 list2 score with
      | none =>
          rw [hone] at h
          cases h
      | some r =>
          rw [hone] at h
          rw [assignOne_mono ih hone]
          cases r with
          | some out => exact h
          | none =>
              dsimp only at h ⊢
              cases htwo : assignOne env cfd cfp (assignList env cfd cfp fuel) false list1 list2
                  score with
              | none =>
                  rw [htwo] at h
                  cases h
              | some r =>
                  rw [htwo] at h
                  rw [assignOne_mono ih htwo]
                  exact h

theorem assignList_add {fuel : Nat} {list1 list2 : AssignList S} {score : S}
    {scored : List (Scored S)} (h : assignList env cfd cfp fuel list1 list2 score = some scored) :
    ∀ k, assignList env cfd cfp (fuel + k) list1 list2 score = some scored
  | 0 => h
  | k + 1 => assignList_succ (assignList_add h k)

theorem correspond_init {n m : Nat} {score : S} {rest : AssignList S} :
    Correspond n m (initD n score rest) (initP score) := by
  have hopen : ∀ t < n, (initD n score rest).flag t = UNASSIGNED := fun t ht => if_pos ht
  refine ⟨fun t ht i _ => ?_, fun t ht => Or.inl (hopen t ht), fun i _ => Or.inl rfl⟩
  rw [hopen t ht]
  exact iff_of_false (natCast_ne_unassigned i).symm (natCast_ne_unassigned t).symm

/-- `case_frame_match`: the search ends, at a depth bounded by the number of
elements, and every pair of lists that it scores is a matching. -/
theorem assignList_matchings (env : CaseEnv S) (cfd : CasePred) (cfp : CaseFrame)
    (rest : AssignList S) (minusOne zero : S) :
    ∃ scored,
      (∀ k, assignList env cfd cfp (cfd.cf.elementNum + 1 + k)
        (initD cfd.cf.elementNum minusOne rest) (initP minusOne) zero = some scored) ∧
      ∀ p ∈ scored, IsMatching cfd.cf.elementNum cfp.elementNum p.list1 p.list2 := by
  have hcard : (openElements cfd.cf.elementNum
      (initD cfd.cf.elementNum minusOne rest)).card < cfd.cf.elementNum + 1 :=
    Nat.lt_succ_of_le ((Finset.card_filter_le _ _).trans_eq (Finset.card_range _))
  obtain ⟨scored, hrun, hscored⟩ := assignList_solves (cfd.cf.elementNum + 1)
    _ _ zero correspond_init hcard
  exact ⟨scored, assignList_add hrun, hscored⟩

end Search

end Knp
