import Knp.CaseMatch

/-!
# The test of the adjacent elements (`case_match.c`)

The case ノ of an element counts only if an element adjacent to the predicate has
been given to an adjacent slot. `check_adjacent_assigned` looks the slots of the
adjacent elements up by their flags, and leaves out those with `NIL_ASSIGNED`,
but not those with `UNASSIGNED`.

> The flags of a call are slots just if each adjacent element that is still open
> stands behind one with an adjacent slot.

With the numbered elements adjacent and the case ノ at the others no adjacent
element is open where the test is made.
-/

namespace Knp

section Calls

variable {S : Type*} (env : CaseEnv S) (cfd : CasePred) (cfp : CaseFrame)

/-- The element that `assign_list` treats. -/
def nextElement (list1 : AssignList S) : Option Nat :=
  (target? cfd true list1).or (target? cfd false list1)

/-- The flags that `check_adjacent_assigned` uses as an index, up to the one at which it
returns. -/
def adjacentIndices (list1 : AssignList S) : List Nat → List Int
  | [] => []
  | i :: is =>
      if cfd.cf.adjacent i && list1.flag i ≠ NIL_ASSIGNED then
        list1.flag i :: if cfp.adjacent (list1.flag i) then [] else adjacentIndices list1 is
      else adjacentIndices list1 is

/-- The loops of `_assign_list` have come to the case `targetPp` of the element at slot `i`. -/
structure AtCase (rec : AssignList S → AssignList S → S → Option (List (Scored S))) (ga : Bool)
    (target : Nat) (score : S) (start : SlotState S) (i : Nat) (targetPp : Int)
    (st : SlotState S) : Prop where
  slot_lt : i < cfp.elementNum
  loops : ∃ before after stSlot,
    ((cfd.cf.pp target).takeWhile fun c => c ≠ END_M) = before ++ targetPp :: after ∧
    (List.range i).foldlM (trySlot env cfd cfp rec ga target score) start = some stSlot ∧
    stSlot.list2.flag i = UNASSIGNED ∧
    before.foldlM (tryCase env cfd cfp rec ga target i score) stSlot = some st

/-- `assign_list` is called with these lists, at a depth up to `fuel`, in the search that
begins with `root1` and `root2`. -/
inductive Called (root1 root2 : AssignList S) (zero : S) :
    Nat → AssignList S → AssignList S → S → Prop
  | start : Called root1 root2 zero (cfd.cf.elementNum + 1) root1 root2 zero
  | slot {fuel : Nat} {list1 list2 : AssignList S} {score : S} {target i : Nat}
      {targetPp p : Int} {st : SlotState S}
      (hcall : Called root1 root2 zero (fuel + 1) list1 list2 score)
      (hnext : nextElement cfd list1 = some target)
      (hcase : AtCase env cfd cfp (assignList env cfd cfp fuel) (gaFlag cfp list2) target score
        ⟨list1, list2, false, []⟩ i targetPp st)
      (hfits : ((cfp.pp i).takeWhile (0 ≤ ·)).find?
        (caseFits env cfd cfp (gaFlag cfp list2) st.list1 target targetPp) = some p)
      (hscore : scoreFits env cfd p (env.elmntMatchScore target i).1 = true) :
      Called root1 root2 zero fuel
        (st.list1.assign target i (byWeight env cfd target (env.elmntMatchScore target i).1))
        (st.list2.fill i target (byWeight env cfd target (env.elmntMatchScore target i).1)
          (env.elmntMatchScore target i).2)
        (env.add score (byWeight env cfd target (env.elmntMatchScore target i).1))
  | nil {fuel : Nat} {list1 list2 : AssignList S} {score : S} {target : Nat} {st : SlotState S}
      (hcall : Called root1 root2 zero (fuel + 1) list1 list2 score)
      (hnext : nextElement cfd list1 = some target)
      (hloop : (List.range cfp.elementNum).foldlM
        (trySlot env cfd cfp (assignList env cfd cfp fuel) (gaFlag cfp list2) target score)
        ⟨list1, list2, false, []⟩ = some st)
      (hnil : (!(cfd.cfType = .pred && env.useProbability) || !st.caseAvailable) = true) :
      Called root1 root2 zero fuel
        (st.list1.assign target NIL_ASSIGNED (byWeight env cfd target (env.nilScore target)))
        st.list2
        (if env.useProbability then
          env.add score (byWeight env cfd target (env.nilScore target)) else score)

/-- `check_adjacent_assigned` is called with `list1`, in the search of `case_frame_match`: the
element `target` has the case ノ, as a slot has. -/
inductive CheckCall (rest : AssignList S) (minusOne zero : S) : Nat → AssignList S → Prop
  | mk {fuel : Nat} {list1 list2 : AssignList S} {score : S} {target i : Nat} {st : SlotState S}
      (hcall : Called env cfd cfp (initD cfd.cf.elementNum minusOne rest) (initP minusOne) zero
        (fuel + 1) list1 list2 score)
      (hnext : nextElement cfd list1 = some target)
      (hcase : AtCase env cfd cfp (assignList env cfd cfp fuel) (gaFlag cfp list2) target score
        ⟨list1, list2, false, []⟩ i ppNo st)
      (hslot : ppNo ∈ (cfp.pp i).takeWhile (0 ≤ ·)) :
      CheckCall rest minusOne zero target st.list1

/-- Every index of a call is the number of a slot. -/
def IndicesValid (list1 : AssignList S) : Prop :=
  ∀ v ∈ adjacentIndices cfd cfp list1 (List.range cfd.cf.elementNum),
    ∃ i < cfp.elementNum, v = (i : Nat)

/-- Each adjacent element that is still open stands behind one with an adjacent slot. -/
def Settled (list1 : AssignList S) : Prop :=
  ∀ t < cfd.cf.elementNum, cfd.cf.adjacent t = true → list1.flag t = UNASSIGNED →
    ∃ t' < t, cfd.cf.adjacent t' = true ∧ list1.flag t' ≠ UNASSIGNED ∧
      list1.flag t' ≠ NIL_ASSIGNED ∧ cfp.adjacent (list1.flag t') = true

end Calls

/-! ## One call -/

section Call

variable {S : Type*} {cfd : CasePred} {cfp : CaseFrame} {list1 : AssignList S}

theorem checkAdjacentAssigned_eq : checkAdjacentAssigned cfd cfp list1 =
    (adjacentIndices cfd cfp list1 (List.range cfd.cf.elementNum)).any cfp.adjacent := by
  unfold checkAdjacentAssigned
  induction List.range cfd.cf.elementNum with
  | nil => rfl
  | cons i is ih =>
      rw [List.any_cons, ih, adjacentIndices]
      by_cases hread : (cfd.cf.adjacent i && list1.flag i ≠ NIL_ASSIGNED) = true
      · rw [if_pos hread, hread, Bool.true_and, List.any_cons]
        cases cfp.adjacent (list1.flag i) <;> rfl
      · rw [if_neg hread, Bool.eq_false_of_not_eq_true hread, Bool.false_and, Bool.false_or]

/-- A flag is used if its element is adjacent and not without a slot, and no element before it
ends the loop. -/
theorem mem_adjacentIndices {v : Int} (n k : Nat) :
    v ∈ adjacentIndices cfd cfp list1 (List.range' k n) ↔
      ∃ t, k ≤ t ∧ t < k + n ∧ v = list1.flag t ∧ cfd.cf.adjacent t = true ∧
        list1.flag t ≠ NIL_ASSIGNED ∧ ∀ t', k ≤ t' → t' < t → cfd.cf.adjacent t' = true →
          list1.flag t' ≠ NIL_ASSIGNED → cfp.adjacent (list1.flag t') = false := by
  induction n generalizing k with
  | zero =>
      constructor
      · intro h
        cases h
      · rintro ⟨t, hk, hlt, -⟩
        omega
  | succ n ih =>
      rw [List.range'_succ, adjacentIndices]
      by_cases hread : (cfd.cf.adjacent k && list1.flag k ≠ NIL_ASSIGNED) = true
      · rw [if_pos hread, List.mem_cons]
        rw [Bool.and_eq_true, decide_eq_true_eq] at hread
        constructor
        · rintro (rfl | hv)
          · exact ⟨k, le_rfl, by omega, rfl, hread.1, hread.2, fun t' _ _ => by omega⟩
          · split_ifs at hv with hend
            · cases hv
            · obtain ⟨t, hk, hlt, heq, hadj, hnil, hbefore⟩ := (ih (k + 1)).mp hv
              refine ⟨t, by omega, by omega, heq, hadj, hnil, fun t' hk' hlt' hadj' hnil' => ?_⟩
              rcases Nat.eq_or_lt_of_le hk' with rfl | hk'
              · exact Bool.eq_false_of_not_eq_true hend
              · exact hbefore t' hk' hlt' hadj' hnil'
        · rintro ⟨t, hk, hlt, heq, hadj, hnil, hbefore⟩
          rcases Nat.eq_or_lt_of_le hk with rfl | hk'
          · exact .inl heq
          · have hgo := hbefore k le_rfl hk' hread.1 hread.2
            rw [if_neg (by rw [hgo]; exact Bool.false_ne_true)]
            exact .inr ((ih (k + 1)).mpr ⟨t, hk', by omega, heq, hadj, hnil,
              fun t' hle => hbefore t' (by omega)⟩)
      · rw [if_neg hread, ih (k + 1)]
        rw [Bool.and_eq_true, decide_eq_true_eq] at hread
        constructor
        · rintro ⟨t, hk, hlt, heq, hadj, hnil, hbefore⟩
          refine ⟨t, by omega, by omega, heq, hadj, hnil, fun t' hk' hlt' hadj' hnil' => ?_⟩
          rcases Nat.eq_or_lt_of_le hk' with rfl | hk'
          · exact absurd ⟨hadj', hnil'⟩ hread
          · exact hbefore t' hk' hlt' hadj' hnil'
        · rintro ⟨t, hk, hlt, heq, hadj, hnil, hbefore⟩
          have hne : k ≠ t := by
            rintro rfl
            exact hread ⟨hadj, hnil⟩
          exact ⟨t, by omega, by omega, heq, hadj, hnil, fun t' hle => hbefore t' (by omega)⟩

/-- What a flag of the search can be. -/
def FlagsIn (n m : Nat) (list1 : AssignList S) : Prop :=
  ∀ t < n, list1.flag t = UNASSIGNED ∨ list1.flag t = NIL_ASSIGNED ∨
    ∃ i < m, list1.flag t = (i : Nat)

theorem FlagsIn.assign {n m target : Nat} {v : Int} {score : S} (h : FlagsIn n m list1)
    (hv : v = NIL_ASSIGNED ∨ ∃ i < m, v = (i : Nat)) :
    FlagsIn n m (list1.assign target v score) := by
  intro t ht
  by_cases heq : t = target
  · rw [heq, assign_flag_self]
    exact .inr hv
  · rw [assign_flag_of_ne heq]
    exact h t ht

/-- **One call.** The indices are slots just if no open element is reached. -/
theorem indicesValid_iff (h : FlagsIn cfd.cf.elementNum cfp.elementNum list1) :
    IndicesValid cfd cfp list1 ↔ Settled cfd cfp list1 := by
  unfold IndicesValid
  rw [List.range_eq_range']
  constructor
  · intro hvalid t
    -- the element before `t` that ends the loop may be open itself
    induction t using Nat.strong_induction_on with
    | _ t ih =>
    intro ht hadj hopen
    by_contra hnone
    have hmem : list1.flag t ∈
        adjacentIndices cfd cfp list1 (List.range' 0 cfd.cf.elementNum) := by
      refine (mem_adjacentIndices _ _).mpr ⟨t, Nat.zero_le t, by omega, rfl, hadj, ?_, ?_⟩
      · rw [hopen]
        decide
      · intro t' _ hlt hadj' hnil'
        by_contra hend
        have hend := eq_true_of_ne_false hend
        by_cases hopen' : list1.flag t' = UNASSIGNED
        · obtain ⟨t'', hlt', hrest⟩ := ih t' hlt (by omega) hadj' hopen'
          exact hnone ⟨t'', by omega, hrest⟩
        · exact hnone ⟨t', hlt, hadj', hopen', hnil', hend⟩
    obtain ⟨i, -, heq⟩ := hvalid _ hmem
    exact natCast_ne_unassigned i (heq.symm.trans hopen)
  · intro hsettled v hv
    obtain ⟨t, -, ht, rfl, hadj, hnil, hbefore⟩ := (mem_adjacentIndices _ _).mp hv
    rw [Nat.zero_add] at ht
    rcases h t ht with hopen | hnil' | hslot
    · obtain ⟨t', hlt, hadj', -, hnil', hend⟩ := hsettled t ht hadj hopen
      rw [hbefore t' (Nat.zero_le t') hlt hadj' hnil'] at hend
      cases hend
    · exact absurd hnil' hnil
    · exact hslot

end Call

/-! ## The loops -/

section Loops

variable {S : Type*} {env : CaseEnv S} {cfd : CasePred} {cfp : CaseFrame}
  {rec : AssignList S → AssignList S → S → Option (List (Scored S))} {ga : Bool}
  {n m target i : Nat} {score : S} {list1 list2 : AssignList S} {st st' : SlotState S}
  {targetPp : Int}

/-- In the loops for an element only its own flag changes, to the number of a slot. -/
structure Treating (n m target : Nat) (list1 : AssignList S) (st : SlotState S) : Prop where
  flags : FlagsIn n m st.list1
  others : ∀ t, t ≠ target → st.list1.flag t = list1.flag t

theorem Treating.tryCase (h : Treating n m target list1 st) (hi : i < m)
    (hrun : tryCase env cfd cfp rec ga target i score st targetPp = some st') :
    Treating n m target list1 st' := by
  unfold Knp.tryCase at hrun
  split at hrun
  · obtain rfl := Option.some.inj hrun
    exact h
  · dsimp only at hrun
    split_ifs at hrun
    · obtain ⟨scored, -, rfl⟩ := Option.map_eq_some_iff.mp hrun
      refine ⟨h.flags.assign (.inr ⟨i, hi, rfl⟩), fun t ht => ?_⟩
      exact (assign_flag_of_ne ht).trans (h.others t ht)
    · obtain rfl := Option.some.inj hrun
      exact ⟨h.flags, h.others⟩

theorem Treating.cases (h : Treating n m target list1 st) (hi : i < m) {pps : List Int}
    (hrun : pps.foldlM (Knp.tryCase env cfd cfp rec ga target i score) st = some st') :
    Treating n m target list1 st' :=
  Loop.foldlM_induction (fun _ st => Treating n m target list1 st) pps [] st st'
    (fun _ _ _ _ _ hst hstep => hst.tryCase hi hstep) h hrun

theorem Treating.slots (h : Treating n m target list1 st) {k : Nat} (hk : k ≤ m)
    (hrun : (List.range k).foldlM (trySlot env cfd cfp rec ga target score) st = some st') :
    Treating n m target list1 st' := by
  refine Loop.foldlM_induction (fun _ st => Treating n m target list1 st) _ [] st st'
    (fun _ j s s' hj hs hstep => ?_) h hrun
  have hj := List.mem_range.mp hj
  unfold trySlot at hstep
  split_ifs at hstep
  · exact hs.cases (by omega) hstep
  · obtain rfl := Option.some.inj hstep
    exact hs

theorem AtCase.treating {start : SlotState S}
    (h : AtCase env cfd cfp rec ga target score start i targetPp st)
    (hstart : Treating n cfp.elementNum target list1 start) :
    Treating n cfp.elementNum target list1 st := by
  obtain ⟨before, after, stSlot, -, hslots, -, hcases⟩ := h.loops
  exact (hstart.slots h.slot_lt.le hslots).cases h.slot_lt hcases

theorem treating_start (h : FlagsIn n m list1) :
    Treating n m target list1 ⟨list1, list2, false, []⟩ :=
  ⟨h, fun _ _ => rfl⟩

end Loops

/-! ## The search -/

section Search

variable {S : Type*} {env : CaseEnv S} {cfd : CasePred} {cfp : CaseFrame}
  {root1 root2 rest list1 list2 : AssignList S} {minusOne zero score : S} {fuel target : Nat}

theorem Called.flagsIn (hroot : FlagsIn cfd.cf.elementNum cfp.elementNum root1)
    (h : Called env cfd cfp root1 root2 zero fuel list1 list2 score) :
    FlagsIn cfd.cf.elementNum cfp.elementNum list1 := by
  induction h with
  | start => exact hroot
  | slot _ _ hcase _ _ ih =>
      exact (hcase.treating (treating_start ih)).flags.assign (.inr ⟨_, hcase.slot_lt, rfl⟩)
  | nil _ _ hloop _ ih => exact ((treating_start ih).slots le_rfl hloop).flags.assign (.inl rfl)

theorem flagsIn_initD (n m : Nat) (score : S) (rest : AssignList S) :
    FlagsIn n m (initD n score rest) := fun _ ht => .inl (if_pos ht)

theorem CheckCall.flagsIn (h : CheckCall env cfd cfp rest minusOne zero target list1) :
    FlagsIn cfd.cf.elementNum cfp.elementNum list1 := by
  obtain ⟨hcall, -, hcase, -⟩ := h
  exact (hcase.treating (treating_start (hcall.flagsIn (flagsIn_initD _ _ _ _)))).flags

/-- **The whole search.** All calls of `check_adjacent_assigned` use slot numbers just if no
call is made while an adjacent element is open, unless behind one with an adjacent slot. -/
theorem checkCalls_valid_iff (env : CaseEnv S) (cfd : CasePred) (cfp : CaseFrame)
    (rest : AssignList S) (minusOne zero : S) :
    (∀ target list1, CheckCall env cfd cfp rest minusOne zero target list1 →
        IndicesValid cfd cfp list1) ↔
      ∀ target list1, CheckCall env cfd cfp rest minusOne zero target list1 →
        Settled cfd cfp list1 :=
  forall_congr' fun _ => forall_congr' fun _ => forall_congr' fun h => indicesValid_iff h.flagsIn

theorem nextElement_spec (h : nextElement cfd list1 = some target) :
    list1.flag target = UNASSIGNED ∧ (cfd.elemBNum target = -1 →
      ∀ t < cfd.cf.elementNum, cfd.elemBNum t ≠ -1 → list1.flag t ≠ UNASSIGNED) := by
  unfold nextElement at h
  cases htrue : target? cfd true list1 with
  | some t =>
      rw [htrue, Option.some_or] at h
      obtain rfl := Option.some.inj h
      refine ⟨(target?_spec htrue).2, fun hnum => ?_⟩
      have hprop := List.find?_some htrue
      rw [Bool.and_eq_true, decide_eq_true_eq, decide_eq_true_eq] at hprop
      exact absurd hnum (of_decide_eq_true hprop.2.symm)
  | none =>
      rw [htrue, Option.none_or] at h
      exact ⟨(target?_spec h).2, fun _ t ht hnum =>
        target?_none htrue ht (decide_eq_true hnum).symm⟩

/-- With the adjacent elements numbered, and the case ノ at elements without a number only, no
call is made too early. -/
theorem settled_of_numbered (hadj : ∀ t < cfd.cf.elementNum, cfd.cf.adjacent t = true →
      cfd.elemBNum t ≠ -1)
    (hno : ∀ t, ppNo ∈ cfd.cf.pp t → cfd.elemBNum t = -1)
    (h : CheckCall env cfd cfp rest minusOne zero target list1) : Settled cfd cfp list1 := by
  obtain ⟨hcall, hnext, hcase, -⟩ := h
  have hflags := hcall.flagsIn (flagsIn_initD _ cfp.elementNum _ rest)
  have htreat := hcase.treating (treating_start hflags)
  obtain ⟨before, after, -, hpp, -⟩ := hcase.loops
  have hmem : ppNo ∈ cfd.cf.pp target := by
    refine (List.takeWhile_prefix fun c => decide (c ≠ END_M)).subset ?_
    rw [hpp]
    exact List.mem_append_right _ List.mem_cons_self
  have hnum := hno target hmem
  intro t ht hadjt hopen
  have hne : t ≠ target := by
    rintro rfl
    exact hadj t ht hadjt hnum
  rw [htreat.others t hne] at hopen
  exact absurd hopen ((nextElement_spec hnext).2 hnum t ht (hadj t ht hadjt))

end Search

/-! ## A clause with the case ノ -/

/-- Two elements without a number: the noun that a clause modifies, which may have the case ノ
to it, and in front of the predicate an adjacent one with は. -/
def eyesPred : CasePred where
  cf :=
    { elementNum := 2
      adjacent := fun t => t = 1
      pp := fun t => if t = 0 then [ppGa, ppNo, END_M] else [ppGa, END_M]
      sp := fun _ => END_M
      weight := fun _ => 0
      samecase := [] }
  elemBNum := fun _ => -1
  cfType := .pred

/-- A frame with the slots ノ and ガ, of which ガ is adjacent. -/
def bigFrame : CaseFrame where
  elementNum := 2
  adjacent := fun i => i = 1
  pp := fun i => if i = 0 then [ppNo, END_M] else [ppGa, END_M]
  sp := fun _ => END_M
  weight := fun _ => 0
  samecase := []

/-- Every pair is scored alike. -/
def evenEnv : CaseEnv Int where
  useProbability := false
  flag := .ofExample
  isSubject := fun _ => false
  elmntMatchScore := fun _ _ => (10, 0)
  nilScore := fun _ => 0
  divWeight := fun s _ => s
  add := (· + ·)
  SOTO_THRESHOLD := fun _ => true
  NOUN_THRESHOLD := fun _ => true
  nonneg := fun s => 0 ≤ s

/-- The first call uses -1, the flag of the adjacent element, as an index. -/
theorem eyes_unassigned_used : ¬∀ target list1,
    CheckCall evenEnv eyesPred bigFrame (initP (-1)) (-1) 0 target list1 →
      IndicesValid eyesPred bigFrame list1 := by
  intro hall
  have hcase : AtCase evenEnv eyesPred bigFrame (assignList evenEnv eyesPred bigFrame 2)
      (gaFlag bigFrame (initP (-1))) 0 0 ⟨initD 2 (-1) (initP (-1)), initP (-1), false, []⟩ 0 ppNo
      ⟨initD 2 (-1) (initP (-1)), initP (-1), false, []⟩ :=
    ⟨by decide, [ppGa], [], _, rfl, rfl, rfl, rfl⟩
  have hcall := CheckCall.mk Called.start rfl hcase List.mem_cons_self
  obtain ⟨i, -, heq⟩ := hall 0 _ hcall (-1) (by decide)
  omega

end Knp
