import Knp.AnaphoraSearch

/-!
# The search space of case analysis for anaphora

> As long as the marks that are left from a deeper branch make no difference where the
> reference search tests a slot, `case_analysis_for_anaphora` scores what the reference
> search scores, in the same order. Where each slot is tested once for an element, they
> score the same only then.

For the converse the two searches are followed until they part: at a test that is not
harmless the reference gives the slot to the element, the code does not. What the
reference scores below that choice has the slot for the element, and the code does not
come back to the slot in this call, nor to the branch in another one.
-/

namespace Knp

variable {pred : AnaphoraPred} {cf : CaseFrame} {marks : CtmState → List Nat → Nat → Bool}

/-! ## Every call scores something -/

/-- There were `m` correspondences, and there are more if a call was made. -/
def Grown (m : Nat) (ns : CallState) : Prop :=
  m ≤ ns.st.scored.length ∧ ((ns.assignedFlag || ns.skipFlag) = true → m < ns.st.scored.length)

section Grown

variable {el : TcfArg} {rest : List TcfArg} {i r m : Nat} {branch : List Nat} {ns : CallState}
variable {child : Nat → List Nat → CtmState → CtmState}

def ChildGrows (child : Nat → List Nat → CtmState → CtmState) : Prop :=
  ∀ r branch st, st.scored.length < (child r branch st).scored.length

theorem skipElement_skipFlag : (skipElement i r branch child ns).skipFlag = true := by
  unfold skipElement
  split
  · next hskip => exact hskip
  · rfl

theorem skipElement_grown (hchild : ChildGrows child) (h : Grown m ns) :
    Grown m (skipElement i r branch child ns) := by
  unfold skipElement
  split
  · exact h
  · have hlt := h.1.trans_lt (hchild r branch
      { ns.st with nonMatch := Function.update ns.st.nonMatch (i - r) i })
    exact ⟨hlt.le, fun _ => hlt⟩

theorem assignSlot_length (hchild : ChildGrows child) (e : Nat) :
    ns.st.scored.length < (assignSlot pred el i r branch child e ns).st.scored.length := by
  refine Nat.lt_of_le_of_lt ?_ (hchild (r + 1) (branch ++ [e]) _)
  exact le_rfl

theorem assignSlot_grown (hchild : ChildGrows child) (h : Grown m ns) (e : Nat) :
    Grown m (assignSlot pred el i r branch child e ns) := by
  have hlt : m < (assignSlot pred el i r branch child e ns).st.scored.length :=
    h.1.trans_lt (assignSlot_length hchild e)
  exact ⟨hlt.le, fun _ => hlt⟩

theorem trySlotFor_grown (hchild : ChildGrows child) (h : Grown m ns) (c : Int) (e : Nat) :
    Grown m (trySlotFor pred marks el i r branch child c ns e) := by
  have hnote : Grown m (noteTest (slotTest el branch ns e) ns) := h
  unfold trySlotFor
  split
  · exact h
  · split
    · unfold trySuited
      split
      · exact skipElement_grown hchild hnote
      · split
        · exact hnote
        · split
          · exact skipElement_grown hchild hnote
          · exact assignSlot_grown hchild hnote e
    · exact h

theorem foldl_grown {ι : Type*} {f : CallState → ι → CallState} {l : List ι}
    (hf : ∀ ns x, Grown m ns → Grown m (f ns x)) (h : Grown m ns) : Grown m (l.foldl f ns) := by
  induction l generalizing ns with
  | nil => exact h
  | cons x l ih => exact ih (hf ns x h)

theorem tryCaseOf_grown (hchild : ChildGrows child) (h : Grown m ns) (c : Int) :
    Grown m (tryCaseOf pred cf marks el i r branch child rest ns c) := by
  have hskipIf : ∀ (ns : CallState) (p : Prop) [Decidable p], Grown m ns →
      Grown m (if p then skipElement i r branch child ns else ns) := by
    intro ns p _ hns
    split
    · exact skipElement_grown hchild hns
    · exact hns
  exact foldl_grown (fun ns e hns => trySlotFor_grown hchild hns c e)
    (hskipIf _ _ (hskipIf ns _ h))

theorem tryElement_grown (hchild : ChildGrows child) (st : CtmState) :
    st.scored.length < (tryElement pred cf marks el i r branch child rest st).scored.length := by
  have hstart : Grown st.scored.length ⟨st, false, false, []⟩ := ⟨le_rfl, fun h => by simp at h⟩
  have hskip : ∀ ns, Grown st.scored.length ns →
      st.scored.length < (skipElement i r branch child ns).st.scored.length := by
    intro ns hns
    exact (skipElement_grown hchild hns).2 (by simp [skipElement_skipFlag])
  unfold tryElement
  split
  · exact hskip _ hstart
  · have hloop := foldl_grown (f := tryCaseOf pred cf marks el i r branch child rest)
      (l := el.cases) (fun ns c hns => tryCaseOf_grown hchild hns c) hstart
    dsimp only
    split
    · exact hskip _ hloop
    · next hmade =>
        refine hloop.2 ?_
        simp only [Bool.and_eq_true, Bool.not_eq_true', not_and, Bool.not_eq_false] at hmade
        by_cases hassigned : (el.cases.foldl (tryCaseOf pred cf marks el i r branch child rest)
            ⟨st, false, false, []⟩).assignedFlag = true
        · simp [hassigned]
        · simp [hmade (Bool.eq_false_of_not_eq_true hassigned)]

end Grown

theorem search_grown (rest : List TcfArg) (i : Nat) :
    ChildGrows (search pred cf marks rest i) := by
  induction rest generalizing i with
  | nil =>
    intro r branch st
    simp [search, scoreCorrespondence, refill]
  | cons el rest ih =>
    intro r branch st
    exact tryElement_grown (ih (i + 1)) (refill cf r st)

/-! ## What a call adds -/

/-- The correspondence extends `pre` and gives the slot `e` to the element `i`. -/
def Gives (i : Nat) (pre : List CaseAssign) (e : Nat) (c : Correspondence) : Prop :=
  ∃ a : CaseAssign, a.cfElementNum = e ∧ a.tcfElementNum = i ∧ Under (i + 1) (pre ++ [a]) c

section Choice

variable {i e e' : Nat} {pre : List CaseAssign} {c : Correspondence}

theorem Gives.under (h : Gives i pre e c) : Under i pre c := by
  obtain ⟨a, -, helem, hunder⟩ := h
  exact hunder.of_assign helem

theorem Gives.not_skips (h : Gives i pre e c) : ¬Under (i + 1) pre c := by
  rintro ⟨l, heq, hl⟩
  obtain ⟨a, -, helem, l', heq', -⟩ := h
  rw [heq, List.append_assoc] at heq'
  have hmem : a ∈ l := by
    rw [List.append_cancel_left heq']
    exact List.mem_cons_self
  exact absurd (hl a hmem) (by omega)

theorem Gives.unique (h : Gives i pre e c) (h' : Gives i pre e' c) : e = e' := by
  obtain ⟨a, rfl, -, l, heq, -⟩ := h
  obtain ⟨a', rfl, -, l', heq', -⟩ := h'
  rw [heq, List.append_assoc, List.append_assoc] at heq'
  have hcons : a :: l = a' :: l' := List.append_cancel_left heq'
  rw [(List.cons.inj hcons).1]

end Choice

section Call

variable {el : TcfArg} {rest : List TcfArg} {n i r : Nat} {branch : List Nat}
variable {pre : List CaseAssign} {pp : Nat → Int} {ns nsA nsB nsA' nsB' : CallState}
variable {child child' : Nat → List Nat → CtmState → CtmState} {E E' K K' : Nat → Prop}

/-- What is scored besides, and the slots that are given are in `E`. -/
structure Adds (i : Nat) (pre : List CaseAssign) (E : Nat → Prop) (ns ns' : CallState) : Prop where
  new : ∀ c ∈ ns'.st.scored, c ∈ ns.st.scored ∨
    (Under (i + 1) pre c ∧ ns.skipFlag = false ∧ ns'.skipFlag = true) ∨
      ∃ e, E e ∧ Gives i pre e c
  skip : ns.skipFlag = true → ns'.skipFlag = true

/-- The state of a call for which `pre` is recorded, the slots having the cases `pp`. -/
structure At (i r : Nat) (branch : List Nat) (pre : List CaseAssign) (pp : Nat → Int)
    (ns : CallState) : Prop where
  live : Live i r branch ns
  given_eq : (List.range r).map ns.st.given = pre
  pp_eq : ns.st.pp = pp

theorem At.kept (hpred : pred.cfType = .pred) (h : At i r branch pre pp nsA)
    (hk : BranchKept pred n i r branch nsA.st nsA'.st) : At i r branch pre pp nsA' where
  live := h.live.kept hk
  given_eq := (map_range_congr hk.given_eq).trans h.given_eq
  pp_eq := (hk.pp_eq hpred).trans h.pp_eq

theorem Adds.refl : Adds i pre E ns ns := ⟨fun _ hc => Or.inl hc, fun h => h⟩

theorem Adds.mono (h : Adds i pre E nsA nsA') (hE : ∀ e, E e → E' e) : Adds i pre E' nsA nsA' where
  new c hc := by
    rcases h.new c hc with hold | hskip | ⟨e, he, hgives⟩
    · exact Or.inl hold
    · exact Or.inr (Or.inl hskip)
    · exact Or.inr (Or.inr ⟨e, hE e he, hgives⟩)
  skip := h.skip

theorem skipElement_adds (hchild : ChildKeeps pred n (i + 1) child)
    (h : At i r branch pre pp ns) :
    Adds i pre E ns (skipElement i r branch child ns) := by
  unfold skipElement
  split
  · exact Adds.refl
  · next hskip =>
      obtain ⟨l, heq, hl⟩ := (hchild r branch _ h.live.1.skip).scored
      refine ⟨fun c hc => ?_, fun _ => rfl⟩
      rcases List.mem_append.mp (heq ▸ hc) with hold | hnew
      · exact Or.inl hold
      · exact Or.inr (Or.inl ⟨h.given_eq ▸ (hl c hnew).2, Bool.eq_false_of_not_eq_true hskip, rfl⟩)

/-- The correspondences below an assignment. -/
theorem assignSlot_scored (hchild : ChildKeeps pred n (i + 1) child)
    (h : At i r branch pre pp ns) {e : Nat} (he : e ∉ branch) :
    ∃ l, (assignSlot pred el i r branch child e ns).st.scored = ns.st.scored ++ l ∧
      ∀ c ∈ l, Gives i pre e c := by
  let a : CaseAssign := ⟨el.bPtr, e, el.toCfElem, i, assignType el, el.entityNum⟩
  obtain ⟨l, heq, hl⟩ :=
    (hchild (r + 1) (branch ++ [e]) _ (h.live.1.assign (a := a) he rfl rfl _)).scored
  refine ⟨l, heq, fun c hc => ⟨a, rfl, rfl, ?_⟩⟩
  have hunder := (hl c hc).2
  rwa [map_given_assign, h.given_eq] at hunder

theorem assignSlot_adds (hchild : ChildKeeps pred n (i + 1) child)
    (h : At i r branch pre pp ns) {e : Nat} (he : e ∉ branch) (hE : E e) :
    Adds i pre E ns (assignSlot pred el i r branch child e ns) := by
  obtain ⟨l, heq, hl⟩ := assignSlot_scored hchild h he
  refine ⟨fun c hc => ?_, fun hskip => hskip⟩
  rcases List.mem_append.mp (heq ▸ hc) with hold | hnew
  · exact Or.inl hold
  · exact Or.inr (Or.inr ⟨e, hE, hl c hnew⟩)

theorem trySuited_adds (hmarks : SoundMarks marks) (hchild : ChildKeeps pred n (i + 1) child)
    (h : At i r branch pre pp ns) {e : Nat} (hE : E e) :
    Adds i pre E ns (trySuited pred marks el i r branch child ns e) := by
  unfold trySuited
  split
  · exact skipElement_adds hchild h
  · next hfree =>
      split
      · exact Adds.refl
      · split
        · exact skipElement_adds hchild h
        · exact assignSlot_adds hchild h
            (hmarks ns.st branch e h.live.2 (Bool.eq_false_of_not_eq_true hfree)) hE

theorem trySlotFor_adds (hpred : pred.cfType = .pred) (hmarks : SoundMarks marks)
    (hchild : ChildKeeps pred n (i + 1) child) (h : At i r branch pre pp ns) (x : Int) (e : Nat) :
    Adds i pre (fun e' => e' = e ∧ suits pred el x (pp e') = true) ns
      (trySlotFor pred marks el i r branch child x ns e) := by
  unfold trySlotFor
  split
  · exact Adds.refl
  · split
    · next hsuits =>
        have hnoted := h.kept hpred (noteTest_kept pred n h.live (slotTest el branch ns e))
        have hadds : Adds i pre (fun e' => e' = e ∧ suits pred el x (pp e') = true)
            (noteTest (slotTest el branch ns e) ns)
            (trySuited pred marks el i r branch child (noteTest (slotTest el branch ns e) ns) e) :=
          trySuited_adds hmarks hchild hnoted ⟨rfl, h.pp_eq ▸ hsuits⟩
        exact ⟨hadds.new, hadds.skip⟩
    · exact Adds.refl

/-! ## Where the searches part -/

/-- The call does not come back to the choice of the correspondence: `K` are the slots tested. -/
def Closed (i : Nat) (pre : List CaseAssign) (K : Nat → Prop) (ns : CallState)
    (c : Correspondence) : Prop :=
  (Under (i + 1) pre c ∧ ns.skipFlag = true) ∨ ∃ e, K e ∧ Gives i pre e c

/-- Only choices made before are scored. -/
def ScoredBefore (i : Nat) (pre : List CaseAssign) (K : Nat → Prop) (ns : CallState) : Prop :=
  ∀ c ∈ ns.st.scored, (Under (i + 1) pre c → ns.skipFlag = true) ∧ ∀ e, Gives i pre e c → K e

/-- The two searches have done the same. -/
structure Together (i : Nat) (pre : List CaseAssign) (num : Nat) (pp : Nat → Int)
    (K : Nat → Prop) (ns : CallState) : Prop where
  harmless : AllHarmless ns.st
  scored : ScoredBefore i pre K ns
  case_tested : ∀ p ∈ ns.assignedCase, ∃ e < num, K e ∧ pp e = p

/-- The reference has scored a correspondence that the code does not score any more. -/
def Lost (i : Nat) (pre : List CaseAssign) (K : Nat → Prop) (nsA nsB : CallState) : Prop :=
  ∃ c ∈ nsB.st.scored, c ∉ nsA.st.scored ∧ Closed i pre K nsA c

/-- The states of the code and of the reference search. -/
def Sync (i : Nat) (pre : List CaseAssign) (num : Nat) (pp : Nat → Int) (K : Nat → Prop)
    (nsA nsB : CallState) : Prop :=
  (nsA = nsB ∧ Together i pre num pp K nsB) ∨ Lost i pre K nsA nsB

theorem Closed.mono {c : Correspondence} (h : Closed i pre K ns c) (hK : ∀ e, K e → K' e) :
    Closed i pre K' ns c :=
  h.imp_right fun ⟨e, he, hgives⟩ => ⟨e, hK e he, hgives⟩

theorem Together.mono {num : Nat} (h : Together i pre num pp K ns) (hK : ∀ e, K e → K' e) :
    Together i pre num pp K' ns where
  harmless := h.harmless
  scored c hc := ⟨(h.scored c hc).1, fun e he => hK e ((h.scored c hc).2 e he)⟩
  case_tested p hp := by
    obtain ⟨e, hlt, he, heq⟩ := h.case_tested p hp
    exact ⟨e, hlt, hK e he, heq⟩

theorem Lost.mono (h : Lost i pre K nsA nsB) (hK : ∀ e, K e → K' e) : Lost i pre K' nsA nsB := by
  obtain ⟨c, hc, hlost, hclosed⟩ := h
  exact ⟨c, hc, hlost, hclosed.mono hK⟩

theorem Sync.mono {num : Nat} (h : Sync i pre num pp K nsA nsB) (hK : ∀ e, K e → K' e) :
    Sync i pre num pp K' nsA nsB :=
  h.imp (fun h => ⟨h.1, h.2.mono hK⟩) fun h => h.mono hK

theorem Lost.result (h : Lost i pre K nsA nsB) :
    ∃ c ∈ nsB.st.scored, c ∉ nsA.st.scored ∧ Under i pre c := by
  obtain ⟨c, hc, hlost, hclosed⟩ := h
  refine ⟨c, hc, hlost, ?_⟩
  rcases hclosed with ⟨hskips, -⟩ | ⟨e, -, hgives⟩
  · exact hskips.of_skip
  · exact hgives.under

theorem Sync.result {num : Nat} (h : Sync i pre num pp K nsA nsB) :
    (nsA.st = nsB.st ∧ AllHarmless nsB.st) ∨
      ∃ c ∈ nsB.st.scored, c ∉ nsA.st.scored ∧ Under i pre c :=
  h.imp (fun ⟨heq, htogether⟩ => ⟨congrArg CallState.st heq, htogether.harmless⟩) Lost.result

/-- What is lost stays lost. -/
theorem Lost.step (h : Lost i pre K nsA nsB) (hadds : Adds i pre E nsA nsA')
    (hE : ∀ e, E e → ¬K e) (hkept : ∀ c ∈ nsB.st.scored, c ∈ nsB'.st.scored) :
    Lost i pre K nsA' nsB' := by
  obtain ⟨c, hc, hlost, hclosed⟩ := h
  refine ⟨c, hkept c hc, fun hmem => ?_, ?_⟩
  · rcases hadds.new c hmem with hold | ⟨hskips, hflag, -⟩ | ⟨e, he, hgives⟩
    · exact hlost hold
    · rcases hclosed with ⟨-, hskipped⟩ | ⟨e, -, hgives⟩
      · exact absurd (hflag.symm.trans hskipped) (by simp)
      · exact hgives.not_skips hskips
    · rcases hclosed with ⟨hskips, -⟩ | ⟨e', he', hgives'⟩
      · exact hgives.not_skips hskips
      · exact hE e he (hgives.unique hgives' ▸ he')
  · exact hclosed.imp_left fun ⟨hskips, hskipped⟩ => ⟨hskips, hadds.skip hskipped⟩

theorem ScoredBefore.step (h : ScoredBefore i pre K ns) (hadds : Adds i pre E ns nsA')
    (hK : ∀ e, K e → K' e) (hE : ∀ e, E e → K' e) : ScoredBefore i pre K' nsA' := by
  intro c hc
  rcases hadds.new c hc with hold | ⟨hskips, -, hskipped⟩ | ⟨e, he, hgives⟩
  · exact ⟨fun hskips => hadds.skip ((h c hold).1 hskips), fun e he => hK e ((h c hold).2 e he)⟩
  · exact ⟨fun _ => hskipped, fun e hgives => absurd hskips hgives.not_skips⟩
  · exact ⟨fun hskips => absurd hskips hgives.not_skips,
      fun e' hgives' => hE e' (hgives.unique hgives' ▸ he)⟩

theorem BranchKept.scored_mono {st st' : CtmState} (h : BranchKept pred n i r branch st st') :
    ∀ c ∈ st.scored, c ∈ st'.scored := by
  intro c hc
  obtain ⟨l, heq, -⟩ := h.scored
  rw [heq]
  exact List.mem_append_left l hc

/-- The two calls for the next element do the same, or they part. -/
def ChildrenPart (i : Nat) (pp : Nat → Int) (child child' : Nat → List Nat → CtmState → CtmState) :
    Prop :=
  ∀ r branch st, OnBranch i r branch st → st.pp = pp → AllHarmless st →
    (∀ c ∈ st.scored, ¬Under i ((List.range r).map st.given) c) →
    (child r branch st = child' r branch st ∧ AllHarmless (child' r branch st)) ∨
      ∃ c ∈ (child' r branch st).scored, c ∉ (child r branch st).scored ∧
        Under i ((List.range r).map st.given) c

theorem Together.skip {num : Nat} (hchild : ChildKeeps pred n (i + 1) child')
    (hpart : ChildrenPart (i + 1) pp child child') (hat : At i r branch pre pp ns)
    (h : Together i pre num pp K ns) :
    Sync i pre num pp K (skipElement i r branch child ns) (skipElement i r branch child' ns) := by
  have hadds : Adds i pre (fun _ => False) ns (skipElement i r branch child' ns) :=
    skipElement_adds hchild hat
  by_cases hskip : ns.skipFlag = true
  · have hsame : ∀ child, skipElement i r branch child ns = ns := fun child => by
      simp [skipElement, hskip]
    rw [hsame, hsame]
    exact Or.inl ⟨rfl, h⟩
  · have hfresh : ∀ c ∈ ns.st.scored, ¬Under (i + 1) ((List.range r).map ns.st.given) c := by
      rw [hat.given_eq]
      exact fun c hc hskips => hskip ((h.scored c hc).1 hskips)
    have hscored := h.scored.step hadds (fun _ he => he) fun _ he => he.elim
    unfold skipElement at hscored ⊢
    rw [if_neg hskip] at hscored ⊢
    rw [if_neg hskip]
    rcases hpart r branch _ hat.live.1.skip hat.pp_eq h.harmless hfresh with
      ⟨heq, hok⟩ | ⟨c, hc, hlost, hunder⟩
    · refine Or.inl ⟨by rw [heq], hok, hscored, h.case_tested⟩
    · exact Or.inr ⟨c, hc, hlost, Or.inl ⟨hat.given_eq ▸ hunder, rfl⟩⟩

theorem Together.assign {num : Nat} (hpred : pred.cfType = .pred)
    (hchild : ChildKeeps pred n (i + 1) child') (hpart : ChildrenPart (i + 1) pp child child')
    (hat : At i r branch pre pp ns) (h : Together i pre num pp K ns) {e : Nat} (he : e ∉ branch)
    (hlt : e < num) (hK : ¬K e) :
    Sync i pre num pp (fun e' => K e' ∨ e' = e) (assignSlot pred el i r branch child e ns)
      (assignSlot pred el i r branch child' e ns) := by
  have hscored : ScoredBefore i pre (fun e' => K e' ∨ e' = e)
      (assignSlot pred el i r branch child' e ns) :=
    h.scored.step (assignSlot_adds hchild hat he (E := (· = e)) rfl) (fun _ he => Or.inl he)
      fun _ he => Or.inr he
  let a : CaseAssign := ⟨el.bPtr, e, el.toCfElem, i, assignType el, el.entityNum⟩
  have hgiven : (List.range (r + 1)).map (Function.update ns.st.given r a) = pre ++ [a] := by
    rw [map_given_assign, hat.given_eq]
  have hfresh : ∀ c ∈ ns.st.scored,
      ¬Under (i + 1) ((List.range (r + 1)).map (Function.update ns.st.given r a)) c := by
    rw [hgiven]
    exact fun c hc hunder => hK ((h.scored c hc).2 e ⟨a, rfl, rfl, hunder⟩)
  unfold assignSlot at hscored ⊢
  simp only [hpred, reduceCtorEq, if_false] at hscored ⊢
  rcases hpart (r + 1) (branch ++ [e]) _ (hat.live.1.assign (a := a) he rfl rfl ns.st.pp) hat.pp_eq
    h.harmless hfresh with ⟨heq, hok⟩ | ⟨c, hc, hlost, hunder⟩
  · refine Or.inl ⟨by rw [heq], hok, hscored, fun p hp => ?_⟩
    rcases List.mem_cons.mp hp with rfl | hp
    · exact ⟨e, hlt, Or.inr rfl, by rw [hat.pp_eq]⟩
    · obtain ⟨e', hlt', he', heq'⟩ := h.case_tested p hp
      exact ⟨e', hlt', Or.inl he', heq'⟩
  · exact Or.inr ⟨c, hc, hlost, Or.inr ⟨e, Or.inr rfl, a, rfl, rfl, hgiven ▸ hunder⟩⟩

/-- The code takes a slot for filled that is free: what has the slot for the element is lost. -/
theorem lost_of_marked (hchild : ChildKeeps pred n (i + 1) child)
    (hchild' : ChildKeeps pred n (i + 1) child') (hgrows : ChildGrows child')
    (hat : At i r branch pre pp ns) (h : ScoredBefore i pre K ns) {e : Nat} (he : e ∉ branch)
    (hK : ¬K e) :
    Lost i pre (fun e' => K e' ∨ e' = e) (skipElement i r branch child ns)
      (assignSlot pred el i r branch child' e ns) := by
  obtain ⟨l, heq, hl⟩ : ∃ l, (assignSlot pred el i r branch child' e ns).st.scored =
      ns.st.scored ++ l ∧ ∀ c ∈ l, Gives i pre e c := assignSlot_scored hchild' hat he
  have hgrown : ns.st.scored.length <
      (assignSlot pred el i r branch child' e ns).st.scored.length := assignSlot_length hgrows e
  cases l with
  | nil => simp [heq] at hgrown
  | cons c l =>
    have hgives := hl c List.mem_cons_self
    refine ⟨c, heq ▸ List.mem_append_right _ List.mem_cons_self, fun hmem => ?_,
      Or.inr ⟨e, Or.inr rfl, hgives⟩⟩
    have hadds : Adds i pre (fun _ => False) ns (skipElement i r branch child ns) :=
      skipElement_adds hchild hat
    rcases hadds.new c hmem with hold | ⟨hskips, -⟩ | ⟨_, hfalse, -⟩
    · exact hK ((h c hold).2 e hgives)
    · exact hgives.not_skips hskips
    · exact hfalse

/-- The calls of the code and of the reference for the next element. -/
structure ChildPair (pred : AnaphoraPred) (n i : Nat) (pp : Nat → Int)
    (child child' : Nat → List Nat → CtmState → CtmState) : Prop where
  keeps : ChildKeeps pred n i child
  keeps' : ChildKeeps pred n i child'
  grows : ChildGrows child'
  part : ChildrenPart i pp child child'

section Pair

variable {num : Nat} (hpred : pred.cfType = .pred)
  (hpair : ChildPair pred n (i + 1) pp child child')

include hpred hpair

/-- A harmless test of a slot that is not tested yet. -/
theorem Together.trySuited (hat : At i r branch pre pp ns) (h : Together i pre num pp K ns)
    {e : Nat} (hfree : ns.st.pp e ∉ ns.assignedCase) (ht : (slotTest el branch ns e).Harmless)
    (hlt : e < num) (hK : ¬K e) :
    Sync i pre num pp (fun e' => K e' ∨ e' = e) (trySuited pred sharedMarks el i r branch child ns e)
      (trySuited pred branchMarks el i r branch child' ns e) := by
  have hskip := (h.skip hpair.keeps' hpair.part hat).mono fun e' (he : K e') =>
    (Or.inl he : K e' ∨ e' = e)
  unfold Knp.trySuited
  by_cases hmem : e ∈ branch
  · have hcontains : branch.contains e = true := List.contains_iff_mem.mpr hmem
    simpa only [sharedMarks, branchMarks, hat.live.2 e hmem, hcontains, if_true] using hskip
  · have hcontains : branch.contains e = false := by simpa using hmem
    simp only [sharedMarks, branchMarks, hcontains, Bool.false_eq_true, if_false, if_neg hfree]
    by_cases hnon : hasFeature el.f "非格要素" = true
    · simpa only [hnon, if_true, ite_self] using hskip
    · have hunmarked : ¬ns.st.filled e = true := by
        intro hmarked
        refine (ht hmarked).elim hmem fun hcase => hnon ?_
        simpa [slotTest, hfree] using hcase
      rw [if_neg hunmarked, if_neg hnon, if_neg hnon]
      exact h.assign hpred hpair.keeps' hpair.part hat hmem hlt hK

omit hpred in
/-- A test that is not harmless. -/
theorem trySuited_lost (hat : At i r branch pre pp ns) (h : ScoredBefore i pre K ns) {e : Nat}
    (hfree : ns.st.pp e ∉ ns.assignedCase) (ht : ¬(slotTest el branch ns e).Harmless)
    (hK : ¬K e) :
    Lost i pre (fun e' => K e' ∨ e' = e) (trySuited pred sharedMarks el i r branch child ns e)
      (trySuited pred branchMarks el i r branch child' ns e) := by
  obtain ⟨hmarked, hnot⟩ := Classical.not_imp.mp ht
  obtain ⟨hmem, hcase⟩ := not_or.mp hnot
  have hmem : e ∉ branch := hmem
  have hmarked : ns.st.filled e = true := hmarked
  have hcontains : branch.contains e = false := by simpa using hmem
  have hnon : ¬hasFeature el.f "非格要素" = true := by simpa [slotTest, hfree] using hcase
  unfold trySuited
  simp only [sharedMarks, branchMarks, hcontains, Bool.false_eq_true, if_false, if_neg hfree]
  rw [if_pos hmarked, if_neg hnon]
  exact lost_of_marked hpair.keeps hpair.keeps' hpair.grows hat h hmem hK

theorem trySlotFor_sync (hinj : ∀ e < num, ∀ e' < num, pp e = pp e' → e = e')
    (hatA : At i r branch pre pp nsA) (hatB : At i r branch pre pp nsB)
    (h : Sync i pre num pp K nsA nsB) (x : Int) {e : Nat} (hlt : e < num)
    (hK : suits pred el x (pp e) = true → ¬K e) :
    Sync i pre num pp (fun e' => K e' ∨ (e' = e ∧ suits pred el x (pp e') = true))
      (trySlotFor pred sharedMarks el i r branch child x nsA e)
      (trySlotFor pred branchMarks el i r branch child' x nsB e) := by
  rcases h with ⟨rfl, h⟩ | hlost
  · unfold trySlotFor
    split
    · exact Or.inl ⟨rfl, h.mono fun e' he => Or.inl he⟩
    · split
      · next hsuits =>
          have hsuits' : suits pred el x (pp e) = true := hatA.pp_eq ▸ hsuits
          have hnoted := hatA.kept hpred (noteTest_kept pred n hatA.live (slotTest el branch nsA e))
          have hfree : nsA.st.pp e ∉ nsA.assignedCase := by
            intro hmem
            obtain ⟨e', hlt', he', heq⟩ := h.case_tested _ hmem
            rw [hatA.pp_eq] at heq
            exact hK hsuits' (hinj e' hlt' e hlt heq ▸ he')
          have hmono : ∀ e', K e' ∨ e' = e → K e' ∨ (e' = e ∧ suits pred el x (pp e') = true) := by
            intro e' he'
            exact he'.imp_right fun heq => ⟨heq, heq ▸ hsuits'⟩
          by_cases ht : (slotTest el branch nsA e).Harmless
          · have htogether : Together i pre num pp K (noteTest (slotTest el branch nsA e) nsA) := by
              refine ⟨fun t hmem => ?_, h.scored, h.case_tested⟩
              rcases List.mem_append.mp hmem with hold | hnew
              · exact h.harmless t hold
              · rw [List.mem_singleton.mp hnew]
                exact ht
            exact (htogether.trySuited hpred hpair hnoted hfree ht hlt (hK hsuits')).mono hmono
          · have hlost := trySuited_lost hpair hnoted h.scored hfree ht (hK hsuits')
            exact Or.inr (hlost.mono hmono)
      · exact Or.inl ⟨rfl, h.mono fun e' he => Or.inl he⟩
  · have hclosed : ∀ e', e' = e ∧ suits pred el x (pp e') = true → ¬K e' := by
      rintro e' ⟨rfl, hsuits⟩
      exact hK hsuits
    exact Or.inr ((hlost.step (trySlotFor_adds hpred sharedMarks_sound hpair.keeps hatA x e) hclosed
      (trySlotFor_kept branchMarks_sound hpair.keeps' hatB.live x e).scored_mono).mono
        fun e' he' => Or.inl he')

theorem slotLoop_sync (hinj : ∀ e < num, ∀ e' < num, pp e = pp e' → e = e') {l : List Nat}
    (hnodup : l.Nodup) (hlt : ∀ e ∈ l, e < num) (hatA : At i r branch pre pp nsA)
    (hatB : At i r branch pre pp nsB) (h : Sync i pre num pp K nsA nsB) (x : Int)
    (hK : ∀ e ∈ l, suits pred el x (pp e) = true → ¬K e) :
    Sync i pre num pp (fun e => K e ∨ (e ∈ l ∧ suits pred el x (pp e) = true))
      (l.foldl (trySlotFor pred sharedMarks el i r branch child x) nsA)
      (l.foldl (trySlotFor pred branchMarks el i r branch child' x) nsB) := by
  induction l generalizing K nsA nsB with
  | nil => exact h.mono fun e he => Or.inl he
  | cons e l ih =>
    obtain ⟨hmem, hnodup⟩ := List.nodup_cons.mp hnodup
    have hstep := trySlotFor_sync hpred hpair hinj hatA hatB h x (hlt e List.mem_cons_self)
      (hK e List.mem_cons_self)
    refine (ih hnodup (fun e' he' => hlt e' (List.mem_cons_of_mem e he'))
      (hatA.kept hpred (trySlotFor_kept sharedMarks_sound hpair.keeps hatA.live x e))
      (hatB.kept hpred (trySlotFor_kept branchMarks_sound hpair.keeps' hatB.live x e)) hstep
      fun e' he' hsuits => ?_).mono ?_
    · rintro (hold | ⟨rfl, -⟩)
      · exact hK e' (List.mem_cons_of_mem e he') hsuits hold
      · exact hmem he'
    · rintro e' ((hold | ⟨rfl, hsuits⟩) | ⟨he', hsuits⟩)
      · exact Or.inl hold
      · exact Or.inr ⟨List.mem_cons_self, hsuits⟩
      · exact Or.inr ⟨List.mem_cons_of_mem e he', hsuits⟩

omit hpred in
theorem skip_sync (hatA : At i r branch pre pp nsA) (hatB : At i r branch pre pp nsB)
    (h : Sync i pre num pp K nsA nsB) :
    Sync i pre num pp K (skipElement i r branch child nsA) (skipElement i r branch child' nsB) := by
  rcases h with ⟨rfl, h⟩ | hlost
  · exact h.skip hpair.keeps' hpair.part hatA
  · exact Or.inr (hlost.step (skipElement_adds (E := fun _ => False) hpair.keeps hatA)
      (fun _ he => he.elim) (skipElement_kept hpair.keeps' hatB.live).scored_mono)

omit hpred in
theorem skipIf_sync (hatA : At i r branch pre pp nsA) (hatB : At i r branch pre pp nsB)
    (h : Sync i pre num pp K nsA nsB) (p : Prop) [Decidable p] :
    Sync i pre num pp K (if p then skipElement i r branch child nsA else nsA)
      (if p then skipElement i r branch child' nsB else nsB) := by
  split
  · exact skip_sync hpair hatA hatB h
  · exact h

theorem tryCaseOf_sync
    (hinj : ∀ e < cf.elementNum, ∀ e' < cf.elementNum, pp e = pp e' → e = e')
    (hatA : At i r branch pre pp nsA) (hatB : At i r branch pre pp nsB)
    (h : Sync i pre cf.elementNum pp K nsA nsB) (x : Int)
    (hK : ∀ e < cf.elementNum, suits pred el x (pp e) = true → ¬K e) :
    Sync i pre cf.elementNum pp
      (fun e => K e ∨ (e < cf.elementNum ∧ suits pred el x (pp e) = true))
      (tryCaseOf pred cf sharedMarks el i r branch child rest nsA x)
      (tryCaseOf pred cf branchMarks el i r branch child' rest nsB x) := by
  have hkept : ∀ {child ns} (p : Prop) [Decidable p], ChildKeeps pred n (i + 1) child →
      At i r branch pre pp ns →
      At i r branch pre pp (if p then skipElement i r branch child ns else ns) :=
    fun p _ hchild hat => hat.kept hpred (skipIf_kept hchild hat.live p)
  have hatA₁ := hkept (x = ppStar ∨ el.toCf > 0) hpair.keeps hatA
  have hatB₁ := hkept (x = ppStar ∨ el.toCf > 0) hpair.keeps' hatB
  have h₁ := skipIf_sync hpair hatA hatB h (x = ppStar ∨ el.toCf > 0)
  have h₂ := skipIf_sync hpair hatA₁ hatB₁ h₁
    (rest.any fun k => k.ownCases.any fun c' => x = c')
  refine (slotLoop_sync hpred hpair hinj List.nodup_range (fun e he => List.mem_range.mp he)
    (hkept _ hpair.keeps hatA₁) (hkept _ hpair.keeps' hatB₁) h₂ x
    fun e he => hK e (List.mem_range.mp he)).mono fun e he => ?_
  exact he.imp_right fun hsuits => ⟨List.mem_range.mp hsuits.1, hsuits.2⟩

theorem caseLoop_sync
    (hinj : ∀ e < cf.elementNum, ∀ e' < cf.elementNum, pp e = pp e' → e = e') {cs : List Int}
    (honce : cs.Pairwise fun x y => ∀ e < cf.elementNum,
      suits pred el x (pp e) = true → ¬suits pred el y (pp e) = true)
    (hatA : At i r branch pre pp nsA) (hatB : At i r branch pre pp nsB)
    (h : Sync i pre cf.elementNum pp K nsA nsB) (rest : List TcfArg)
    (hK : ∀ x ∈ cs, ∀ e < cf.elementNum, suits pred el x (pp e) = true → ¬K e) :
    ∃ K, Sync i pre cf.elementNum pp K
      (cs.foldl (tryCaseOf pred cf sharedMarks el i r branch child rest) nsA)
      (cs.foldl (tryCaseOf pred cf branchMarks el i r branch child' rest) nsB) := by
  induction cs generalizing K nsA nsB with
  | nil => exact ⟨K, h⟩
  | cons x cs ih =>
    obtain ⟨hx, honce⟩ := List.pairwise_cons.mp honce
    refine ih honce
      (hatA.kept hpred (tryCaseOf_kept sharedMarks_sound hpair.keeps hatA.live rest x))
      (hatB.kept hpred (tryCaseOf_kept branchMarks_sound hpair.keeps' hatB.live rest x))
      (tryCaseOf_sync hpred hpair hinj hatA hatB h x (hK x List.mem_cons_self))
      fun y hy e he hsuits => ?_
    rintro (hold | ⟨-, hsuits'⟩)
    · exact hK y (List.mem_cons_of_mem x hy) e he hsuits hold
    · exact hx y hy e he hsuits' hsuits

omit hpair in
theorem caseLoop_at (hmarks : SoundMarks marks) (hchild : ChildKeeps pred n (i + 1) child)
    (hat : At i r branch pre pp ns) (cf : CaseFrame) (el : TcfArg) (rest : List TcfArg) :
    At i r branch pre pp (el.cases.foldl (tryCaseOf pred cf marks el i r branch child rest) ns) :=
  hat.kept hpred (foldl_kept (fun _ c hns => tryCaseOf_kept hmarks hchild hns rest c) hat.live)

omit hpred in
theorem Lost.skipIf (hatA : At i r branch pre pp nsA) (hatB : At i r branch pre pp nsB)
    (h : Lost i pre K nsA nsB) (p q : Prop) [Decidable p] [Decidable q] :
    Lost i pre K (if p then skipElement i r branch child nsA else nsA)
      (if q then skipElement i r branch child' nsB else nsB) := by
  have hadds : Adds i pre (fun _ => False) nsA
      (if p then skipElement i r branch child nsA else nsA) := by
    split
    · exact skipElement_adds hpair.keeps hatA
    · exact Adds.refl
  exact h.step hadds (fun _ he => he.elim) (skipIf_kept hpair.keeps' hatB.live q).scored_mono

theorem tryElement_part {st : CtmState}
    (hinj : ∀ e < cf.elementNum, ∀ e' < cf.elementNum, pp e = pp e' → e = e')
    (honce : el.cases.Pairwise fun x y => ∀ e < cf.elementNum,
      suits pred el x (pp e) = true → ¬suits pred el y (pp e) = true)
    (h : OnBranch i r branch st) (hfilled : ∀ e ∈ branch, st.filled e = true) (hpp : st.pp = pp)
    (hok : AllHarmless st)
    (hfresh : ∀ c ∈ st.scored, ¬Under i ((List.range r).map st.given) c) :
    (tryElement pred cf sharedMarks el i r branch child rest st =
        tryElement pred cf branchMarks el i r branch child' rest st ∧
      AllHarmless (tryElement pred cf branchMarks el i r branch child' rest st)) ∨
    ∃ c ∈ (tryElement pred cf branchMarks el i r branch child' rest st).scored,
      c ∉ (tryElement pred cf sharedMarks el i r branch child rest st).scored ∧
        Under i ((List.range r).map st.given) c := by
  have hat : At i r branch ((List.range r).map st.given) pp ⟨st, false, false, []⟩ :=
    ⟨⟨h, hfilled⟩, rfl, hpp⟩
  have hstart : Sync i ((List.range r).map st.given) cf.elementNum pp (fun _ => False)
      ⟨st, false, false, []⟩ ⟨st, false, false, []⟩ := by
    refine Or.inl ⟨rfl, hok, fun c hc => ⟨fun hskips => ?_, fun e hgives => ?_⟩, by simp⟩
    · exact absurd hskips.of_skip (hfresh c hc)
    · exact hfresh c hc hgives.under
  unfold tryElement
  split
  · exact (skip_sync hpair hat hat hstart).result
  · obtain ⟨K, hloop⟩ := caseLoop_sync hpred hpair hinj honce hat hat hstart rest
      fun _ _ _ _ _ => not_false
    have hatA := caseLoop_at hpred sharedMarks_sound hpair.keeps hat cf el rest
    have hatB := caseLoop_at hpred branchMarks_sound hpair.keeps' hat cf el rest
    dsimp only
    rcases hloop with ⟨heq, htogether⟩ | hlost
    · rw [heq]
      split
      · exact (htogether.skip hpair.keeps' hpair.part hatB).result
      · exact Or.inl ⟨rfl, htogether.harmless⟩
    · simp only [← apply_ite CallState.st]
      exact Or.inr (hlost.skipIf hpair hatA hatB _ _).result

end Pair

end Call

theorem search_part (hpred : pred.cfType = .pred) {pp : Nat → Int}
    (hinj : ∀ e < cf.elementNum, ∀ e' < cf.elementNum, pp e = pp e' → e = e')
    (rest : List TcfArg)
    (honce : ∀ el ∈ rest, el.cases.Pairwise fun x y => ∀ e < cf.elementNum,
      suits pred el x (pp e) = true → ¬suits pred el y (pp e) = true) (i : Nat) :
    ChildrenPart i pp (search pred cf sharedMarks rest i) (search pred cf branchMarks rest i) := by
  induction rest generalizing i with
  | nil => exact fun _ _ _ _ _ hok _ => Or.inl ⟨rfl, hok⟩
  | cons el rest ih =>
    intro r branch st h hpp hok hfresh
    have hpair : ChildPair pred (i + 1 + rest.length) (i + 1) pp
        (search pred cf sharedMarks rest (i + 1)) (search pred cf branchMarks rest (i + 1)) :=
      ⟨fun _ _ _ hst => search_kept sharedMarks_sound rest hst rfl,
        fun _ _ _ hst => search_kept branchMarks_sound rest hst rfl, search_grown rest (i + 1),
        ih (fun el hel => honce el (List.mem_cons_of_mem _ hel)) (i + 1)⟩
    exact tryElement_part hpred hpair hinj (honce el List.mem_cons_self) (h.refill cf)
      (h.filled_refill cf) hpp hok hfresh

/-! ## The search space -/

/-- The scored correspondences are those of the reference, and each is one. -/
structure ExploresExactly (pred : AnaphoraPred) (cf : CaseFrame) (st : CtmState) : Prop where
  scored_iff : ∀ c, c ∈ (caseAnalysisForAnaphora pred cf st).scored ↔
    c ∈ (referenceSearch pred cf st).scored
  isCorrespondence : ∀ c ∈ (caseAnalysisForAnaphora pred cf st).scored,
    IsCorrespondence pred.elems.length c

/-- The slots of a predicate's frame have different cases, and a slot suits at most one case of an
element: it is tested for the element once. -/
structure TestedOnce (pred : AnaphoraPred) (cf : CaseFrame) (pp : Nat → Int) : Prop where
  isPred : pred.cfType = .pred
  slots_inj : ∀ e < cf.elementNum, ∀ e' < cf.elementNum, pp e = pp e' → e = e'
  once : ∀ el ∈ pred.elems, el.cases.Pairwise fun x y => ∀ e < cf.elementNum,
    suits pred el x (pp e) = true → ¬suits pred el y (pp e) = true

theorem exploresExactly_of_harmless {st : CtmState}
    (htests : AllHarmless (referenceSearch pred cf st)) : ExploresExactly pred cf st := by
  have heq : caseAnalysisForAnaphora pred cf st = referenceSearch pred cf st :=
    search_agree pred.elems (OnBranch.init st.start) htests
  have hkept : BranchKept pred pred.elems.length 0 0 [] st.start
      (caseAnalysisForAnaphora pred cf st) :=
    search_kept sharedMarks_sound pred.elems (OnBranch.init st.start) (Nat.zero_add _).symm
  obtain ⟨l, hl, hcorrespond⟩ := hkept.scored
  refine ⟨fun c => by rw [heq], fun c hc => (hcorrespond c ?_).1⟩
  rw [hl] at hc
  exact hc

theorem harmless_of_exploresExactly {st : CtmState} (honce : TestedOnce pred cf st.pp)
    (h : ExploresExactly pred cf st) : AllHarmless (referenceSearch pred cf st) := by
  have hpart := search_part honce.isPred honce.slots_inj pred.elems honce.once 0 0 [] st.start
    (OnBranch.init st.start) rfl (fun t ht => nomatch ht) (fun c hc => nomatch hc)
  rcases hpart with ⟨-, hok⟩ | ⟨c, hc, hlost, -⟩
  · exact hok
  · exact absurd ((h.scored_iff c).mpr hc) hlost

/-- If the tests of the reference search are harmless, the search explores its space; and only then,
where each slot is tested once for an element. -/
theorem caseAnalysisForAnaphora_explores (pred : AnaphoraPred) (cf : CaseFrame) (st : CtmState) :
    (AllHarmless (referenceSearch pred cf st) → ExploresExactly pred cf st) ∧
      (TestedOnce pred cf st.pp →
        (ExploresExactly pred cf st ↔ AllHarmless (referenceSearch pred cf st))) :=
  ⟨exploresExactly_of_harmless, fun honce =>
    ⟨harmless_of_exploresExactly honce, exploresExactly_of_harmless⟩⟩

/-- An argument of the main verb with the cases `cs`. -/
def argWith (cs : List Int) : TcfArg := ⟨0, 0, [], 0, false, 0, 0, cs, cs⟩

/-- A frame without similar cases, with the slots ガ and ヲ. -/
def gaWo : CaseFrame where
  elementNum := 2
  adjacent _ := false
  pp e := [(e : Int) + 1]
  sp _ := 0
  weight _ := 0
  samecase := []

def gaWoState : CtmState := ⟨gaWo.slotCase, fun _ => false, fun _ => ⟨0, 0, 0, 0, 'C', 0⟩,
  fun _ => 0, [], []⟩

theorem wo_explored : ExploresExactly ⟨.pred, [argWith [2]], [], false⟩ gaWo gaWoState ∧
    (ExploresExactly ⟨.pred, [argWith [2]], [], false⟩ gaWo gaWoState ↔
      AllHarmless (referenceSearch ⟨.pred, [argWith [2]], [], false⟩ gaWo gaWoState)) :=
  ⟨(caseAnalysisForAnaphora_explores _ _ _).1 (by decide),
    (caseAnalysisForAnaphora_explores _ _ _).2 ⟨rfl, by decide, by decide⟩⟩

/-- The first of two elements may be ガ or ヲ, the second is ヲ. When the first one is tried as ヲ,
the slot is still marked for the second, and the correspondence is not scored in which the
first has it. -/
theorem gaWo_not_explored :
    ¬∀ (pred : AnaphoraPred) (cf : CaseFrame) (st : CtmState), cf.samecasePairs = [] →
      ExploresExactly pred cf st := by
  intro h
  have hiff := (h ⟨.pred, [argWith [1, 2], argWith [2]], [], false⟩ gaWo gaWoState rfl).scored_iff
    ⟨[⟨0, 1, 0, 0, 'C', 0⟩], [1]⟩
  exact absurd (hiff.mpr (by decide)) (by decide)

end Knp
