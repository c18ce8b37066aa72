import Knp.AnaphoraCase

/-!
# What a call of the search leaves unchanged

A call writes the shared arrays only behind the entries of its branch, and the marks it
leaves include the slots of the branch. A slot whose test finds it free is therefore not
a slot of the branch, and what is scored is a correspondence.
-/

namespace Knp

/-- No slot is used twice, and the elements without a slot are listed in order. -/
structure IsCorrespondence (n : Nat) (c : Correspondence) : Prop where
  nodup : (c.given.map CaseAssign.cfElementNum).Nodup
  nonMatch_eq : c.nonMatch =
    (List.range n).filter fun k => k ∉ c.given.map CaseAssign.tcfElementNum

/-- The arrays hold the branch: `i` elements are checked, and `r` of them have the slots `branch`. -/
structure OnBranch (i r : Nat) (branch : List Nat) (st : CtmState) : Prop where
  le : r ≤ i
  slots_eq : ((List.range r).map st.given).map CaseAssign.cfElementNum = branch
  nodup : branch.Nodup
  elem_lt : ∀ j < r, (st.given j).tcfElementNum < i
  nonMatch_eq : (List.range (i - r)).map st.nonMatch = (List.range i).filter fun k =>
    k ∉ ((List.range r).map st.given).map CaseAssign.tcfElementNum

/-- The correspondence extends `pre`, with slots for elements from the `i`th on. -/
def Under (i : Nat) (pre : List CaseAssign) (c : Correspondence) : Prop :=
  ∃ l, c.given = pre ++ l ∧ ∀ a ∈ l, i ≤ a.tcfElementNum

/-- What a call may have done to the shared state. -/
structure BranchKept (pred : AnaphoraPred) (n i r : Nat) (branch : List Nat) (st st' : CtmState) :
    Prop where
  given_eq : ∀ j < r, st'.given j = st.given j
  nonMatch_eq : ∀ j < i - r, st'.nonMatch j = st.nonMatch j
  filled : ∀ e ∈ branch, st'.filled e = true
  scored : ∃ l, st'.scored = st.scored ++ l ∧
    ∀ c ∈ l, IsCorrespondence n c ∧ Under i ((List.range r).map st.given) c
  tests : ∀ t ∈ st.tests, t ∈ st'.tests
  pp_eq : pred.cfType = .pred → st'.pp = st.pp

variable {pred : AnaphoraPred} {cf : CaseFrame} {marks : CtmState → List Nat → Nat → Bool}
variable {n i r : Nat} {branch : List Nat} {st st' st'' : CtmState}

theorem OnBranch.init (st : CtmState) : OnBranch 0 0 [] st :=
  ⟨le_rfl, rfl, List.nodup_nil, fun _ h => absurd h (Nat.not_lt_zero _), rfl⟩

theorem map_range_congr {α : Type*} {f g : Nat → α} {m : Nat} (h : ∀ j < m, f j = g j) :
    (List.range m).map f = (List.range m).map g :=
  List.map_congr_left fun j hj => h j (List.mem_range.mp hj)

theorem OnBranch.congr (h : OnBranch i r branch st) (hgiven : ∀ j < r, st'.given j = st.given j)
    (hnonMatch : ∀ j < i - r, st'.nonMatch j = st.nonMatch j) : OnBranch i r branch st' := by
  have hmap := map_range_congr hgiven
  refine ⟨h.le, hmap ▸ h.slots_eq, h.nodup, fun j hj => hgiven j hj ▸ h.elem_lt j hj, ?_⟩
  rw [map_range_congr hnonMatch, hmap]
  exact h.nonMatch_eq

theorem BranchKept.refl (hfilled : ∀ e ∈ branch, st.filled e = true) :
    BranchKept pred n i r branch st st :=
  ⟨fun _ _ => rfl, fun _ _ => rfl, hfilled, ⟨[], by simp, by simp⟩, fun _ ht => ht, fun _ => rfl⟩

theorem BranchKept.trans (h : BranchKept pred n i r branch st st')
    (h' : BranchKept pred n i r branch st' st'') : BranchKept pred n i r branch st st'' where
  given_eq j hj := (h'.given_eq j hj).trans (h.given_eq j hj)
  nonMatch_eq j hj := (h'.nonMatch_eq j hj).trans (h.nonMatch_eq j hj)
  filled := h'.filled
  scored := by
    obtain ⟨l, heq, hl⟩ := h.scored
    obtain ⟨l', heq', hl'⟩ := h'.scored
    refine ⟨l ++ l', by rw [heq', heq, List.append_assoc], fun c hc => ?_⟩
    rcases List.mem_append.mp hc with hc | hc
    · exact hl c hc
    · exact ⟨(hl' c hc).1, map_range_congr h.given_eq ▸ (hl' c hc).2⟩
  tests t ht := h'.tests t (h.tests t ht)
  pp_eq hpred := (h'.pp_eq hpred).trans (h.pp_eq hpred)

theorem BranchKept.onBranch (h : BranchKept pred n i r branch st st')
    (hst : OnBranch i r branch st) : OnBranch i r branch st' :=
  hst.congr h.given_eq h.nonMatch_eq

theorem OnBranch.refill (h : OnBranch i r branch st) (cf : CaseFrame) :
    OnBranch i r branch (refill cf r st) :=
  h.congr (fun _ _ => rfl) fun _ _ => rfl

theorem OnBranch.filled_refill (h : OnBranch i r branch st) (cf : CaseFrame) :
    ∀ e ∈ branch, (Knp.refill cf r st).filled e = true := by
  intro e he
  rw [← h.slots_eq, List.map_map] at he
  exact filledElement_iff.mpr (Or.inl he)

variable (pred n) in
theorem OnBranch.kept_refill (h : OnBranch i r branch st) (cf : CaseFrame) :
    BranchKept pred n i r branch st (Knp.refill cf r st) :=
  ⟨fun _ _ => rfl, fun _ _ => rfl, h.filled_refill cf, ⟨[], by simp [Knp.refill], by simp⟩,
    fun _ ht => ht, fun _ => rfl⟩

/-- The next element has no slot. -/
theorem OnBranch.skip (h : OnBranch i r branch st) :
    OnBranch (i + 1) r branch { st with nonMatch := Function.update st.nonMatch (i - r) i } := by
  refine ⟨h.le.trans (Nat.le_succ i), h.slots_eq, h.nodup, fun j hj =>
    (h.elem_lt j hj).trans (Nat.lt_succ_self i), ?_⟩
  have hi : i ∉ ((List.range r).map st.given).map CaseAssign.tcfElementNum := by
    intro hmem
    obtain ⟨a, ha, hai⟩ := List.mem_map.mp hmem
    obtain ⟨j, hj, rfl⟩ := List.mem_map.mp ha
    exact absurd hai (h.elem_lt j (List.mem_range.mp hj)).ne
  have hold : (List.range (i - r)).map (Function.update st.nonMatch (i - r) i) =
      (List.range (i - r)).map st.nonMatch :=
    map_range_congr fun j hj => Function.update_of_ne hj.ne _ _
  have hlast : [i].filter (fun k =>
      k ∉ ((List.range r).map st.given).map CaseAssign.tcfElementNum) = [i] :=
    List.filter_eq_self.mpr fun k hk => decide_eq_true (List.mem_singleton.mp hk ▸ hi)
  rw [Nat.succ_sub h.le, List.range_succ, List.range_succ, List.map_append, hold, h.nonMatch_eq,
    List.filter_append, hlast, List.map_singleton]
  simp

theorem map_given_assign (st : CtmState) (r : Nat) (a : CaseAssign) :
    (List.range (r + 1)).map (Function.update st.given r a) = (List.range r).map st.given ++ [a] := by
  have hold : (List.range r).map (Function.update st.given r a) = (List.range r).map st.given :=
    map_range_congr fun j hj => Function.update_of_ne hj.ne _ _
  rw [List.range_succ, List.map_append, hold, List.map_singleton, Function.update_self]

/-- The next element has the slot `e`. -/
theorem OnBranch.assign (h : OnBranch i r branch st) {e : Nat} (he : e ∉ branch) {a : CaseAssign}
    (hslot : a.cfElementNum = e) (helem : a.tcfElementNum = i) (pp : Nat → Int) :
    OnBranch (i + 1) (r + 1) (branch ++ [e])
      { st with pp, given := Function.update st.given r a } := by
  have hgiven := map_given_assign st r a
  refine ⟨Nat.succ_le_succ h.le, ?_, ?_, fun j hj => ?_, ?_⟩
  · rw [hgiven, List.map_append, h.slots_eq, List.map_singleton, hslot]
  · exact List.nodup_append.mpr ⟨h.nodup, List.nodup_singleton e, fun x hx y hy heq =>
      he (List.mem_singleton.mp hy ▸ heq ▸ hx)⟩
  · by_cases hjr : j = r
    · simp [hjr, helem]
    · have hlt := h.elem_lt j (by omega)
      simp only [Function.update_of_ne hjr]
      omega
  · rw [hgiven, Nat.add_sub_add_right, h.nonMatch_eq, List.map_append, List.map_singleton, helem,
      List.range_succ, List.filter_append]
    have hlast : [i].filter (fun k =>
        k ∉ ((List.range r).map st.given).map CaseAssign.tcfElementNum ++ [i]) = [] := by simp
    rw [hlast, List.append_nil]
    refine List.filter_congr fun k hk => ?_
    have hne : k ≠ i := (List.mem_range.mp hk).ne
    simp [hne]

/-! ## One call -/

section Call

variable {el : TcfArg} {child : Nat → List Nat → CtmState → CtmState} {ns : CallState}

/-- What the call for the next element is assumed to keep. -/
def ChildKeeps (pred : AnaphoraPred) (n i : Nat) (child : Nat → List Nat → CtmState → CtmState) :
    Prop :=
  ∀ r branch st, OnBranch i r branch st → BranchKept pred n i r branch st (child r branch st)

theorem Under.of_skip {pre : List CaseAssign} {c : Correspondence} (h : Under (i + 1) pre c) :
    Under i pre c := by
  obtain ⟨l, heq, hl⟩ := h
  exact ⟨l, heq, fun a ha => (Nat.le_succ i).trans (hl a ha)⟩

theorem Under.of_assign {pre : List CaseAssign} {c : Correspondence} {a : CaseAssign}
    (h : Under (i + 1) (pre ++ [a]) c) (helem : a.tcfElementNum = i) : Under i pre c := by
  obtain ⟨l, heq, hl⟩ := h
  refine ⟨a :: l, by rw [heq, List.append_assoc]; rfl, fun x hx => ?_⟩
  rcases List.mem_cons.mp hx with rfl | hx
  · exact helem.ge
  · exact (Nat.le_succ i).trans (hl x hx)

theorem BranchKept.of_skip {s : CtmState} (h : BranchKept pred n (i + 1) r branch
    { st with nonMatch := Function.update st.nonMatch (i - r) i } s) :
    BranchKept pred n i r branch st s where
  given_eq := h.given_eq
  nonMatch_eq j hj := (h.nonMatch_eq j (by omega)).trans (Function.update_of_ne hj.ne _ _)
  filled := h.filled
  scored := by
    obtain ⟨l, heq, hl⟩ := h.scored
    exact ⟨l, heq, fun c hc => ⟨(hl c hc).1, (hl c hc).2.of_skip⟩⟩
  tests := h.tests
  pp_eq := h.pp_eq

theorem BranchKept.of_assign {s : CtmState} {e : Nat} {a : CaseAssign} {pp : Nat → Int}
    (helem : a.tcfElementNum = i) (hpp : pred.cfType = .pred → pp = st.pp)
    (h : BranchKept pred n (i + 1) (r + 1) (branch ++ [e])
      { st with pp, given := Function.update st.given r a } s) :
    BranchKept pred n i r branch st s where
  given_eq j hj := (h.given_eq j (by omega)).trans (Function.update_of_ne hj.ne _ _)
  nonMatch_eq j hj := h.nonMatch_eq j (by omega)
  filled x hx := h.filled x (List.mem_append_left _ hx)
  scored := by
    obtain ⟨l, heq, hl⟩ := h.scored
    refine ⟨l, heq, fun c hc => ⟨(hl c hc).1, Under.of_assign ?_ helem⟩⟩
    exact map_given_assign st r a ▸ (hl c hc).2
  tests := h.tests
  pp_eq hpred := (h.pp_eq hpred).trans (hpp hpred)

/-- The state of a call: on the branch, with the branch's slots marked. -/
def Live (i r : Nat) (branch : List Nat) (ns : CallState) : Prop :=
  OnBranch i r branch ns.st ∧ ∀ e ∈ branch, ns.st.filled e = true

theorem Live.kept {ns' : CallState} (h : Live i r branch ns)
    (hk : BranchKept pred n i r branch ns.st ns'.st) : Live i r branch ns' :=
  ⟨hk.onBranch h.1, hk.filled⟩

theorem skipElement_kept (hchild : ChildKeeps pred n (i + 1) child) (h : Live i r branch ns) :
    BranchKept pred n i r branch ns.st (skipElement i r branch child ns).st := by
  unfold skipElement
  split
  · exact BranchKept.refl h.2
  · exact BranchKept.of_skip (hchild r branch _ h.1.skip)

theorem assignSlot_kept (hchild : ChildKeeps pred n (i + 1) child) (h : Live i r branch ns) {e : Nat}
    (he : e ∉ branch) :
    BranchKept pred n i r branch ns.st (assignSlot pred el i r branch child e ns).st :=
  BranchKept.of_assign rfl (fun hpred => by simp [hpred])
    (hchild (r + 1) (branch ++ [e]) _ (h.1.assign he rfl rfl _))

/-- A slot that is not marked is none of the branch. -/
def SoundMarks (marks : CtmState → List Nat → Nat → Bool) : Prop :=
  ∀ st branch e, (∀ x ∈ branch, st.filled x = true) → marks st branch e = false → e ∉ branch

theorem trySuited_kept (hmarks : SoundMarks marks) (hchild : ChildKeeps pred n (i + 1) child)
    (h : Live i r branch ns) (e : Nat) :
    BranchKept pred n i r branch ns.st (trySuited pred marks el i r branch child ns e).st := by
  unfold trySuited
  split
  · exact skipElement_kept hchild h
  · next hfree =>
      split
      · exact BranchKept.refl h.2
      · split
        · exact skipElement_kept hchild h
        · exact assignSlot_kept hchild h
            (hmarks ns.st branch e h.2 (Bool.eq_false_of_not_eq_true hfree))

variable (pred n) in
theorem noteTest_kept (h : Live i r branch ns) (t : SlotTest) :
    BranchKept pred n i r branch ns.st (noteTest t ns).st :=
  ⟨fun _ _ => rfl, fun _ _ => rfl, h.2, ⟨[], by simp [noteTest], by simp⟩,
    fun _ ht => List.mem_append_left _ ht, fun _ => rfl⟩

theorem trySlotFor_kept (hmarks : SoundMarks marks) (hchild : ChildKeeps pred n (i + 1) child)
    (h : Live i r branch ns) (c : Int) (e : Nat) :
    BranchKept pred n i r branch ns.st (trySlotFor pred marks el i r branch child c ns e).st := by
  unfold trySlotFor
  split
  · exact BranchKept.refl h.2
  · split
    · have hnote := noteTest_kept pred n h (slotTest el branch ns e)
      exact hnote.trans (trySuited_kept hmarks hchild (h.kept hnote) e)
    · exact BranchKept.refl h.2

/-- What every turn keeps, a loop keeps. -/
theorem foldl_kept {ι : Type*} {f : CallState → ι → CallState} {l : List ι}
    (hf : ∀ ns x, Live i r branch ns → BranchKept pred n i r branch ns.st (f ns x).st)
    (h : Live i r branch ns) : BranchKept pred n i r branch ns.st (l.foldl f ns).st := by
  induction l generalizing ns with
  | nil => exact BranchKept.refl h.2
  | cons x l ih => exact (hf ns x h).trans (ih (h.kept (hf ns x h)))

theorem skipIf_kept (hchild : ChildKeeps pred n (i + 1) child) (h : Live i r branch ns) (p : Prop)
    [Decidable p] :
    BranchKept pred n i r branch ns.st (if p then skipElement i r branch child ns else ns).st := by
  split
  · exact skipElement_kept hchild h
  · exact BranchKept.refl h.2

theorem tryCaseOf_kept (hmarks : SoundMarks marks) (hchild : ChildKeeps pred n (i + 1) child)
    (h : Live i r branch ns) (rest : List TcfArg) (c : Int) :
    BranchKept pred n i r branch ns.st (tryCaseOf pred cf marks el i r branch child rest ns c).st := by
  have h₁ := skipIf_kept hchild h (c = ppStar ∨ el.toCf > 0)
  have h₂ := skipIf_kept hchild (h.kept h₁) (rest.any fun k => k.ownCases.any fun c' => c = c')
  exact (h₁.trans h₂).trans (foldl_kept (fun ns e hns => trySlotFor_kept hmarks hchild hns c e)
    ((h.kept h₁).kept h₂))

theorem tryElement_kept (hmarks : SoundMarks marks) (hchild : ChildKeeps pred n (i + 1) child)
    (h : OnBranch i r branch st) (hfilled : ∀ e ∈ branch, st.filled e = true)
    (rest : List TcfArg) :
    BranchKept pred n i r branch st (tryElement pred cf marks el i r branch child rest st) := by
  have hlive : Live i r branch ⟨st, false, false, []⟩ := ⟨h, hfilled⟩
  unfold tryElement
  split
  · exact skipElement_kept hchild hlive
  · have hloop := foldl_kept (f := tryCaseOf pred cf marks el i r branch child rest)
      (l := el.cases) (fun ns c hns => tryCaseOf_kept hmarks hchild hns rest c) hlive
    dsimp only
    split
    · exact hloop.trans (skipElement_kept hchild (hlive.kept hloop))
    · exact hloop

end Call

/-- A call keeps the arrays of its branch, and scores correspondences. -/
theorem search_kept (hmarks : SoundMarks marks) (rest : List TcfArg)
    (h : OnBranch i r branch st) (hn : n = i + rest.length) :
    BranchKept pred n i r branch st (search pred cf marks rest i r branch st) := by
  induction rest generalizing i r branch st with
  | nil =>
    obtain rfl : n = i := hn
    have hrefill := h.kept_refill pred n cf
    refine ⟨hrefill.given_eq, hrefill.nonMatch_eq, hrefill.filled, ⟨_, rfl, fun c hc => ?_⟩,
      hrefill.tests, fun _ => rfl⟩
    rw [List.mem_singleton.mp hc]
    exact ⟨⟨h.slots_eq ▸ h.nodup, h.nonMatch_eq⟩, [], (List.append_nil _).symm, by simp⟩
  | cons el rest ih =>
    have hchild : ChildKeeps pred n (i + 1) (search pred cf marks rest (i + 1)) :=
      fun r' branch' st' hst' => ih hst' (by rw [hn, List.length_cons]; omega)
    exact (h.kept_refill pred n cf).trans
      (tryElement_kept hmarks hchild (h.refill cf) (h.filled_refill cf) rest)

end Knp
