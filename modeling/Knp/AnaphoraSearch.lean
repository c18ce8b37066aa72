import Knp.AnaphoraBranch
import Knp.StepRun

/-!
# Where the two searches do the same

The marks that are left from a deeper branch make a difference where a slot is tested that
the correspondence scored last uses and the branch does not: the code takes it for
filled. As long as all tests of the reference search are harmless in this sense, the two
searches go through the same states.
-/

namespace Knp

/-- What the element does does not depend on whether the slot counts as filled: it is a slot of
the branch, or else it is not given to the element anyway, and no skip is due to that. -/
def SlotTest.Harmless (t : SlotTest) : Prop :=
  t.marked = true → t.slot ∈ t.branch ∨ (if t.caseTaken then t.skipped else t.nonCase) = true

instance (t : SlotTest) : Decidable t.Harmless := inferInstanceAs (Decidable (_ → _))

/-- The tests made so far are harmless. -/
def AllHarmless (st : CtmState) : Prop := ∀ t ∈ st.tests, t.Harmless

instance (st : CtmState) : Decidable (AllHarmless st) :=
  inferInstanceAs (Decidable (∀ t ∈ st.tests, t.Harmless))

/-- The marks of the shared array, and the slots of the branch. -/
abbrev sharedMarks (st : CtmState) (_ : List Nat) (e : Nat) : Bool := st.filled e

abbrev branchMarks (_ : CtmState) (branch : List Nat) (e : Nat) : Bool := branch.contains e

theorem sharedMarks_sound : SoundMarks sharedMarks := fun _ _ e hmarked hfree hmem =>
  absurd (hmarked e hmem) (by simp [hfree])

theorem branchMarks_sound : SoundMarks branchMarks := fun _ branch e _ hfree hmem => by
  have hcontains : branch.contains e = true := List.contains_iff_mem.mpr hmem
  exact absurd (hcontains.symm.trans hfree) (by simp)

theorem BranchKept.allHarmless {pred : AnaphoraPred} {n i r : Nat} {branch : List Nat} {st st' : CtmState}
    (h : BranchKept pred n i r branch st st') (hok : AllHarmless st') : AllHarmless st :=
  fun t ht => hok t (h.tests t ht)

section Call

variable {pred : AnaphoraPred} {cf : CaseFrame} {el : TcfArg} {rest : List TcfArg}
variable {n i r : Nat} {branch : List Nat} {st : CtmState} {ns : CallState}
variable {child child' : Nat → List Nat → CtmState → CtmState}

/-- The calls for the next element agree if all tests are harmless. -/
def ChildrenAgree (i : Nat) (child child' : Nat → List Nat → CtmState → CtmState) : Prop :=
  ∀ r branch st, OnBranch i r branch st → AllHarmless (child' r branch st) →
    child r branch st = child' r branch st

theorem skipElement_agree (hagree : ChildrenAgree (i + 1) child child') (h : Live i r branch ns)
    (hok : AllHarmless (skipElement i r branch child' ns).st) :
    skipElement i r branch child ns = skipElement i r branch child' ns := by
  unfold skipElement at hok ⊢
  split
  · rfl
  · next hskip =>
      rw [if_neg hskip] at hok
      rw [hagree r branch _ h.1.skip hok]

theorem assignSlot_agree (hagree : ChildrenAgree (i + 1) child child') (h : Live i r branch ns)
    {e : Nat} (he : e ∉ branch)
    (hok : AllHarmless (assignSlot pred el i r branch child' e ns).st) :
    assignSlot pred el i r branch child e ns = assignSlot pred el i r branch child' e ns := by
  unfold assignSlot at hok ⊢
  dsimp only at hok ⊢
  rw [hagree (r + 1) (branch ++ [e]) _ (h.1.assign he rfl rfl _) hok]

/-- Where the marks agree, and where they do not but the test is harmless. -/
theorem trySuited_agree (hagree : ChildrenAgree (i + 1) child child') (h : Live i r branch ns)
    (e : Nat) (ht : (slotTest el branch ns e).Harmless)
    (hok : AllHarmless (trySuited pred branchMarks el i r branch child' ns e).st) :
    trySuited pred sharedMarks el i r branch child ns e =
      trySuited pred branchMarks el i r branch child' ns e := by
  unfold trySuited at hok ⊢
  by_cases hmem : e ∈ branch
  · have hcontains : branch.contains e = true := List.contains_iff_mem.mpr hmem
    simp only [sharedMarks, branchMarks, h.2 e hmem, hcontains, if_true] at hok ⊢
    exact skipElement_agree hagree h hok
  · have hcontains : branch.contains e = false := by simpa using hmem
    simp only [sharedMarks, branchMarks, hcontains, Bool.false_eq_true, if_false] at hok ⊢
    by_cases hmarked : ns.st.filled e = true
    · -- the slot is taken for filled
      rw [if_pos hmarked]
      have hcase := (ht hmarked).resolve_left hmem
      by_cases htaken : ns.st.pp e ∈ ns.assignedCase
      · have hskipped : ns.skipFlag = true := by
          simpa [slotTest, htaken] using hcase
        simp [skipElement, htaken, hskipped]
      · have hnon : hasFeature el.f "非格要素" = true := by
          simpa [slotTest, htaken] using hcase
        rw [if_neg htaken, if_pos hnon] at hok ⊢
        exact skipElement_agree hagree h hok
    · rw [if_neg hmarked]
      split
      · rfl
      · next htaken =>
          rw [if_neg htaken] at hok
          split
          · next hnon =>
              rw [if_pos hnon] at hok
              exact skipElement_agree hagree h hok
          · next hnon =>
              rw [if_neg hnon] at hok
              exact assignSlot_agree hagree h hmem hok

theorem trySlotFor_agree (hchild : ChildKeeps pred n (i + 1) child')
    (hagree : ChildrenAgree (i + 1) child child') (h : Live i r branch ns) (c : Int) (e : Nat)
    (hok : AllHarmless (trySlotFor pred branchMarks el i r branch child' c ns e).st) :
    trySlotFor pred sharedMarks el i r branch child c ns e =
      trySlotFor pred branchMarks el i r branch child' c ns e := by
  unfold trySlotFor at hok ⊢
  split
  · rfl
  · next hread =>
      rw [if_neg hread] at hok
      split
      · next hsuits =>
          rw [if_pos hsuits] at hok
          have hnote := noteTest_kept pred n h (slotTest el branch ns e)
          have hlive := h.kept hnote
          have hnoted := (trySuited_kept branchMarks_sound hchild hlive e).allHarmless hok
          have htest : (slotTest el branch ns e).Harmless :=
            hnoted _ (List.mem_append_right _ (List.mem_singleton_self _))
          exact trySuited_agree hagree hlive e htest hok
      · rfl

theorem tryCaseOf_agree (hchild : ChildKeeps pred n (i + 1) child')
    (hagree : ChildrenAgree (i + 1) child child') (h : Live i r branch ns) (c : Int)
    (hok : AllHarmless (tryCaseOf pred cf branchMarks el i r branch child' rest ns c).st) :
    tryCaseOf pred cf sharedMarks el i r branch child rest ns c =
      tryCaseOf pred cf branchMarks el i r branch child' rest ns c := by
  have hskipIf : ∀ (ns : CallState) (p : Prop) [Decidable p], Live i r branch ns →
      AllHarmless (if p then skipElement i r branch child' ns else ns).st →
      (if p then skipElement i r branch child ns else ns) =
        if p then skipElement i r branch child' ns else ns := by
    intro ns p _ hns hok
    split
    · next hp =>
        rw [if_pos hp] at hok
        exact skipElement_agree hagree hns hok
    · rfl
  have h₁ := skipIf_kept hchild h (c = ppStar ∨ el.toCf > 0)
  have hlive₁ := h.kept h₁
  have h₂ := skipIf_kept hchild hlive₁ (rest.any fun k => k.ownCases.any fun c' => c = c')
  have hlive₂ := hlive₁.kept h₂
  have hloop := foldl_kept (f := trySlotFor pred branchMarks el i r branch child' c)
    (l := List.range cf.elementNum)
    (fun ns e hns => trySlotFor_kept branchMarks_sound hchild hns c e) hlive₂
  have hok₂ := hloop.allHarmless hok
  have hok₁ := h₂.allHarmless hok₂
  unfold tryCaseOf
  dsimp only
  rw [hskipIf ns _ h hok₁, hskipIf _ _ hlive₁ hok₂]
  exact StepRun.foldl_congr_of_mono (I := Live i r branch) (Q := fun ns => AllHarmless ns.st)
    (fun ns e hns => hns.kept (trySlotFor_kept branchMarks_sound hchild hns c e))
    (fun ns e hns => (trySlotFor_kept branchMarks_sound hchild hns c e).allHarmless)
    (fun ns e hns => trySlotFor_agree hchild hagree hns c e) hlive₂ hok

theorem tryElement_agree (hchild : ChildKeeps pred n (i + 1) child')
    (hagree : ChildrenAgree (i + 1) child child') (h : OnBranch i r branch st)
    (hfilled : ∀ e ∈ branch, st.filled e = true)
    (hok : AllHarmless (tryElement pred cf branchMarks el i r branch child' rest st)) :
    tryElement pred cf sharedMarks el i r branch child rest st =
      tryElement pred cf branchMarks el i r branch child' rest st := by
  have hlive : Live i r branch ⟨st, false, false, []⟩ := ⟨h, hfilled⟩
  unfold tryElement at hok ⊢
  split
  · next hpred =>
      rw [if_pos hpred] at hok
      exact congrArg CallState.st (skipElement_agree hagree hlive hok)
  · next hpred =>
      rw [if_neg hpred] at hok
      have hkept : ∀ ns c, Live i r branch ns → BranchKept pred n i r branch ns.st
          (tryCaseOf pred cf branchMarks el i r branch child' rest ns c).st := fun ns c hns =>
        tryCaseOf_kept branchMarks_sound hchild hns rest c
      have hloop := foldl_kept (l := el.cases) hkept hlive
      dsimp only at hok ⊢
      have hloopOk : AllHarmless
          (el.cases.foldl (tryCaseOf pred cf branchMarks el i r branch child' rest)
            ⟨st, false, false, []⟩).st := by
        split at hok
        · exact (skipElement_kept hchild (hlive.kept hloop)).allHarmless hok
        · exact hok
      have hfold := StepRun.foldl_congr_of_mono (I := Live i r branch)
        (Q := fun ns => AllHarmless ns.st) (fun ns c hns => hns.kept (hkept ns c hns))
        (fun ns c hns => (hkept ns c hns).allHarmless)
        (fun ns c hns => tryCaseOf_agree hchild hagree hns c) hlive hloopOk
      rw [hfold]
      split
      · next hnone =>
          rw [if_pos hnone] at hok
          exact congrArg CallState.st (skipElement_agree hagree (hlive.kept hloop) hok)
      · rfl

end Call

theorem search_agree {pred : AnaphoraPred} {cf : CaseFrame} (rest : List TcfArg) {i r : Nat}
    {branch : List Nat} {st : CtmState} (h : OnBranch i r branch st)
    (hok : AllHarmless (search pred cf branchMarks rest i r branch st)) :
    search pred cf sharedMarks rest i r branch st =
      search pred cf branchMarks rest i r branch st := by
  induction rest generalizing i r branch st with
  | nil => rfl
  | cons el rest ih =>
    exact tryElement_agree (n := i + 1 + rest.length)
      (fun r' branch' st' hst' => search_kept branchMarks_sound rest hst' rfl)
      (fun r' branch' st' hst' hok' => ih hst' hok') (h.refill cf) (h.filled_refill cf) hok

end Knp
