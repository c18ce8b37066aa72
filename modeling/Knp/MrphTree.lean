import Mathlib.Tactic.IntervalCases
import Knp.HeadTree
import Knp.MrphDpnd

/-!
# The heads of the morphemes as a tree (`dpnd_analysis.c`)

`dpnd_info_to_mrph` decides from the tag a morpheme is in whether it is linked
to the next morpheme, back to the content morpheme of the tag, or out of the
tag. These decisions are stated on the sentence first; the flags of the loop
agree with them.

> The heads form a tree if the content morpheme comes first wherever a
> morpheme is linked back to it, and no tag is linked to such a morpheme.

Where the content morpheme has not come yet, the source reads the one of an
earlier tag, or a variable that was never set.
-/

namespace Knp

variable (sp : SentenceData) (opt : Bool)

/-! ## What a turn decides -/

/-- A morpheme of tag `t` before morpheme `i` is a `p`. -/
def Seen (p : Nat → Bool) (i t : Nat) : Prop := ∃ j < i, sp.tagOf j = t ∧ p j

instance (p : Nat → Bool) (i t : Nat) : Decidable (Seen sp p i t) :=
  inferInstanceAs (Decidable (∃ j < i, sp.tagOf j = t ∧ p j))

def semanticHead (i : Nat) : Bool := checkSemanticHead sp i (sp.tagOf i)

def outerWord (i : Nat) : Bool :=
  (sp.tag (sp.tagOf i)).dpndHead != -1 && hasFeature (sp.mrph i).f "Ｔ句間要素"

/-- A morpheme that others of its tag are linked back to. -/
def contentHead (i : Nat) : Bool := if opt then semanticHead sp i else checkSyntacticHead sp i

/-- The first semantic head of its tag, with `OptSemanticHead`. -/
def FirstSemantic (i : Nat) : Prop :=
  opt = true ∧ semanticHead sp i = true ∧ ¬ Seen sp (semanticHead sp) i (sp.tagOf i)

/-- Morpheme `i` is linked to the next one. -/
def AttachesNext (i : Nat) : Prop :=
  ¬ Seen sp (checkSyntacticHead sp) (i + 1) (sp.tagOf i) ∧ ¬ FirstSemantic sp opt i ∧
    (opt = true ∧ (¬ Seen sp (semanticHead sp) (i + 1) (sp.tagOf i) ∨
        Seen sp (outerWord sp) (i + 1) (sp.tagOf i)) ∨
      opt = false ∧ isInnerWord sp i = false)

/-- Morpheme `i` is linked back to the content morpheme. -/
def AttachesContent (i : Nat) : Prop :=
  ¬ AttachesNext sp opt i ∧ ¬ Seen sp (outerWord sp) (i + 1) (sp.tagOf i) ∧
    ¬ FirstSemantic sp opt i ∧
    (opt = true ∧ Seen sp (semanticHead sp) (i + 1) (sp.tagOf i) ∧
        ¬ Seen sp (checkSyntacticHead sp) i (sp.tagOf i) ∨
      isInnerWord sp i = true ∨
      (sp.tag (sp.tagOf i)).dpndHead = -1 ∧ Seen sp (checkSyntacticHead sp) i (sp.tagOf i))

instance (i : Nat) : Decidable (FirstSemantic sp opt i) := inferInstanceAs (Decidable (_ ∧ _))

instance (i : Nat) : Decidable (AttachesNext sp opt i) := inferInstanceAs (Decidable (_ ∧ _))

instance (i : Nat) : Decidable (AttachesContent sp opt i) := inferInstanceAs (Decidable (_ ∧ _))

/-- The links back are sound: the content morpheme has been seen, and nothing
but the last tag is entered at a morpheme that is linked back. -/
structure Attachable : Prop where
  content : ∀ i < sp.mrphNum, AttachesContent sp opt i →
    Seen sp (contentHead sp opt) i (sp.tagOf i)
  landing : ∀ t, t + 1 < sp.tagNum → (sp.tag t).dpndHead + 1 < sp.tagNum →
    ¬ AttachesContent sp opt (findHeadMrphFromDpndBnst sp t (sp.tag t).dpndHead.toNat)

variable {sp opt}

section Seen

variable {p : Nat → Bool} {i j t : Nat}

theorem not_seen_zero : ¬ Seen sp p 0 t := fun ⟨_, hj, _⟩ => absurd hj (Nat.not_lt_zero _)

theorem seen_succ : Seen sp p (i + 1) t ↔ Seen sp p i t ∨ sp.tagOf i = t ∧ p i = true := by
  constructor
  · rintro ⟨j, hj, htag, hp⟩
    rcases Nat.lt_succ_iff_lt_or_eq.mp hj with hlt | rfl
    · exact .inl ⟨j, hlt, htag, hp⟩
    · exact .inr ⟨htag, hp⟩
  · rintro (⟨j, hj, htag, hp⟩ | ⟨htag, hp⟩)
    · exact ⟨j, by omega, htag, hp⟩
    · exact ⟨i, by omega, htag, hp⟩

theorem Seen.mono (h : Seen sp p i t) (hij : i ≤ j) : Seen sp p j t := by
  obtain ⟨k, hk, htag, hp⟩ := h
  exact ⟨k, by omega, htag, hp⟩

end Seen

/-- The first content morpheme of a tag is not linked back. -/
theorem not_attachesContent_first (ha : Attachable sp opt) {c : Nat} (hc : c < sp.mrphNum)
    (hfirst : ¬ Seen sp (contentHead sp opt) c (sp.tagOf c)) : ¬ AttachesContent sp opt c :=
  fun h => hfirst (ha.content c hc h)

/-- Where a morpheme is linked to the next or back, it is not the first content
morpheme of its tag. -/
theorem seen_content_of_attaches (ha : Attachable sp opt) {i : Nat} (hi : i < sp.mrphNum)
    (h : AttachesNext sp opt i ∨ AttachesContent sp opt i)
    (hseen : Seen sp (contentHead sp opt) (i + 1) (sp.tagOf i)) :
    Seen sp (contentHead sp opt) i (sp.tagOf i) := by
  rcases seen_succ.mp hseen with hbefore | ⟨-, hcontent⟩
  · exact hbefore
  · rcases h with hnext | hback
    · obtain ⟨hsyn, hsem, -⟩ := hnext
      cases opt with
      | false => exact absurd (seen_succ.mpr (.inr ⟨rfl, hcontent⟩)) hsyn
      | true =>
          by_contra hnot
          exact hsem ⟨rfl, hcontent, hnot⟩
    · exact ha.content i hi hback

/-- The last morpheme of a tag is not linked to the next one. -/
theorem attachesNext_tag (hdiv : sp.Divided) {i : Nat} (hi : i < sp.mrphNum)
    (h : AttachesNext sp opt i) : i + 1 < sp.mrphNum ∧ sp.tagOf (i + 1) = sp.tagOf i := by
  have hinum : (sp.mrph i).inum ≠ 0 := by
    intro hzero
    exact h.1 (seen_succ.mpr (.inr ⟨rfl, by simp [checkSyntacticHead, hzero]⟩))
  have hi' : i + 1 < sp.mrphNum := by
    by_contra hge
    obtain rfl : i = sp.mrphNum - 1 := by omega
    exact hinum hdiv.mrph_inum_last
  refine ⟨hi', ?_⟩
  have hnext := hdiv.mrph_inum i hi'
  split at hnext
  · next hneg => exact Segments.number_succ_of_neg hneg
  · exact absurd hnext hinum

/-- The morpheme behind one that is linked to the next is not linked back. -/
theorem not_attachesContent_next (ha : Attachable sp opt) {i : Nat} (hi : i + 1 < sp.mrphNum)
    (htag : sp.tagOf (i + 1) = sp.tagOf i) (h : AttachesNext sp opt i) :
    ¬ AttachesContent sp opt (i + 1) := by
  intro hback
  have hseen := ha.content (i + 1) hi hback
  obtain ⟨-, houter, -⟩ := hback
  obtain ⟨hsyn, -, hwhy⟩ := h
  rw [htag] at hseen houter
  rcases hwhy with ⟨hopt, hsem | hout⟩ | ⟨hopt, -⟩
  · rw [hopt] at hseen
    exact hsem hseen
  · exact houter (hout.mono (by omega))
  · rw [hopt] at hseen
    exact hsyn hseen

/-! ## The flags of the loop -/

variable (sp opt) in
/-- The flags say what has been seen of the tag. -/
structure Kept (i : Nat) (s : MrphLoop) : Prop where
  semantic : s.appearSemanticHead = true ↔ opt = true ∧ Seen sp (semanticHead sp) i s.lastT
  syntactic : s.appearSyntacticHead = true ↔ Seen sp (checkSyntacticHead sp) i s.lastT
  outer : s.appearOuterWord = true ↔ Seen sp (outerWord sp) i s.lastT
  content : Seen sp (contentHead sp opt) i s.lastT → ∃ c < i, s.lastContentM = c ∧
    sp.tagOf c = s.lastT ∧ contentHead sp opt c = true ∧ ¬ Seen sp (contentHead sp opt) c s.lastT
  ptr : ∀ c, s.lastContentMPtr = some c → c < i ∧ sp.tagOf c = s.lastT ∧ FirstSemantic sp opt c

namespace Kept

variable {i : Nat} {s : MrphLoop}

theorem init (lastContentM : Int) (link : Nat → MrphLink) :
    Kept sp opt 0 (MrphLoop.init lastContentM link) where
  semantic := by simp [MrphLoop.init, not_seen_zero]
  syntactic := by simp [MrphLoop.init, not_seen_zero]
  outer := by simp [MrphLoop.init, not_seen_zero]
  content := fun h => absurd h not_seen_zero
  ptr := fun c h => by simp [MrphLoop.init] at h

theorem enterTag (hdiv : sp.Divided) (hi : i < sp.mrphNum) (hlast : 0 < i → s.lastT = sp.tagOf (i - 1))
    (h : Kept sp opt i s) : Kept sp opt i (s.enterTag sp i) ∧ (s.enterTag sp i).lastT = sp.tagOf i := by
  by_cases hstart : 0 ≤ (sp.mrph i).tnum
  · have htag : (sp.mrph i).tnum.toNat = sp.tagOf i :=
      (Segments.number_of_nonneg (fun i => (sp.mrph i).tnum) hstart).symm
    have hnone : ∀ p, ¬ Seen sp p i (sp.tagOf i) := by
      rintro p ⟨j, hj, hjtag, -⟩
      exact hdiv.mrph.number_ne_of_start hi hstart hj hjtag
    rw [MrphLoop.enterTag, if_pos hstart]
    refine ⟨⟨?_, ?_, ?_, ?_, ?_⟩, htag⟩ <;> simp [htag, hnone]
  · have htag : s.lastT = sp.tagOf i := by
      cases i with
      | zero => exact absurd hdiv.mrph.zero.ge hstart
      | succ i =>
          rw [hlast (Nat.succ_pos i), Nat.add_sub_cancel]
          rcases hdiv.mrph.step i hi with hneg | hnext
          · exact (Segments.number_succ_of_neg hneg).symm
          · omega
    rw [MrphLoop.enterTag, if_neg hstart]
    exact ⟨h, htag⟩

variable (h : Kept sp opt i s) (htag : s.lastT = sp.tagOf i)
include h htag

theorem thisIsSemanticHead_iff : thisIsSemanticHead sp opt i s = true ↔ FirstSemantic sp opt i := by
  have := h.semantic
  simp only [thisIsSemanticHead, FirstSemantic, semanticHead, Bool.and_eq_true, Bool.not_eq_true',
    ← Bool.not_eq_true, htag] at this ⊢
  tauto

theorem thisIsSyntacticHead_iff : thisIsSyntacticHead sp i s = true ↔
    checkSyntacticHead sp i = true ∧ ¬ Seen sp (checkSyntacticHead sp) i (sp.tagOf i) := by
  have := h.syntactic
  simp only [thisIsSyntacticHead, Bool.and_eq_true, Bool.not_eq_true', ← Bool.not_eq_true,
    htag] at this ⊢
  tauto

theorem noteHeads : Kept sp opt (i + 1) (noteHeads sp opt i s) where
  semantic := by
    have hthis := h.thisIsSemanticHead_iff htag
    have hseen := h.semantic
    simp only [Knp.noteHeads, Bool.or_eq_true, hthis, hseen, htag, seen_succ, FirstSemantic]
    tauto
  syntactic := by
    have hthis := h.thisIsSyntacticHead_iff htag
    have hseen := h.syntactic
    simp only [Knp.noteHeads, Bool.or_eq_true, hthis, hseen, htag, seen_succ]
    tauto
  outer := by
    have hseen := h.outer
    simp only [Knp.noteHeads, thisIsOuterWord, Bool.or_eq_true, Bool.and_eq_true,
      Bool.not_eq_true', ← Bool.not_eq_true, hseen, htag, seen_succ, outerWord]
    tauto
  content := by
    intro hseen
    simp only [Knp.noteHeads] at hseen ⊢
    rw [htag] at hseen ⊢
    by_cases hbefore : Seen sp (contentHead sp opt) i (sp.tagOf i)
    · obtain ⟨c, hc, hlast, hctag, hccontent, hfirst⟩ := h.content (htag ▸ hbefore)
      refine ⟨c, by omega, ?_, htag ▸ hctag, hccontent, htag ▸ hfirst⟩
      rw [if_neg ?_, hlast]
      rw [Bool.or_eq_true, h.thisIsSemanticHead_iff htag, Bool.and_eq_true,
        h.thisIsSyntacticHead_iff htag]
      rintro (⟨hopt, -, hnot⟩ | ⟨⟨-, hnot⟩, hopt⟩)
      · rw [hopt] at hbefore
        exact hnot hbefore
      · rw [Bool.not_eq_true'] at hopt
        rw [hopt] at hbefore
        exact hnot hbefore
    · have hcontent := ((seen_succ.mp hseen).resolve_left hbefore).2
      refine ⟨i, by omega, if_pos ?_, rfl, hcontent, hbefore⟩
      rw [Bool.or_eq_true, h.thisIsSemanticHead_iff htag, Bool.and_eq_true,
        h.thisIsSyntacticHead_iff htag]
      cases hopt : opt with
      | true => exact .inl ⟨rfl, by rwa [hopt] at hcontent, by rwa [hopt] at hbefore⟩
      | false =>
          rw [hopt] at hcontent hbefore
          exact .inr ⟨⟨hcontent, hbefore⟩, rfl⟩
  ptr := by
    intro c hc
    simp only [Knp.noteHeads] at hc ⊢
    split at hc
    · next hthis =>
        cases hc
        exact ⟨by omega, htag.symm, (h.thisIsSemanticHead_iff htag).mp hthis⟩
    · obtain ⟨hlt, hctag, hfirst⟩ := h.ptr c hc
      exact ⟨by omega, hctag, hfirst⟩

end Kept

/-- The links do not touch the flags; the pointer may be given up. -/
structure FlagsKept (s s' : MrphLoop) : Prop where
  lastT : s'.lastT = s.lastT
  semantic : s'.appearSemanticHead = s.appearSemanticHead
  syntactic : s'.appearSyntacticHead = s.appearSyntacticHead
  outer : s'.appearOuterWord = s.appearOuterWord
  content : s'.lastContentM = s.lastContentM
  ptr : ∀ c, s'.lastContentMPtr = some c → s.lastContentMPtr = some c

namespace FlagsKept

variable {s s' s'' : MrphLoop} {i : Nat}

theorem trans (h : FlagsKept s s') (h' : FlagsKept s' s'') : FlagsKept s s'' where
  lastT := h'.lastT.trans h.lastT
  semantic := h'.semantic.trans h.semantic
  syntactic := h'.syntactic.trans h.syntactic
  outer := h'.outer.trans h.outer
  content := h'.content.trans h.content
  ptr := fun c hc => h.ptr c (h'.ptr c hc)

theorem refl : FlagsKept s s := ⟨rfl, rfl, rfl, rfl, rfl, fun _ h => h⟩

theorem setLink (l : MrphLink) : FlagsKept s (s.setLink i l) :=
  ⟨rfl, rfl, rfl, rfl, rfl, fun _ h => h⟩

theorem linkSemanticHead (flag : MrphLink → Bool) : FlagsKept s (s.linkSemanticHead i flag) := by
  rw [MrphLoop.linkSemanticHead]
  split
  · exact ⟨rfl, rfl, rfl, rfl, rfl, fun c hc => by cases hc⟩
  · exact refl

theorem attachRoot (type : Char) : FlagsKept s (s.attachRoot i type) := by
  rw [MrphLoop.attachRoot]
  split <;> exact ⟨rfl, rfl, rfl, rfl, rfl, fun _ h => h⟩

theorem attachHead (head : Nat) (type : Char) : FlagsKept s (s.attachHead i head type) := by
  rw [MrphLoop.attachHead]
  split <;> exact ⟨rfl, rfl, rfl, rfl, rfl, fun _ h => h⟩

theorem attachOut (linkSemantic : Bool) : FlagsKept s (s.attachOut sp i linkSemantic) := by
  have hfirst : FlagsKept s (if linkSemantic then s.linkSemanticHead i fun _ => false else s) := by
    split
    · exact linkSemanticHead _
    · exact refl
  rw [MrphLoop.attachOut]
  generalize (if linkSemantic then s.linkSemanticHead i fun _ => false else s) = s₁ at hfirst
  split
  · exact hfirst.trans (attachRoot _)
  · split
    · exact hfirst.trans (attachRoot _)
    · exact hfirst.trans (attachHead _ _)

theorem kept (h : FlagsKept s s') (hs : Kept sp opt i s) : Kept sp opt i s' where
  semantic := by
    rw [h.semantic, h.lastT]
    exact hs.semantic
  syntactic := by
    rw [h.syntactic, h.lastT]
    exact hs.syntactic
  outer := by
    rw [h.outer, h.lastT]
    exact hs.outer
  content := by
    rw [h.content, h.lastT]
    exact hs.content
  ptr := by
    rw [h.lastT]
    exact fun c hc => hs.ptr c (h.ptr c hc)

end FlagsKept

/-- A turn does what is decided of its morpheme. -/
theorem mrphTurn_cases {i : Nat} {s : MrphLoop} (hdiv : sp.Divided) (hi : i < sp.mrphNum)
    (hlast : 0 < i → s.lastT = sp.tagOf (i - 1)) (h : Kept sp opt i s) :
    ∃ s₁, s₁ = noteHeads sp opt i (s.enterTag sp i) ∧ Kept sp opt (i + 1) s₁ ∧
      s₁.lastT = sp.tagOf i ∧
      (AttachesNext sp opt i ∧ mrphTurn sp opt i s = s₁.attachNext i ∨
        AttachesContent sp opt i ∧ mrphTurn sp opt i s = s₁.attachContent i ∨
        ¬ AttachesNext sp opt i ∧ ¬ AttachesContent sp opt i ∧
          ∃ linkSemantic, (linkSemantic = true → ¬ FirstSemantic sp opt i ∧
              ¬ Seen sp (checkSyntacticHead sp) i (sp.tagOf i)) ∧
            mrphTurn sp opt i s = s₁.attachOut sp i linkSemantic) := by
  obtain ⟨hs, htag⟩ := h.enterTag hdiv hi hlast
  have hkept := hs.noteHeads htag
  have hsem := hs.thisIsSemanticHead_iff htag
  have hsyn := hs.thisIsSyntacticHead_iff htag
  unfold mrphTurn
  generalize hs₁ : noteHeads sp opt i (s.enterTag sp i) = s₁ at hkept
  have htag₁ : s₁.lastT = sp.tagOf i := by
    rw [← hs₁]
    exact htag
  refine ⟨s₁, rfl, hkept, htag₁, ?_⟩
  have hsemantic := hkept.semantic
  have hsyntactic := hkept.syntactic
  have houter := hkept.outer
  rw [htag₁] at hsemantic hsyntactic houter
  dsimp only
  rw [hs₁]
  generalize thisIsSemanticHead sp opt i (s.enterTag sp i) = semantic at hsem
  generalize thisIsSyntacticHead sp i (s.enterTag sp i) = syntactic at hsyn
  have hbehind : (s₁.appearSyntacticHead && !syntactic) = true ↔
      Seen sp (checkSyntacticHead sp) i (sp.tagOf i) := by
    rw [Bool.and_eq_true, Bool.not_eq_true', ← Bool.not_eq_true, hsyntactic, hsyn, seen_succ]
    constructor
    · rintro ⟨hbefore | ⟨-, hthis⟩, hnot⟩
      · exact hbefore
      · exact not_not.mp fun hbefore => hnot ⟨hthis, hbefore⟩
    · intro hbefore
      exact ⟨.inl hbefore, fun hnot => hnot.2 hbefore⟩
  have hnext : (!s₁.appearSyntacticHead && !semantic &&
      (opt && (!s₁.appearSemanticHead || s₁.appearOuterWord) || !opt && !isInnerWord sp i)) = true ↔
      AttachesNext sp opt i := by
    rw [AttachesNext, ← hsyntactic, ← hsem, ← houter]
    cases opt with
    | false => simp [and_assoc]
    | true =>
        simp only [true_and] at hsemantic
        rw [← hsemantic]
        simp [and_assoc]
  have hback : (!s₁.appearOuterWord && !semantic &&
      (opt && s₁.appearSemanticHead && !(s₁.appearSyntacticHead && !syntactic) ||
        isInnerWord sp i || (sp.tag s₁.lastT).dpndHead == -1 &&
          (s₁.appearSyntacticHead && !syntactic))) = true ∧ ¬ AttachesNext sp opt i ↔
      AttachesContent sp opt i := by
    rw [AttachesContent, ← hbehind, ← hsem, ← houter, htag₁]
    generalize (s₁.appearSyntacticHead && !syntactic) = behind
    cases opt with
    | false => simp [and_assoc, and_comm, and_left_comm]
    | true =>
        simp only [true_and] at hsemantic
        rw [← hsemantic]
        simp [and_assoc, and_comm, and_left_comm, or_assoc]
  rw [attachMrph]
  split
  · next hcond => exact .inl ⟨hnext.mp hcond, rfl⟩
  · next hcond =>
      have hnot := mt hnext.mpr hcond
      split
      · next hcond' => exact .inr (.inl ⟨hback.mp ⟨hcond', hnot⟩, rfl⟩)
      · next hcond' =>
          refine .inr (.inr ⟨hnot, fun h => hcond' (hback.mpr h).1, _, ?_, rfl⟩)
          intro hlink
          rw [Bool.and_eq_true, Bool.not_eq_true', Bool.not_eq_true'] at hlink
          rw [← hsem, ← hbehind, hlink.1, hlink.2]
          simp

/-! ## What the links lead to -/

/-- The link of a morpheme goes to the right, or back to a content morpheme of
its tag. No link inside a tag goes to a morpheme that is linked back. -/
inductive GoodArc (sp : SentenceData) (opt : Bool) (j q : Nat) : Prop
  | forward (hback : ¬ AttachesContent sp opt j) (hlt : j < q)
      (hin : sp.tagOf q = sp.tagOf j → ¬ AttachesContent sp opt q)
  | back (hback : AttachesContent sp opt j) (htag : sp.tagOf q = sp.tagOf j)
      (hcontent : ¬ AttachesContent sp opt q)

/-- A morpheme that some tag is linked to. -/
def IsLanding (sp : SentenceData) (v : Nat) : Prop :=
  ∃ d g : Nat, d + 1 < sp.tagNum ∧ (sp.tag d).dpndHead = g ∧ v = findHeadMrphFromDpndBnst sp d g

/-- A tag is entered at one of its morphemes. -/
theorem findHead_mem (hdiv : sp.Divided) {d g : Nat} (hg : g < sp.tagNum) :
    findHeadMrphFromDpndBnst sp d g < sp.mrphNum ∧
      sp.tagOf (findHeadMrphFromDpndBnst sp d g) = g := by
  obtain ⟨hlo, hhi⟩ := hdiv.head_ptr g hg
  have hnum := hdiv.mrph_num g hg
  have hmem : (sp.tag g).mrphPtr ≤ findHeadMrphFromDpndBnst sp d g ∧
      findHeadMrphFromDpndBnst sp d g < (sp.tag g).mrphPtr + (sp.tag g).mrphNum := by
    unfold findHeadMrphFromDpndBnst
    dsimp only
    split
    · next hcond =>
        simp only [Bool.and_eq_true, decide_eq_true_eq] at hcond
        omega
    · split
      · next hcond =>
          simp only [Bool.and_eq_true, decide_eq_true_eq] at hcond
          omega
      · omega
  exact ⟨by omega, (hdiv.mrph_ptr g hg _ (by omega)).mpr hmem⟩

theorem IsLanding.lt {v : Nat} (hdiv : sp.Divided) (hheads : TagHeads sp) (h : IsLanding sp v) :
    v < sp.mrphNum := by
  obtain ⟨d, g, hd, hg, rfl⟩ := h
  obtain ⟨g', hg', -, hlt⟩ := hheads.right d hd
  obtain rfl : g = g' := by omega
  exact (findHead_mem hdiv hlt).1

/-- Where another tag than the last one is entered, there is no link back. -/
theorem IsLanding.not_attachesContent {v : Nat} (hdiv : sp.Divided) (hheads : TagHeads sp)
    (ha : Attachable sp opt) (h : IsLanding sp v) (hv : sp.tagOf v + 1 < sp.tagNum) :
    ¬ AttachesContent sp opt v := by
  obtain ⟨d, g, hd, hg, rfl⟩ := h
  obtain ⟨g', hg', -, hlt⟩ := hheads.right d hd
  obtain rfl : g = g' := by omega
  rw [(findHead_mem hdiv hlt).2] at hv
  have := ha.landing d hd (by omega)
  rwa [hg, Int.toNat_natCast] at this

variable (sp opt) in
/-- The links of the first `i` morphemes: one root at most, in the last tag, and
good arcs. An entry of `projTable` is a morpheme further right. -/
structure LinksGood (i : Nat) (s : MrphLoop) : Prop where
  arcs : ∀ j < i, (s.link j).dpndHead = -1 ∧ s.rootM = j ∨
    ∃ q < sp.mrphNum, (s.link j).dpndHead = q ∧ (s.rootM = q ∨ GoodArc sp opt j q)
  root : s.rootM = -1 ∨ ∃ r < i, s.rootM = r ∧ sp.tagOf r + 1 = sp.tagNum ∧
    (s.link r).dpndHead = -1
  rooted : Seen sp (contentHead sp opt) i (sp.tagNum - 1) → 0 ≤ s.rootM
  proj : ∀ j, s.projTable j ≠ 0 → j < s.projTable j ∧ IsLanding sp (s.projTable j)

namespace LinksGood

variable {i : Nat} {s : MrphLoop}

theorem init (lastContentM : Int) (link : Nat → MrphLink) :
    LinksGood sp opt 0 (MrphLoop.init lastContentM link) where
  arcs := fun j hj => absurd hj (Nat.not_lt_zero j)
  root := .inl rfl
  rooted := fun h => absurd h not_seen_zero
  proj := fun _ hj => absurd rfl hj

/-- Only links, root and table count. -/
theorem congr {s' : MrphLoop} (h : LinksGood sp opt i s) (hlink : s'.link = s.link)
    (hroot : s'.rootM = s.rootM) (hproj : s'.projTable = s.projTable) : LinksGood sp opt i s' where
  arcs := by
    rw [hlink, hroot]
    exact h.arcs
  root := by
    rw [hlink, hroot]
    exact h.root
  rooted := by
    rw [hroot]
    exact h.rooted
  proj := by
    rw [hproj]
    exact h.proj

/-- An earlier morpheme gets another head. -/
theorem relink {c q : Nat} {l : MrphLink} (h : LinksGood sp opt i s) (hroot : s.rootM ≠ c)
    (hq : q < sp.mrphNum) (hl : l.dpndHead = q) (harc : GoodArc sp opt c q) :
    LinksGood sp opt i (s.setLink c l) where
  arcs := by
    intro j hj
    by_cases hjc : j = c
    · subst hjc
      exact .inr ⟨q, hq, by simpa [MrphLoop.setLink] using hl, .inr harc⟩
    · simpa [MrphLoop.setLink, Function.update_of_ne hjc] using h.arcs j hj
  root := by
    refine h.root.imp_right ?_
    rintro ⟨r, hr, hrr, htag, hhead⟩
    have hrc : r ≠ c := by
      rintro rfl
      exact hroot hrr
    exact ⟨r, hr, hrr, htag, by simpa [MrphLoop.setLink, Function.update_of_ne hrc] using hhead⟩
  rooted := h.rooted
  proj := h.proj

/-- The next morpheme gets its head. -/
theorem link {q : Nat} {l : MrphLink} (h : LinksGood sp opt i s) (hq : q < sp.mrphNum)
    (hl : l.dpndHead = q) (harc : s.rootM = q ∨ GoodArc sp opt i q)
    (hrooted : Seen sp (contentHead sp opt) (i + 1) (sp.tagNum - 1) → 0 ≤ s.rootM) :
    LinksGood sp opt (i + 1) (s.setLink i l) where
  arcs := by
    intro j hj
    by_cases hji : j = i
    · subst hji
      exact .inr ⟨q, hq, by simpa [MrphLoop.setLink] using hl, harc⟩
    · simpa [MrphLoop.setLink, Function.update_of_ne hji] using h.arcs j (by omega)
  root := by
    refine h.root.imp_right ?_
    rintro ⟨r, hr, hrr, htag, hhead⟩
    exact ⟨r, by omega, hrr, htag,
      by simpa [MrphLoop.setLink, Function.update_of_ne hr.ne] using hhead⟩
  rooted := hrooted
  proj := h.proj

/-- The next morpheme becomes the root. -/
theorem linkRoot {l : MrphLink} (h : LinksGood sp opt i s) (hl : l.dpndHead = -1)
    (hroot : s.rootM < 0) (htag : sp.tagOf i + 1 = sp.tagNum) :
    LinksGood sp opt (i + 1) { s.setLink i l with rootM := i } where
  arcs := by
    intro j hj
    by_cases hji : j = i
    · subst hji
      exact .inl ⟨by simpa [MrphLoop.setLink] using hl, rfl⟩
    · obtain ⟨-, hr⟩ | ⟨q, hq, hhead, hr | harc⟩ := h.arcs j (by omega)
      · omega
      · omega
      · exact .inr ⟨q, hq, by simpa [MrphLoop.setLink, Function.update_of_ne hji] using hhead,
          .inr harc⟩
  root := .inr ⟨i, by omega, rfl, htag, by simpa [MrphLoop.setLink] using hl⟩
  rooted := fun _ => Int.natCast_nonneg i
  proj := h.proj

/-- A link to the root or below it. -/
theorem attachRoot {type : Char} (h : LinksGood sp opt i s) (hi : i < sp.mrphNum)
    (htag : sp.tagOf i + 1 = sp.tagNum) : LinksGood sp opt (i + 1) (s.attachRoot i type) := by
  rw [MrphLoop.attachRoot]
  split
  · next hroot =>
      obtain hnone | ⟨r, hr, hrr, -⟩ := h.root
      · omega
      · exact h.link (q := r) (by omega) hrr (.inl hrr) fun _ => hroot
  · next hroot => exact h.linkRoot rfl (by omega) htag

theorem seen_last_of_succ {p : Nat → Bool} (htag : sp.tagOf i + 1 < sp.tagNum)
    (hseen : Seen sp p (i + 1) (sp.tagNum - 1)) : Seen sp p i (sp.tagNum - 1) :=
  (seen_succ.mp hseen).resolve_right fun hthis => by omega

/-- A link out of a tag, to its head or to what the earlier links allow. -/
theorem attachHead {g : Nat} {type : Char} (hdiv : sp.Divided) (hheads : TagHeads sp)
    (ha : Attachable sp opt) (h : LinksGood sp opt i s) (hi : i < sp.mrphNum)
    (hback : ¬ AttachesContent sp opt i) (htag : sp.tagOf i + 1 < sp.tagNum)
    (hg : (sp.tag (sp.tagOf i)).dpndHead = g) :
    LinksGood sp opt (i + 1) (s.attachHead i (findHeadMrphFromDpndBnst sp (sp.tagOf i) g) type) := by
  have hrooted := fun hseen => h.rooted (seen_last_of_succ htag hseen)
  obtain ⟨g', hg', hlt, hgt⟩ := hheads.right _ htag
  obtain rfl : g = g' := by omega
  rw [MrphLoop.attachHead]
  split
  · next hproj =>
      obtain ⟨hlt', hland⟩ := h.proj i hproj.1
      refine h.link (hland.lt hdiv hheads) rfl (.inr (.forward hback hlt' fun heq => ?_)) hrooted
      exact hland.not_attachesContent hdiv hheads ha (by omega)
  · obtain ⟨hmem, hmemtag⟩ := findHead_mem (d := sp.tagOf i) hdiv hgt
    have hlt' : i < findHeadMrphFromDpndBnst sp (sp.tagOf i) g :=
      hdiv.mrph.lt_of_number_lt hi (by
        change sp.tagOf i < sp.tagOf _
        omega)
    have hlinked := h.link (l := ⟨findHeadMrphFromDpndBnst sp (sp.tagOf i) g, type, true⟩) hmem rfl
      (.inr (.forward hback hlt' fun heq => by omega)) hrooted
    refine ⟨hlinked.arcs, hlinked.root, hlinked.rooted, fun j hj => ?_⟩
    simp only [MrphLoop.coverProj] at hj ⊢
    split
    · next hcover => exact ⟨hcover.2.1, _, g, htag, hg, rfl⟩
    · next hcover =>
        rw [if_neg hcover] at hj
        exact h.proj j hj

/-- The semantic head gets morpheme `m` as its head. -/
theorem linkSemanticHead {m : Nat} {flag : MrphLink → Bool} (h : LinksGood sp opt i s)
    (hm : m < sp.mrphNum)
    (hptr : ∀ c, s.lastContentMPtr = some c → s.rootM ≠ c ∧ GoodArc sp opt c m) :
    LinksGood sp opt i (s.linkSemanticHead m flag) := by
  rw [MrphLoop.linkSemanticHead]
  split
  · next c hc =>
      obtain ⟨hroot, harc⟩ := hptr c hc
      exact (h.relink hroot hm rfl harc).congr rfl rfl rfl
  · exact h

end LinksGood

/-- Links go up, if a morpheme that is linked back counts as the first of its tag. -/
theorem GoodArc.rank_lt (hdiv : sp.Divided) {j q : Nat} (hj : j < sp.mrphNum) (hq : q < sp.mrphNum)
    (h : GoodArc sp opt j q) :
    (if AttachesContent sp opt j then 2 * (sp.tag (sp.tagOf j)).mrphPtr else 2 * j + 1) <
      if AttachesContent sp opt q then 2 * (sp.tag (sp.tagOf q)).mrphPtr else 2 * q + 1 := by
  have hcount := hdiv.mrph.number_lt_count hj
  have hcount' := hdiv.mrph.number_lt_count hq
  cases h with
  | forward hback hlt hin =>
      rw [if_neg hback]
      split
      · next hq' =>
          -- the head lies in a later tag, whose first morpheme is behind
          have hmono : sp.tagOf j ≤ sp.tagOf q := hdiv.mrph.number_mono hlt.le hq
          have hne : sp.tagOf q ≠ sp.tagOf j := fun heq => hin heq hq'
          have hnot := mt (hdiv.mrph_ptr (sp.tagOf q) hcount' j hj).mpr (by omega)
          have := ((hdiv.mrph_ptr (sp.tagOf q) hcount' q hq).mp rfl).2
          omega
      · omega
  | back hback htag hcontent =>
      rw [if_pos hback, if_neg hcontent]
      have := ((hdiv.mrph_ptr (sp.tagOf j) hcount q hq).mp htag).1
      omega

/-! ## The run -/

/-- Where the semantic head is linked again, a word of the outer kind has been
seen, so that the tag is not the last one. -/
theorem good_relink {i c : Nat} {s : MrphLoop} (hheads : TagHeads sp) (hroot : s.rootM = -1 ∨
      ∃ r : Nat, s.rootM = r ∧ sp.tagOf r + 1 = sp.tagNum)
    (hc : c ≤ i) (htag : sp.tagOf c = sp.tagOf i) (hfirst : FirstSemantic sp opt c)
    (hnot : ¬ FirstSemantic sp opt i) (hback : ¬ AttachesContent sp opt i)
    (hwhy : AttachesNext sp opt i ∨
      ¬ AttachesNext sp opt i ∧ ¬ Seen sp (checkSyntacticHead sp) i (sp.tagOf i)) :
    s.rootM ≠ c ∧ GoodArc sp opt c i := by
  have hne : c ≠ i := by
    rintro rfl
    exact hnot hfirst
  have hseen : Seen sp (semanticHead sp) (i + 1) (sp.tagOf i) := ⟨c, by omega, htag, hfirst.2.1⟩
  have houter : Seen sp (outerWord sp) (i + 1) (sp.tagOf i) := by
    rcases hwhy with ⟨-, -, ⟨-, hsem | hout⟩ | ⟨hopt, -⟩⟩ | ⟨hnext, hsyn⟩
    · exact absurd hseen hsem
    · exact hout
    · rw [hfirst.1] at hopt
      exact absurd hopt (by decide)
    · by_contra hout
      exact hback ⟨hnext, hout, hnot, .inl ⟨hfirst.1, hseen, hsyn⟩⟩
  refine ⟨?_, .forward (fun h => h.2.2.1 hfirst) (by omega) fun _ => hback⟩
  obtain ⟨j, -, hj, hword⟩ := houter
  simp only [outerWord, hj, Bool.and_eq_true, bne_iff_ne] at hword
  obtain hnone | ⟨r, hr, hrtag⟩ := hroot
  · omega
  · rw [hr]
    rintro hrc
    obtain rfl : r = c := by omega
    refine hword.1 ?_
    have hlast : sp.tagOf i = sp.tagNum - 1 := by omega
    rw [hlast]
    exact hheads.last

variable (hdiv : sp.Divided) (hheads : TagHeads sp) (ha : Attachable sp opt)
include hdiv hheads ha

theorem mrphTurn_step {i : Nat} {s : MrphLoop} (hi : i < sp.mrphNum)
    (hlast : 0 < i → s.lastT = sp.tagOf (i - 1)) (hkept : Kept sp opt i s)
    (hlinked : LinksGood sp opt i s) :
    (mrphTurn sp opt i s).lastT = sp.tagOf i ∧ Kept sp opt (i + 1) (mrphTurn sp opt i s) ∧
      LinksGood sp opt (i + 1) (mrphTurn sp opt i s) := by
  obtain ⟨s₁, hs₁, hkept₁, htag, hcases⟩ := mrphTurn_cases hdiv hi hlast hkept
  have hlinked₁ : LinksGood sp opt i s₁ := by
    have henter : LinksGood sp opt i (s.enterTag sp i) := by
      rw [MrphLoop.enterTag]
      split
      · exact hlinked.congr rfl rfl rfl
      · exact hlinked
    rw [hs₁]
    exact henter.congr rfl rfl rfl
  have hroot : s₁.rootM = -1 ∨ ∃ r : Nat, s₁.rootM = r ∧ sp.tagOf r + 1 = sp.tagNum :=
    hlinked₁.root.imp_right fun ⟨r, _, hr, hrtag, _⟩ => ⟨r, hr, hrtag⟩
  have hcount := hdiv.mrph.number_lt_count hi
  change sp.tagOf i < sp.tagNum at hcount
  -- a morpheme that is not linked out keeps the root of the last tag
  have hrooted : AttachesNext sp opt i ∨ AttachesContent sp opt i →
      Seen sp (contentHead sp opt) (i + 1) (sp.tagNum - 1) → 0 ≤ s₁.rootM := by
    intro hattach hseen
    by_cases htagi : sp.tagOf i = sp.tagNum - 1
    · rw [← htagi] at hseen
      exact hlinked₁.rooted (htagi ▸ seen_content_of_attaches ha hi hattach hseen)
    · exact hlinked₁.rooted (LinksGood.seen_last_of_succ (by omega) hseen)
  obtain ⟨hnext, hturn⟩ | ⟨hback, hturn⟩ | ⟨hnext, hback, linkSemantic, hwhy, hturn⟩ := hcases
  · have hnot : ¬ AttachesContent sp opt i := fun h => h.1 hnext
    have hflags : FlagsKept s₁ (s₁.attachNext i) :=
      (FlagsKept.setLink _).trans (FlagsKept.linkSemanticHead _)
    rw [hturn]
    refine ⟨hflags.lastT.trans htag, hflags.kept hkept₁, ?_⟩
    -- the next morpheme lies in the same tag, since the syntactic head is to come
    obtain ⟨hi', htag'⟩ := attachesNext_tag hdiv hi hnext
    refine LinksGood.linkSemanticHead ?_ hi ?_
    · exact hlinked₁.link hi' rfl (.inr (.forward hnot (by omega) fun _ =>
        not_attachesContent_next ha hi' htag' hnext)) (hrooted (.inl hnext))
    · intro c hc
      obtain ⟨hle, hctag, hfirst⟩ := hkept₁.ptr c hc
      exact good_relink hheads hroot (by omega) (hctag.trans htag) hfirst hnext.2.1 hnot (.inl hnext)
  · have hflags : FlagsKept s₁ (s₁.attachContent i) := FlagsKept.setLink _
    rw [hturn]
    refine ⟨hflags.lastT.trans htag, hflags.kept hkept₁, ?_⟩
    have hseen := ha.content i hi hback
    obtain ⟨c, hc, hcm, hctag, -, hfirst⟩ := hkept₁.content (htag ▸ hseen.mono (Nat.le_succ i))
    rw [htag] at hctag hfirst
    have hnot := not_attachesContent_first ha (by omega) (hctag.symm ▸ hfirst)
    exact hlinked₁.link (q := c) (by omega) hcm (.inr (.back hback hctag hnot))
      (hrooted (.inr hback))
  · have hflags : FlagsKept s₁ (s₁.attachOut sp i linkSemantic) := FlagsKept.attachOut _
    rw [hturn]
    refine ⟨hflags.lastT.trans htag, hflags.kept hkept₁, ?_⟩
    have hlinked₂ : LinksGood sp opt i
        (if linkSemantic then s₁.linkSemanticHead i fun _ => false else s₁) := by
      split
      · next hlink =>
          refine hlinked₁.linkSemanticHead hi fun c hc => ?_
          obtain ⟨hle, hctag, hfirst⟩ := hkept₁.ptr c hc
          obtain ⟨hnot, hsyn⟩ := hwhy hlink
          exact good_relink hheads hroot (by omega) (hctag.trans htag) hfirst hnot hback
            (.inr ⟨hnext, hsyn⟩)
      · exact hlinked₁
    have htag₂ : (if linkSemantic then s₁.linkSemanticHead i fun _ => false else s₁).lastT =
        sp.tagOf i := by
      split
      · exact (FlagsKept.linkSemanticHead _).lastT.trans htag
      · exact htag
    rw [MrphLoop.attachOut, htag₂]
    split
    · next hend =>
        refine hlinked₂.attachRoot hi ?_
        have := hdiv.mrph.last
        rw [← hend, Nat.add_sub_cancel] at this
        exact this
    · split
      · next hhead =>
          refine hlinked₂.attachRoot hi ?_
          by_contra hne
          obtain ⟨g, hg, -⟩ := hheads.right (sp.tagOf i) (by omega)
          omega
      · next hhead =>
          have htaglt : sp.tagOf i + 1 < sp.tagNum := by
            by_contra hge
            refine hhead ?_
            have : sp.tagOf i = sp.tagNum - 1 := by omega
            rw [this]
            exact hheads.last
          obtain ⟨g, hg, -⟩ := hheads.right (sp.tagOf i) htaglt
          rw [hg, Int.toNat_natCast]
          exact hlinked₂.attachHead hdiv hheads ha hi hback htaglt hg

theorem dpndInfoToMrph_linked (lastContentM : Int) (link : Nat → MrphLink) :
    LinksGood sp opt sp.mrphNum (dpndInfoToMrph sp opt lastContentM link) := by
  have hrun := Loop.upTo_induction (mrphTurn sp opt)
    (fun i s => (0 < i → s.lastT = sp.tagOf (i - 1)) ∧ Kept sp opt i s ∧ LinksGood sp opt i s)
    (Nat.zero_le sp.mrphNum)
    (fun i s _ hi ⟨hlast, hkept, hlinked⟩ => by
      obtain ⟨htag, hkept', hlinked'⟩ := mrphTurn_step hdiv hheads ha hi hlast hkept hlinked
      exact ⟨fun _ => htag, hkept', hlinked'⟩)
    (s := MrphLoop.init lastContentM link)
    ⟨fun h => absurd h (Nat.lt_irrefl 0), Kept.init _ _, LinksGood.init _ _⟩
  exact hrun.2.2

/-- The heads of the morphemes form a tree, with its root in the last tag. -/
theorem dpndInfoToMrph_tagTree (lastContentM : Int) (link : Nat → MrphLink) :
    ∃ root, HeadTree.IsTree sp.mrphNum
      (fun i => ((dpndInfoToMrph sp opt lastContentM link).link i).dpndHead) root ∧
      sp.tagOf root + 1 = sp.tagNum := by
  have hlinked := dpndInfoToMrph_linked hdiv hheads ha lastContentM link
  generalize dpndInfoToMrph sp opt lastContentM link = s at hlinked
  have hpos := hdiv.mrph.pos
  -- the last morpheme is a content morpheme, if no other one is
  have hlast : Seen sp (contentHead sp opt) sp.mrphNum (sp.tagNum - 1) := by
    have hnum := hdiv.mrph.last
    refine ⟨sp.mrphNum - 1, by omega, by change sp.tagOf _ + 1 = _ at hnum; omega, ?_⟩
    have hinum := hdiv.mrph_inum_last
    cases opt with
    | false => simp [contentHead, checkSyntacticHead, hinum]
    | true => simp [contentHead, semanticHead, checkSemanticHead, hinum]
  have hroot := hlinked.rooted hlast
  obtain hnone | ⟨root, hlt, hr, htag, hhead⟩ := hlinked.root
  · omega
  refine ⟨root, HeadTree.isTree_of_rank (fun i => if i = root then 2 * sp.mrphNum else
    if AttachesContent sp opt i then 2 * (sp.tag (sp.tagOf i)).mrphPtr else 2 * i + 1)
    hlt hhead fun i hi hne => ?_, htag⟩
  rw [if_neg hne]
  obtain ⟨-, hri⟩ | ⟨q, hq, hiq, harc⟩ := hlinked.arcs i hi
  · omega
  refine ⟨q, hq, hiq, ?_⟩
  have hbound : (if AttachesContent sp opt i then 2 * (sp.tag (sp.tagOf i)).mrphPtr else 2 * i + 1) <
      2 * sp.mrphNum := by
    split
    · have hcount := hdiv.mrph.number_lt_count hi
      have := ((hdiv.mrph_ptr (sp.tagOf i) hcount i hi).mp rfl).1
      omega
    · omega
  by_cases hqr : q = root
  · rw [if_pos hqr]
    exact hbound
  · rw [if_neg hqr]
    exact GoodArc.rank_lt hdiv hi hq (harc.resolve_left fun heq => hqr (by omega))

omit hdiv hheads ha

/-- One root, in the last bunsetsu; the other heads are morphemes that lead to it. -/
def MrphHeadsTree (sp : SentenceData) (s : MrphLoop) : Prop :=
  ∃ root, HeadTree.IsTree sp.mrphNum (fun i => (s.link i).dpndHead) root ∧
    sp.bnstOf (sp.tagOf root) + 1 = sp.bnstNum

section SelfLink

variable {i j : Nat} {s : MrphLoop}

/-- Without `OptSemanticHead` only morpheme `j` gets a link in its turn. -/
theorem mrphTurn_link_of_ne (hdiv : sp.Divided) (hj : j < sp.mrphNum)
    (hlast : 0 < j → s.lastT = sp.tagOf (j - 1)) (h : Kept sp false j s) (hij : i ≠ j) :
    (mrphTurn sp false j s).link i = s.link i := by
  obtain ⟨s₁, hs₁, hkept, htag, hcases⟩ := mrphTurn_cases hdiv hj hlast h
  have hlink : s₁.link = s.link := by
    rw [hs₁, noteHeads, MrphLoop.enterTag]
    split <;> rfl
  have hptr : s₁.lastContentMPtr = none := by
    cases hc : s₁.lastContentMPtr with
    | none => rfl
    | some c => exact absurd (hkept.ptr c hc).2.2.1 (by decide)
  have hset : ∀ l : MrphLink, (s₁.setLink j l).link i = s₁.link i := fun l =>
    Function.update_of_ne hij ..
  obtain ⟨-, hturn⟩ | ⟨-, hturn⟩ | ⟨-, -, linkSemantic, -, hturn⟩ := hcases
  · rw [hturn, ← hlink, MrphLoop.attachNext, MrphLoop.linkSemanticHead]
    simp only [MrphLoop.setLink, hptr]
    exact hset _
  · rw [hturn, ← hlink]
    exact hset _
  · have hnone : (if linkSemantic then s₁.linkSemanticHead j fun _ => false else s₁) = s₁ := by
      split
      · rw [MrphLoop.linkSemanticHead, hptr]
      · rfl
    rw [hturn, ← hlink, MrphLoop.attachOut, hnone, MrphLoop.attachRoot, MrphLoop.attachRoot,
      MrphLoop.attachHead]
    split_ifs <;> exact hset _

/-- Without `OptSemanticHead`, a syntactic head that is linked back is linked to
itself, so that there is no tree. -/
theorem not_isTree_of_selfLink (hdiv : sp.Divided) (hi : i < sp.mrphNum)
    (hback : AttachesContent sp false i) (hsyn : checkSyntacticHead sp i = true)
    (hfirst : ¬ Seen sp (checkSyntacticHead sp) i (sp.tagOf i)) (lastContentM : Int)
    (link : Nat → MrphLink) : ¬ MrphHeadsTree sp (dpndInfoToMrph sp false lastContentM link) := by
  have hrun := Loop.upTo_induction (mrphTurn sp false)
    (fun j s => (0 < j → s.lastT = sp.tagOf (j - 1)) ∧ Kept sp false j s ∧
      (i < j → (s.link i).dpndHead = i))
    (Nat.zero_le sp.mrphNum)
    (fun j s _ hj ⟨hlast, hkept, hself⟩ => by
      obtain ⟨s₁, -, hkept₁, htag, hcases⟩ := mrphTurn_cases hdiv hj hlast hkept
      have hflags : FlagsKept s₁ (mrphTurn sp false j s) := by
        obtain ⟨-, hturn⟩ | ⟨-, hturn⟩ | ⟨-, -, linkSemantic, -, hturn⟩ := hcases
        · rw [hturn]
          exact (FlagsKept.setLink _).trans (FlagsKept.linkSemanticHead _)
        · rw [hturn]
          exact FlagsKept.setLink _
        · rw [hturn]
          exact FlagsKept.attachOut _
      refine ⟨fun _ => hflags.lastT.trans htag, hflags.kept hkept₁, fun hij => ?_⟩
      by_cases hne : i = j
      · -- the content morpheme is the one whose turn it is
        subst hne
        obtain ⟨hnext, -⟩ | ⟨-, hturn⟩ | ⟨-, hnot, -⟩ := hcases
        · exact absurd hnext hback.1
        · obtain ⟨c, hc, hcm, hctag, hccontent, -⟩ :=
            hkept₁.content (htag.symm ▸ seen_succ.mpr (.inr ⟨rfl, hsyn⟩))
          have hci : c = i := by
            by_contra hne
            exact hfirst ⟨c, by omega, hctag.trans htag, hccontent⟩
          rw [hturn, MrphLoop.attachContent, hcm, hci]
          simp [MrphLoop.setLink]
        · exact absurd hback hnot
      · rw [mrphTurn_link_of_ne hdiv hj hlast hkept hne]
        exact hself (by omega))
    (s := MrphLoop.init lastContentM link)
    ⟨fun h => absurd h (Nat.lt_irrefl 0), Kept.init _ _, fun h => absurd h (Nat.not_lt_zero i)⟩
  rintro ⟨root, htree, -⟩
  exact htree.head_ne_self hi (hrun.2.2 hi)

end SelfLink

/-! ## Two sentences -/

/-- A morpheme that starts tag `tnum`, or none. -/
def morpheme (hinshi bunrui : String) (f : List String) (tnum : Int) (inum : Nat) : MorphemeData :=
  ⟨hinshi, bunrui, f, tnum, inum⟩

/-- A sentence of bunsetsu of one tag each. -/
def plainSentence (mrphs : List MorphemeData) (tags : List (Nat × Nat × Nat × List String)) :
    SentenceData where
  mrphNum := mrphs.length
  mrph i := mrphs.getD i ⟨"", "", [], -1, 0⟩
  tagNum := tags.length
  tag t :=
    let (mrphPtr, mrphNum, headPtr, f) := tags.getD t (0, 0, 0, [])
    ⟨mrphPtr, mrphNum, headPtr, f, t, 0, 0, 'D'⟩
  bnstNum := tags.length
  bnst b := ⟨b, 1, []⟩

/-- 本を読む。 -/
def hon : SentenceData := plainSentence
  [morpheme "名詞" "普通名詞" [] 0 1, morpheme "助詞" "格助詞" [] (-1) 0,
    morpheme "動詞" "*" [] 1 1, morpheme "特殊" "句点" [] (-1) 0]
  [(0, 2, 0, ["係:ヲ格"]), (2, 2, 2, ["用言:動"])]

def honDpnd : Dpnd := ⟨fun b => if b = 0 then 1 else -1, fun _ => 'D'⟩

/-- A single morpheme with the feature Ｔ句内要素. -/
def innerWord : SentenceData := plainSentence
  [morpheme "名詞" "普通名詞" ["Ｔ句内要素"] 0 0] [(0, 1, 0, [])]

theorem hon_divided : hon.Divided := by decide +kernel

theorem honDpnd_rightHeaded : RightHeaded honDpnd hon.bnstNum where
  right := by
    intro b hb
    obtain rfl : b = 0 := Nat.lt_one_iff.mp (Nat.lt_of_succ_lt_succ hb)
    decide
  last := by decide

theorem innerWord_divided : innerWord.Divided := by decide +kernel

end Knp
