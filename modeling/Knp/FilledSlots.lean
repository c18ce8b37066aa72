import Knp.CaseMatch
import Knp.CfFrame

/-!
# The slots that are filled (`case_analysis_for_anaphora`, `ellipsis_analysis`)

Both searches begin a call by going through the slots assigned so far and marking them
in `filled_element`; a slot that is similar to one of them is to be marked as well. The
pairs of similar cases are pairs of case codes (`get_ipal_frame`), and `check_same_case`
looks a pair of codes up in them. The loop compares them with the numbers of slots.

> The loop marks the right slots, within the array, if and only if the pairs read as
> pairs of slot numbers stay within the array and block the slots that they block as
> pairs of codes.
-/

namespace Knp

/-- `pp[e][0]` -/
def CaseFrame.slotCase (cf : CaseFrame) (e : Nat) : Int := (cf.pp e).headD END_M

/-- The pairs in front of `END_M`. -/
def CaseFrame.samecasePairs (cf : CaseFrame) : List (Int × Int) :=
  cf.samecase.takeWhile fun c => c.1 ≠ END_M

/-- 類似している格も埋まっているものとして扱う: the index that a pair adds for the slot `s`. -/
def partner (s : Nat) (c : Int × Int) : Option Int :=
  if c.1 = s then some c.2 else if c.2 = s then some c.1 else none

/-- The indices at which `filled_element` is set, in order. -/
def filledIndices (cf : CaseFrame) (slots : List Nat) : List Int :=
  slots.flatMap fun s : Nat => (s : Int) :: cf.samecasePairs.filterMap (partner s)

/-- `filled_element[e]` -/
def filledElement (cf : CaseFrame) (slots : List Nat) (e : Nat) : Bool :=
  (e : Int) ∈ filledIndices cf slots

/-- A slot whose case is similar to that of an assigned one. -/
def SimilarTo (cf : CaseFrame) (slots : List Nat) (e : Nat) : Prop :=
  ∃ s ∈ slots, checkSameCase cf (cf.slotCase e) (cf.slotCase s) = true

/-- The marks are those of the assigned slots and of the ones similar to them. -/
structure BlocksSimilar (cf : CaseFrame) (slots : List Nat) : Prop where
  filled_iff : ∀ e < cf.elementNum, filledElement cf slots e = true ↔ e ∈ slots ∨ SimilarTo cf slots e
  index_lt : ∀ x ∈ filledIndices cf slots, 0 ≤ x ∧ x < CF_ELEMENT_MAX

/-- A pair has one number that is an assigned slot's, and the other one is `x`. -/
def PairedWith (cf : CaseFrame) (slots : List Nat) (x : Int) : Prop :=
  ∃ c ∈ cf.samecasePairs, ∃ s ∈ slots, (c.1 = s ∧ c.2 = x) ∨ (c.2 = s ∧ c.1 = x)

theorem partner_eq_some {s : Nat} {c : Int × Int} {x : Int} :
    partner s c = some x ↔ (c.1 = s ∧ c.2 = x) ∨ (c.2 = s ∧ c.1 = x) := by
  unfold partner
  split
  · rename_i h
    simp only [Option.some_inj, h, true_and]
    constructor
    · exact Or.inl
    · rintro (hx | ⟨hc, hx⟩)
      · exact hx
      · exact hc.trans hx
  · split <;> simp [*]

theorem mem_filledIndices {cf : CaseFrame} {slots : List Nat} {x : Int} :
    x ∈ filledIndices cf slots ↔ (∃ s ∈ slots, x = (s : Int)) ∨ PairedWith cf slots x := by
  simp only [filledIndices, List.mem_flatMap, List.mem_cons, List.mem_filterMap, partner_eq_some,
    PairedWith]
  constructor
  · rintro ⟨s, hs, hx | ⟨c, hc, hpair⟩⟩
    · exact Or.inl ⟨s, hs, hx⟩
    · exact Or.inr ⟨c, hc, s, hs, hpair⟩
  · rintro (⟨s, hs, hx⟩ | ⟨c, hc, s, hs, hpair⟩)
    · exact ⟨s, hs, Or.inl hx⟩
    · exact ⟨s, hs, Or.inr ⟨c, hc, hpair⟩⟩

theorem filledElement_iff {cf : CaseFrame} {slots : List Nat} {e : Nat} :
    filledElement cf slots e = true ↔ e ∈ slots ∨ PairedWith cf slots e := by
  have hcast : (∃ s ∈ slots, (e : Int) = (s : Int)) ↔ e ∈ slots := by
    constructor
    · rintro ⟨s, hs, h⟩
      exact Int.ofNat_inj.mp h ▸ hs
    · intro h
      exact ⟨e, h, rfl⟩
  simp [filledElement, mem_filledIndices, hcast]

/-- The slots of ガ and ヲ, where the two are similar: codes 1 and 2 at the slots 0 and 1. -/
def gaWoFrame : CaseFrame where
  elementNum := 2
  adjacent _ := false
  pp e := [(e : Int) + 1]
  sp _ := 0
  weight _ := 0
  samecase := [(1, 2), (END_M, END_M)]

end Knp
