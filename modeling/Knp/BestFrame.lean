import Mathlib
import Knp.CaseMatch
import Knp.TopInsert

/-!
# The best case frames (`case_analysis.c`)

The loop of `find_best_cf` matches the frames of a predicate one after the other and
keeps the best `CMM_MAX - 1`. Scores decide; where they are the same, and no failure,
the one whose closest element is in an adjacent slot comes first, or without a closest
element the one that is filled better, and else the earlier frame.

> The ranking holds unless a closest element without a slot is taken for a matched one,
> and that turns two candidates which would be among the first.

`CheckCfClosest` reads `adjacent` at the flag of the element without a test for
`NIL_ASSIGNED`, and then what stands in front of the array.
-/

namespace Knp

open TopInsert

def CMM_MAX : Nat := 5

def CASE_MATCH_FAILURE_SCORE : Int := -2

def CASE_MATCH_FAILURE_PROB : Int := -1001

/-- `CF_MATCH_MGR`, with the number of the frame; `pure_score` and the lists are those
of the first result. -/
structure CfMatchMgr (S : Type*) where
  cfPtr : Nat
  score : S
  pureScore : S
  sufficiency : S
  resultListP : AssignList S
  resultListD : AssignList S

/-- The frames of a predicate, and what `case_frame_match` makes of each. -/
structure FrameSearch (S : Type*) where
  useProbability : Bool
  closest : Int
  hiraganaPreferFlag : Int
  cfNum : Nat
  cfPtr : Nat → CaseFrame
  /-- `etcflag & CF_SUM` -/
  cfSum : Nat → Bool
  /-- `entry` is of `TYPE_HIRAGANA` -/
  hiragana : Nat → Bool
  caseFrameMatch : Nat → CfMatchMgr S
  caseFrameMatch_cfPtr : ∀ n, (caseFrameMatch n).cfPtr = n

namespace FrameSearch

variable {S : Type*} [LinearOrder S] [IntCast S] (fs : FrameSearch S)

/-- 格フレーム設定; all of them if none is left. -/
def frames : List Nat :=
  let chosen := (List.range fs.cfNum).filter fun i =>
    !fs.cfSum i && !(0 < fs.hiraganaPreferFlag && !fs.hiragana i ||
      fs.hiraganaPreferFlag < 0 && fs.hiragana i)
  if chosen.length = 0 then List.range fs.cfNum else chosen

def candidates : List (CfMatchMgr S) := fs.frames.map fs.caseFrameMatch

/-- `CheckCfClosest` -/
def checkCfClosest (cmm : CfMatchMgr S) : Bool :=
  (fs.cfPtr cmm.cfPtr).adjacent (cmm.resultListD.flag fs.closest.toNat)

/-- スコア順にソート: the test for `cmm[j]` and `cmm[j + 1]`. -/
def overtakes (old new : CfMatchMgr S) : Bool :=
  old.score < new.score ||
    (((fs.useProbability && old.score ≠ (CASE_MATCH_FAILURE_PROB : S)) ||
        (!fs.useProbability && old.score ≠ (CASE_MATCH_FAILURE_SCORE : S))) &&
      old.score = new.score &&
      ((fs.closest > -1 && (fs.checkCfClosest new && !fs.checkCfClosest old)) ||
        (fs.closest < 0 && old.sufficiency < new.sufficiency)))

/-- The loop of `find_best_cf`: `result_num` and `cmm`, which holds `cmm` before. -/
def findBestCf (cmm : Nat → CfMatchMgr S) : Nat × (Nat → CfMatchMgr S) :=
  fill fs.overtakes (CMM_MAX - 1) cmm fs.candidates

/-! ## The ranking -/

/-- The closest element has an adjacent slot. -/
def closestMatched (cmm : CfMatchMgr S) : Bool :=
  0 ≤ cmm.resultListD.flag fs.closest.toNat &&
    (fs.cfPtr cmm.cfPtr).adjacent (cmm.resultListD.flag fs.closest.toNat)

def failureScore : S :=
  if fs.useProbability then (CASE_MATCH_FAILURE_PROB : S) else (CASE_MATCH_FAILURE_SCORE : S)

/-- What decides between two candidates of the same score. -/
structure TieBreak (matched : CfMatchMgr S → Bool) (a b : CfMatchMgr S) : Prop where
  nonFailure : a.score ≠ fs.failureScore
  decided : if fs.closest > -1 then matched a = true ∧ matched b = false
    else b.sufficiency < a.sufficiency

/-- `a` is better than `b`. -/
def Prefers (matched : CfMatchMgr S → Bool) (a b : CfMatchMgr S) : Prop :=
  b.score < a.score ∨ a.score = b.score ∧ fs.TieBreak matched a b

instance (matched : CfMatchMgr S → Bool) : DecidableRel (fs.Prefers matched) := fun a b =>
  decidable_of_iff (b.score < a.score ∨ a.score = b.score ∧ a.score ≠ fs.failureScore ∧
      if fs.closest > -1 then matched a = true ∧ matched b = false
        else b.sufficiency < a.sufficiency)
    (or_congr_right (and_congr_right fun _ => ⟨fun h => ⟨h.1, h.2⟩, fun h => ⟨h.1, h.2⟩⟩))

/-- `a` ranks above `b`. -/
def RanksAbove (matched : CfMatchMgr S → Bool) (a b : CfMatchMgr S) : Prop :=
  Ranks (fs.Prefers matched) CfMatchMgr.cfPtr a b

instance (matched : CfMatchMgr S → Bool) : DecidableRel (fs.RanksAbove matched) := fun _ _ =>
  inferInstanceAs (Decidable (_ ∨ _))

/-- The law of the loop: `cmm[0 .. result_num)` are the first candidates of the ranking. -/
def Ranked (cmm : Nat → CfMatchMgr S) : Prop :=
  IsTop (fs.RanksAbove fs.closestMatched) (CMM_MAX - 1) fs.candidates (kept (fs.findBestCf cmm))

/-- The closest element of `b` has no slot, but what is read says `TRUE`; therefore `b` comes
before `a`. -/
structure Misled (a b : CfMatchMgr S) : Prop where
  closest : fs.closest > -1
  tie : a.score = b.score
  nonFailure : a.score ≠ fs.failureScore
  noSlot : b.resultListD.flag fs.closest.toNat < 0
  read : (fs.cfPtr b.cfPtr).adjacent (b.resultListD.flag fs.closest.toNat) = true
  turned : a.cfPtr < b.cfPtr ∧ fs.checkCfClosest a = false ∨
    b.cfPtr < a.cfPtr ∧ fs.closestMatched a = true

/-- Each such pair has enough candidates in front of it. -/
def Undeceived : Prop :=
  ∀ a ∈ fs.candidates, ∀ b ∈ fs.candidates, fs.Misled a b →
    CMM_MAX - 1 ≤ fs.candidates.countP fun c => fs.RanksAbove fs.closestMatched c a

/-! ## The order of two candidates -/

section Order

variable {fs} {matched : CfMatchMgr S → Bool} {a b : CfMatchMgr S}

theorem tieBreak_iff (hclosest : fs.closest > -1) (hscore : a.score ≠ fs.failureScore) :
    fs.TieBreak matched a b ↔ matched a = true ∧ matched b = false := by
  constructor
  · intro h
    have hdecided := h.decided
    rwa [if_pos hclosest] at hdecided
  · intro h
    refine ⟨hscore, ?_⟩
    rwa [if_pos hclosest]

theorem strictWeak_prefers (matched : CfMatchMgr S → Bool) : StrictWeak (fs.Prefers matched) := by
  refine StrictWeak.lex CfMatchMgr.score ?_ ?_
  · intro a b hab hba
    have hab' := hab.decided
    have hba' := hba.decided
    by_cases hclosest : fs.closest > -1
    · rw [if_pos hclosest] at hab' hba'
      rw [hab'.2] at hba'
      exact Bool.false_ne_true hba'.1
    · rw [if_neg hclosest] at hab' hba'
      exact lt_asymm hab' hba'
  · intro a b c hab _ hac
    have hb : b.score ≠ fs.failureScore := hab ▸ hac.nonFailure
    have hac' := hac.decided
    by_cases hclosest : fs.closest > -1
    · rw [if_pos hclosest] at hac'
      rw [tieBreak_iff hclosest hac.nonFailure, tieBreak_iff hclosest hb]
      cases hmatched : matched b with
      | false => exact .inl ⟨hac'.1, rfl⟩
      | true => exact .inr ⟨rfl, hac'.2⟩
    · rw [if_neg hclosest] at hac'
      rcases lt_or_ge b.sufficiency a.sufficiency with hba | hab'
      · exact .inl ⟨hac.nonFailure, by rwa [if_neg hclosest]⟩
      · refine .inr ⟨hb, ?_⟩
        rw [if_neg hclosest]
        exact lt_of_lt_of_le hac' hab'

instance (matched : CfMatchMgr S → Bool) : IsStrictOrder (CfMatchMgr S) (fs.RanksAbove matched) :=
  (strictWeak_prefers matched).isStrictOrder

theorem overtakes_iff : fs.overtakes b a = true ↔ fs.Prefers fs.checkCfClosest a b := by
  have hfailure : ((fs.useProbability && decide (b.score ≠ (CASE_MATCH_FAILURE_PROB : S))) ||
      (!fs.useProbability && decide (b.score ≠ (CASE_MATCH_FAILURE_SCORE : S)))) = true ↔
      b.score ≠ fs.failureScore := by
    unfold failureScore
    cases fs.useProbability with
    | false => simp
    | true => simp
  rw [overtakes, Prefers, Bool.or_eq_true, decide_eq_true_iff, Bool.and_eq_true, Bool.and_eq_true,
    hfailure, decide_eq_true_iff]
  refine or_congr_right ?_
  constructor
  · rintro ⟨⟨hscore, htie⟩, hdecided⟩
    refine ⟨htie.symm, htie ▸ hscore, ?_⟩
    split
    next hclosest => simpa [hclosest, not_lt.mpr (show (0 : Int) ≤ fs.closest by omega)] using hdecided
    next hclosest => simpa [hclosest, show fs.closest < 0 by omega] using hdecided
  · rintro ⟨htie, hscore, hdecided⟩
    refine ⟨⟨htie ▸ hscore, htie.symm⟩, ?_⟩
    split at hdecided
    next hclosest => simpa [hclosest, not_lt.mpr (show (0 : Int) ≤ fs.closest by omega)] using hdecided
    next hclosest => simpa [hclosest, show fs.closest < 0 by omega] using hdecided

omit [LinearOrder S] [IntCast S] in
theorem closestMatched_eq :
    fs.closestMatched a =
      (decide (0 ≤ a.resultListD.flag fs.closest.toNat) && fs.checkCfClosest a) := rfl

/-- Without a tie that the closest element decides, the test makes no difference. -/
theorem prefers_congr {m n : CfMatchMgr S → Bool}
    (h : ¬ (fs.closest > -1 ∧ a.score = b.score ∧ a.score ≠ fs.failureScore)) :
    fs.Prefers m a b ↔ fs.Prefers n a b := by
  unfold Prefers
  refine or_congr_right (and_congr_right ?_)
  intro htie
  by_cases hscore : a.score = fs.failureScore
  · exact ⟨fun ht => absurd hscore ht.nonFailure, fun ht => absurd hscore ht.nonFailure⟩
  · have hclosest : ¬ fs.closest > -1 := fun hc => h ⟨hc, htie, hscore⟩
    constructor
    · intro ht
      have hdecided := ht.decided
      rw [if_neg hclosest] at hdecided
      exact ⟨hscore, by rwa [if_neg hclosest]⟩
    · intro ht
      have hdecided := ht.decided
      rw [if_neg hclosest] at hdecided
      exact ⟨hscore, by rwa [if_neg hclosest]⟩

theorem prefers_of_tie (hclosest : fs.closest > -1) (htie : a.score = b.score)
    (hscore : a.score ≠ fs.failureScore) :
    fs.Prefers matched a b ↔ matched a = true ∧ matched b = false := by
  rw [Prefers, tieBreak_iff hclosest hscore]
  refine ⟨fun h => (h.resolve_left ?_).2, fun h => .inr ⟨htie, h⟩⟩
  rw [htie]
  exact lt_irrefl _

/-- The pairs that the two tests order in two ways. -/
theorem misled_iff :
    fs.RanksAbove fs.closestMatched a b ∧ fs.RanksAbove fs.checkCfClosest b a ↔
      fs.Misled a b := by
  by_cases htie : fs.closest > -1 ∧ a.score = b.score ∧ a.score ≠ fs.failureScore
  · obtain ⟨hclosest, hscore, hfailure⟩ := htie
    have hfailure' : b.score ≠ fs.failureScore := hscore ▸ hfailure
    have hmisled : fs.Misled a b ↔ b.resultListD.flag fs.closest.toNat < 0 ∧
        fs.checkCfClosest b = true ∧
        (a.cfPtr < b.cfPtr ∧ fs.checkCfClosest a = false ∨
          b.cfPtr < a.cfPtr ∧ fs.closestMatched a = true) :=
      ⟨fun h => ⟨h.noSlot, h.read, h.turned⟩, fun h => ⟨hclosest, hscore, hfailure, h.1, h.2.1, h.2.2⟩⟩
    rw [hmisled, RanksAbove, RanksAbove, Ranks, Ranks, prefers_of_tie hclosest hscore hfailure,
      prefers_of_tie hclosest hscore.symm hfailure', prefers_of_tie hclosest hscore hfailure,
      prefers_of_tie hclosest hscore.symm hfailure', closestMatched_eq, closestMatched_eq]
    rw [← not_le (b := b.resultListD.flag fs.closest.toNat)]
    by_cases hfa : 0 ≤ a.resultListD.flag fs.closest.toNat <;>
      by_cases hfb : 0 ≤ b.resultListD.flag fs.closest.toNat <;>
      cases fs.checkCfClosest a <;> cases fs.checkCfClosest b <;>
      simp [hfa, hfb] <;> omega
  · constructor
    · rintro ⟨hab, hba⟩
      have htie' : ¬ (fs.closest > -1 ∧ b.score = a.score ∧ b.score ≠ fs.failureScore) := by
        rintro ⟨hclosest, hscore, hfailure⟩
        exact htie ⟨hclosest, hscore.symm, hscore ▸ hfailure⟩
      have hba' : fs.RanksAbove fs.closestMatched b a := by
        have hpa := prefers_congr (m := fs.closestMatched) (n := fs.checkCfClosest) htie
        have hpb := prefers_congr (m := fs.closestMatched) (n := fs.checkCfClosest) htie'
        rw [RanksAbove, Ranks, hpa, hpb]
        exact hba
      exact absurd hba' (asymm hab)
    · intro h
      exact absurd ⟨h.closest, h.tie, h.nonFailure⟩ htie

end Order

/-! ## The law -/

omit [LinearOrder S] [IntCast S] in
theorem pairwise_frames : fs.frames.Pairwise (· < ·) := by
  unfold frames
  dsimp only
  split
  · exact List.pairwise_lt_range
  · exact List.pairwise_lt_range.filter _

omit [LinearOrder S] [IntCast S] in
theorem pairwise_candidates :
    fs.candidates.Pairwise fun a b => a.cfPtr < b.cfPtr := by
  rw [candidates, List.pairwise_map]
  refine fs.pairwise_frames.imp ?_
  intro m n hlt
  rw [fs.caseFrameMatch_cfPtr, fs.caseFrameMatch_cfPtr]
  exact hlt

theorem fill_ranked (matched : CfMatchMgr S → Bool) {overtakes : CfMatchMgr S → CfMatchMgr S → Bool}
    (hovertakes : ∀ b a, overtakes b a = true ↔ fs.Prefers matched a b)
    (cmm : Nat → CfMatchMgr S) :
    IsTop (fs.RanksAbove matched) (CMM_MAX - 1) fs.candidates
      (kept (fill overtakes (CMM_MAX - 1) cmm fs.candidates)) := by
  refine fill_top cmm ?_
  refine fs.pairwise_candidates.imp ?_
  intro b a hlt
  exact decides_of_lt hovertakes hlt

/-- No place behind the array is written. -/
theorem findBestCf_of_le {cmm : Nat → CfMatchMgr S} {j : Nat} (hj : CMM_MAX ≤ j) :
    (fs.findBestCf cmm).2 j = cmm j :=
  fill_of_lt hj

omit [LinearOrder S] [IntCast S] in
theorem eq_of_cfPtr_eq {a b : CfMatchMgr S} (ha : a ∈ fs.candidates) (hb : b ∈ fs.candidates)
    (heq : a.cfPtr = b.cfPtr) : a = b := by
  obtain ⟨m, _, rfl⟩ := List.mem_map.mp ha
  obtain ⟨n, _, rfl⟩ := List.mem_map.mp hb
  rw [fs.caseFrameMatch_cfPtr, fs.caseFrameMatch_cfPtr] at heq
  rw [heq]

/-- The candidates that are kept are ranked as they should be just if none that would be kept
is misled by a closest element without a slot. -/
theorem findBestCf_ranked_iff (cmm : Nat → CfMatchMgr S) : fs.Ranked cmm ↔ fs.Undeceived := by
  have hread := fs.fill_ranked fs.checkCfClosest (fun _ _ => overtakes_iff) cmm
  have hdecide : ∀ b a, decide (fs.Prefers fs.closestMatched a b) = true ↔
      fs.Prefers fs.closestMatched a b := by
    intro b a
    exact decide_eq_true_iff
  have hlaw := fs.fill_ranked fs.closestMatched hdecide cmm
  have htotal : ∀ a ∈ fs.candidates, ∀ b ∈ fs.candidates,
      fs.RanksAbove fs.closestMatched a b →
        fs.RanksAbove fs.checkCfClosest a b ∨ fs.RanksAbove fs.checkCfClosest b a := by
    intro a ha b hb hab
    refine Ranks.total ?_
    intro heq
    rw [fs.eq_of_cfPtr_eq ha hb heq] at hab
    exact irrefl b hab
  rw [Ranked, findBestCf, hlaw.iff_agree htotal hread]
  constructor
  · intro h a ha b hb hmisled
    obtain ⟨hab, hba⟩ := misled_iff.mpr hmisled
    exact h a ha b hb hab hba
  · intro h a ha b hb hab hba
    exact h a ha b hb (misled_iff.mp ⟨hab, hba⟩)

/-- Two frames of the same score, neither of which has a slot for the closest element; in front
of `adjacent` the second one has `TRUE`. -/
def twoWithoutSlot : FrameSearch Int where
  useProbability := true
  closest := 0
  hiraganaPreferFlag := 0
  cfNum := 2
  cfPtr := fun n => ⟨0, fun i => n = 1 && i = -2, fun _ => [], fun _ => 0, fun _ => 0, []⟩
  cfSum := fun _ => false
  hiragana := fun _ => false
  caseFrameMatch := fun n => ⟨n, 0, 0, 0, ⟨fun _ => UNASSIGNED, fun _ => 0, fun _ => 0⟩,
    ⟨fun _ => NIL_ASSIGNED, fun _ => 0, fun _ => 0⟩⟩
  caseFrameMatch_cfPtr := fun _ => rfl

theorem twoWithoutSlot_turned : ¬ twoWithoutSlot.Ranked twoWithoutSlot.caseFrameMatch := by
  intro h
  have hsorted := h.sorted
  revert hsorted
  decide

end FrameSearch

end Knp
