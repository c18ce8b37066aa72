import Mathlib
import Knp.BestFrame
import Knp.ExchangeSort

/-!
# The order of tied case frames (`case_analysis.c`)

With a closest element the frames are compared by its score alone. In the end
`find_best_cf` puts the normalised score of all elements in its place, and sorts the
frames that were tied: the better score comes first, or the more frequent example.

> The order is that of the scores, with the frequencies for ties, and every frame has its
> normalised score, just if no frame has a lower score and a more frequent example than
> another tied one, and no frame behind one that cannot be normalised needs it.

The two tests are joined by `||`, and the normalisation ends with the first frame for
which it is not defined.
-/

namespace Knp

/-- The frames that are kept, and what is read about them. -/
structure TieSearch (S : Type*) extends FrameSearch S where
  oblig : Nat → Nat → Bool
  /-- `ex_freq` of a frame and a slot, or `NULL` -/
  exFreq : Nat → Nat → Option (Nat → Int)
  /-- the quotient by a square root -/
  divSqrt : S → Nat → S
  resultNum : Nat
  cmm : Nat → CfMatchMgr S
  hasClosest : closest > -1
  distinct : ∀ i < resultNum, ∀ j < resultNum, (cmm i).cfPtr = (cmm j).cfPtr → i = j

namespace TieSearch

variable {S : Type*} [LinearOrder S] [IntCast S] (ts : TieSearch S)

/-! ## The two loops -/

/-- スコアが同点の格フレームの個数 -/
def tieNum : Nat :=
  if 0 < ts.resultNum ∧ (ts.cmm 0).score ≠ ts.failureScore then
    1 + ((List.range (ts.resultNum - 1)).takeWhile fun i =>
      (ts.cmm (i + 1)).score = (ts.cmm 0).score).length
  else 0

/-- `count_pat_element` -/
def countPatElement (cmm : CfMatchMgr S) : Nat :=
  (List.range (ts.cfPtr cmm.cfPtr).elementNum).countP fun i =>
    !(!ts.oblig cmm.cfPtr i && cmm.resultListP.flag i = UNASSIGNED)

/-- 割り当て失敗のとき, 入力側に任意格しかなく割り当てがないとき -/
def isUndefined (cmm : CfMatchMgr S) : Bool :=
  cmm.score < ((0 : Int) : S) || ts.countPatElement cmm = 0

def normalise (cmm : CfMatchMgr S) : CfMatchMgr S :=
  { cmm with
    score := if ts.useProbability then cmm.pureScore
      else ts.divSqrt cmm.pureScore (ts.countPatElement cmm) }

/-- すべての格のスコアを足して正規化したものにする, for `k` frames from `i` on. -/
def normaliseLoop : Nat → Nat → (Nat → CfMatchMgr S) → (Nat → CfMatchMgr S)
  | 0, _, cmm => cmm
  | k + 1, i, cmm =>
      if ts.isUndefined (cmm i) then cmm
      else normaliseLoop k (i + 1) (Function.update cmm i (ts.normalise (cmm i)))

def normaliseAll : Nat → CfMatchMgr S := ts.normaliseLoop ts.resultNum 0 ts.cmm

/-- `ex_freq[slot][pos]` of the example that the closest element matched. -/
def matchedFreq (cmm : CfMatchMgr S) : Option Int :=
  let slot := cmm.resultListD.flag ts.closest.toNat
  if 0 ≤ slot then
    match ts.exFreq cmm.cfPtr slot.toNat with
    | some freq =>
        let pos := cmm.resultListP.pos slot.toNat
        if 0 ≤ pos then some (freq pos.toNat) else none
    | none => none
  else none

/-- マッチした用例頻度の大きい方を選択 -/
def hasLargerFreq (a b : CfMatchMgr S) : Bool :=
  match ts.matchedFreq a, ts.matchedFreq b with
  | some f, some g => g < f
  | _, _ => false

/-- The test for `cmm[i]` and `cmm[j]`. -/
def exchanges (a b : CfMatchMgr S) : Bool := b.score < a.score || ts.hasLargerFreq a b

/-- 直前格スコアが同点の格フレームを、すべてのスコアでsort -/
def rerank : Nat → CfMatchMgr S := ExchangeSort.sort ts.exchanges ts.tieNum ts.normaliseAll

/-! ## The order -/

/-- `a` comes before `b`. -/
def Better (a b : CfMatchMgr S) : Prop :=
  b.score < a.score ∨ a.score = b.score ∧ ts.hasLargerFreq a b = true

/-- The frame with its normalised score, if that is defined. -/
def full (cmm : CfMatchMgr S) : CfMatchMgr S :=
  if ts.isUndefined cmm then cmm else ts.normalise cmm

/-- The law: the tied frames are in the order of their scores, the test asks for a frequency
between equal scores only, and every frame that is kept has its normalised score. -/
structure Reranked : Prop where
  sorted : ∀ i j, i < j → j < ts.tieNum → (ts.rerank j).score ≤ (ts.rerank i).score
  decides : ∀ i < ts.tieNum, ∀ j < ts.tieNum,
    ts.exchanges (ts.normaliseAll i) (ts.normaliseAll j) = true ↔
      ts.Better (ts.normaliseAll i) (ts.normaliseAll j)
  carries : ∀ i < ts.resultNum, ∃ k < ts.resultNum, ts.rerank k = ts.full (ts.cmm i)

/-- Behind a frame that cannot be normalised the scores are normalised already, and no tied frame
has a lower score than another one and a more frequent example. -/
structure Consistent : Prop where
  behind : ∀ i < ts.resultNum, ∀ l < i, ts.isUndefined (ts.cmm l) = true →
    ts.isUndefined (ts.cmm i) = false → (ts.normalise (ts.cmm i)).score = (ts.cmm i).score
  noInversion : ∀ i < ts.tieNum, ∀ j < ts.tieNum,
    (ts.full (ts.cmm i)).score < (ts.full (ts.cmm j)).score →
      ts.hasLargerFreq (ts.cmm i) (ts.cmm j) = false

section Order

variable {ts} {a b c : CfMatchMgr S}

omit [LinearOrder S] [IntCast S] in
theorem hasLargerFreq_iff :
    ts.hasLargerFreq a b = true ↔
      ∃ f g, ts.matchedFreq a = some f ∧ ts.matchedFreq b = some g ∧ g < f := by
  unfold hasLargerFreq
  cases ts.matchedFreq a with
  | none => simp
  | some f =>
      cases ts.matchedFreq b with
      | none => simp
      | some g => simp

omit [LinearOrder S] [IntCast S] in
theorem hasLargerFreq_trans (hab : ts.hasLargerFreq a b = true)
    (hbc : ts.hasLargerFreq b c = true) :
    ts.hasLargerFreq a c = true := by
  obtain ⟨f, g, hf, hg, hgf⟩ := hasLargerFreq_iff.mp hab
  obtain ⟨g', h, hg', hh, hhg⟩ := hasLargerFreq_iff.mp hbc
  rw [hg] at hg'
  cases hg'
  exact hasLargerFreq_iff.mpr ⟨f, h, hf, hh, hhg.trans hgf⟩

instance : IsStrictOrder (CfMatchMgr S) ts.Better where
  irrefl a h := by
    rcases h with h | ⟨-, h⟩
    · exact lt_irrefl _ h
    · obtain ⟨f, g, hf, hg, hlt⟩ := hasLargerFreq_iff.mp h
      rw [hf] at hg
      cases hg
      exact lt_irrefl _ hlt
  trans a b c hab hbc := by
    rcases hab with hab | ⟨hab, hfab⟩
    · rcases hbc with hbc | ⟨hbc, -⟩
      · exact .inl (hbc.trans hab)
      · exact .inl (hbc ▸ hab)
    · rcases hbc with hbc | ⟨hbc, hfbc⟩
      · exact .inl (hab ▸ hbc)
      · exact .inr ⟨hab.trans hbc, hasLargerFreq_trans hfab hfbc⟩

omit [IntCast S] in
theorem exchanges_iff :
    ts.exchanges a b = true ↔ b.score < a.score ∨ ts.hasLargerFreq a b = true := by
  rw [exchanges, Bool.or_eq_true, decide_eq_true_iff]

omit [IntCast S] in
/-- The test is the order where the frequency does not speak against the score. -/
theorem exchanges_iff_better :
    (ts.exchanges a b = true ↔ ts.Better a b) ↔
      (a.score < b.score → ts.hasLargerFreq a b = false) := by
  rw [exchanges_iff, Better]
  constructor
  · intro h hlt
    by_contra hfreq
    rw [Bool.not_eq_false] at hfreq
    rcases h.mp (.inr hfreq) with hgt | ⟨heq, -⟩
    · exact lt_asymm hlt hgt
    · exact hlt.ne heq
  · intro h
    constructor
    · rintro (hgt | hfreq)
      · exact .inl hgt
      · rcases lt_trichotomy a.score b.score with hlt | heq | hgt
        · rw [h hlt] at hfreq
          cases hfreq
        · exact .inr ⟨heq, hfreq⟩
        · exact .inl hgt
    · rintro (hgt | ⟨-, hfreq⟩)
      · exact .inl hgt
      · exact .inr hfreq

end Order

/-! ## The normalisation -/

theorem normaliseLoop_apply (k i : Nat) (cmm : Nat → CfMatchMgr S) (m : Nat) :
    ts.normaliseLoop k i cmm m =
      if i ≤ m ∧ m < i + k ∧ ∀ l, i ≤ l → l ≤ m → ts.isUndefined (cmm l) = false then
        ts.normalise (cmm m)
      else cmm m := by
  induction k generalizing i cmm with
  | zero =>
      rw [normaliseLoop, if_neg]
      omega
  | succ k ih =>
      rw [normaliseLoop]
      by_cases hi : ts.isUndefined (cmm i) = true
      · rw [if_pos hi, if_neg]
        rintro ⟨him, -, hall⟩
        rw [hall i le_rfl him] at hi
        cases hi
      · rw [if_neg hi, ih]
        have hother : ∀ l, l ≠ i →
            Function.update cmm i (ts.normalise (cmm i)) l = cmm l :=
          fun l hl => Function.update_of_ne hl _ _
        rcases eq_or_ne m i with hm | hm
        · subst hm
          rw [if_neg (by omega), if_pos, Function.update_self]
          refine ⟨le_rfl, by omega, ?_⟩
          intro l hml hlm
          rw [Nat.le_antisymm hlm hml]
          exact Bool.eq_false_iff.mpr hi
        · rw [hother m hm]
          refine if_congr ?_ rfl rfl
          constructor
          · rintro ⟨him, hmk, hall⟩
            refine ⟨by omega, by omega, ?_⟩
            intro l hil hlm
            rcases Nat.eq_or_lt_of_le hil with hl | hl
            · rw [← hl]
              exact Bool.eq_false_iff.mpr hi
            · rw [← hother l (by omega)]
              exact hall l hl hlm
          · rintro ⟨him, hmk, hall⟩
            refine ⟨by omega, by omega, ?_⟩
            intro l hil hlm
            rw [hother l (by omega)]
            exact hall l (by omega) hlm

theorem normaliseAll_apply {m : Nat} (hm : m < ts.resultNum) :
    ts.normaliseAll m =
      if ∀ l ≤ m, ts.isUndefined (ts.cmm l) = false then ts.normalise (ts.cmm m)
      else ts.cmm m := by
  rw [normaliseAll, normaliseLoop_apply]
  refine if_congr ?_ rfl rfl
  constructor
  · intro h l hl
    exact h.2.2 l (Nat.zero_le l) hl
  · intro h
    exact ⟨Nat.zero_le m, by omega, fun l _ hl => h l hl⟩

theorem normaliseAll_cfPtr {m : Nat} (hm : m < ts.resultNum) :
    (ts.normaliseAll m).cfPtr = (ts.cmm m).cfPtr := by
  rw [ts.normaliseAll_apply hm]
  split
  · rfl
  · rfl

theorem full_cfPtr (cmm : CfMatchMgr S) : (ts.full cmm).cfPtr = cmm.cfPtr := by
  rw [full]
  split
  · rfl
  · rfl

/-- A frame has its normalised score just if none in front of it stops the loop, or it has the
score already. -/
theorem normaliseAll_eq_full_iff {m : Nat} (hm : m < ts.resultNum) :
    ts.normaliseAll m = ts.full (ts.cmm m) ↔
      ∀ l < m, ts.isUndefined (ts.cmm l) = true → ts.isUndefined (ts.cmm m) = false →
        (ts.normalise (ts.cmm m)).score = (ts.cmm m).score := by
  rw [ts.normaliseAll_apply hm, full]
  cases hundef : ts.isUndefined (ts.cmm m) with
  | true =>
      rw [if_neg, if_pos rfl]
      · exact iff_of_true rfl fun l _ _ h => by cases h
      · intro h
        rw [h m le_rfl] at hundef
        cases hundef
  | false =>
      rw [if_neg Bool.false_ne_true]
      split
      next hall =>
        refine iff_of_true rfl ?_
        intro l hl hstop
        rw [hall l hl.le] at hstop
        cases hstop
      next hstop =>
        push Not at hstop
        obtain ⟨l, hl, hl'⟩ := hstop
        have hlm : l < m := by
          rcases Nat.eq_or_lt_of_le hl with h | h
          · rw [h, hundef] at hl'
            exact absurd rfl hl'
          · exact h
        constructor
        · intro h _ _ _ _
          rw [← h]
        · intro h
          have hscore := h l hlm (Bool.not_eq_false _ ▸ hl') rfl
          calc ts.cmm m = { ts.cmm m with score := (ts.cmm m).score } := rfl
            _ = { ts.cmm m with score := (ts.normalise (ts.cmm m)).score } := by rw [hscore]
            _ = ts.normalise (ts.cmm m) := rfl

/-! ## The result -/

theorem tieNum_le : ts.tieNum ≤ ts.resultNum := by
  unfold tieNum
  split
  next h =>
    have hlen := (List.takeWhile_prefix (l := List.range (ts.resultNum - 1))
      fun i => decide ((ts.cmm (i + 1)).score = (ts.cmm 0).score)).length_le
    rw [List.length_range] at hlen
    omega
  next => exact Nat.zero_le _

theorem rerank_rearranges : ExchangeSort.Rearranges ts.resultNum ts.normaliseAll ts.rerank :=
  (ExchangeSort.sort_rearranges _ _).mono ts.tieNum_le

theorem carries_iff :
    (∀ i < ts.resultNum, ∃ k < ts.resultNum, ts.rerank k = ts.full (ts.cmm i)) ↔
      ∀ i < ts.resultNum, ts.normaliseAll i = ts.full (ts.cmm i) := by
  constructor
  · intro h i hi
    obtain ⟨k, hk, hkfull⟩ := h i hi
    obtain ⟨l, hl, hkl⟩ := ts.rerank_rearranges.source hk
    have hcf := congrArg CfMatchMgr.cfPtr (hkl.symm.trans hkfull)
    rw [ts.normaliseAll_cfPtr hl, ts.full_cfPtr] at hcf
    have hli := ts.distinct l hl i hi hcf
    rw [← hkfull, hkl, hli]
  · intro h i hi
    obtain ⟨k, hk, hki⟩ := ts.rerank_rearranges.target hi
    exact ⟨k, hk, hki.trans (h i hi)⟩

theorem hasLargerFreq_full (a b : CfMatchMgr S) :
    ts.hasLargerFreq (ts.full a) (ts.full b) = ts.hasLargerFreq a b := by
  have hfull : ∀ c, ts.matchedFreq (ts.full c) = ts.matchedFreq c := by
    intro c
    rw [full]
    split
    · rfl
    · rfl
  rw [hasLargerFreq, hasLargerFreq, hfull, hfull]

/-- Two tied frames whose only element matched: the first has the better score, the second the more
frequent example. -/
def frequentSecond : TieSearch Int where
  useProbability := false
  closest := 0
  hiraganaPreferFlag := 0
  cfNum := 2
  cfPtr := fun _ => ⟨1, fun _ => true, fun _ => [], fun _ => 0, fun _ => 0, []⟩
  cfSum := fun _ => false
  hiragana := fun _ => false
  caseFrameMatch := fun n => ⟨n, 8, if n = 0 then 10 else 9, 1,
    ⟨fun _ => 0, fun _ => 8, fun _ => 0⟩,
    ⟨fun _ => 0, fun _ => 8, fun _ => 0⟩⟩
  caseFrameMatch_cfPtr := fun _ => rfl
  oblig := fun _ _ => true
  exFreq := fun n _ => some fun _ => if n = 0 then 1 else 2
  divSqrt := fun x n => x / Nat.sqrt n
  resultNum := 2
  cmm := fun n => ⟨n, 8, if n = 0 then 10 else 9, 1, ⟨fun _ => 0, fun _ => 8, fun _ => 0⟩,
    ⟨fun _ => 0, fun _ => 8, fun _ => 0⟩⟩
  hasClosest := by decide
  distinct := fun _ _ _ _ h => h

end TieSearch

end Knp
