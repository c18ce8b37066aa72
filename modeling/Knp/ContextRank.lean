import Knp.BestDistinct
import Knp.BestFrame
import Knp.CaseMatch
import Knp.StepRun
import Knp.TopInsert

/-!
# The frames of discourse analysis in their order (`context.c`)

`FindBestCFforContext` keeps the best results of all calls in `maxem`. A result that wins goes in
at the front; another one is put behind those that are kept, unless it is there already, and
moves forward past worse ones.

> The best distinct results are kept as long as no step reads what is not there, puts in front
> what is there already, or takes two assignments for the same one or one for two.

Whether a result wins is asked of the first one that is kept, also if there is none; and
whether an assignment is there already is asked of the slots of the one that is kept only.
-/

namespace Knp

open BestDistinct TopInsert

/-- What is read of a `CASE_FRAME`. -/
structure ContextFrame where
  elementNum : Nat
  adjacent : Nat → Bool
  exFreq : Nat → Nat → Int

/-- A result for a case frame, `cfPtr` being the number of the frame. `elem_b_ptr` is read
with any number. -/
structure ContextResult (S : Type*) where
  cfPtr : Nat
  score : S
  elementNum : Nat
  elemBPtr : Int → Option Nat
  resultListP : AssignList S

/-- The part of `maxem` with the results: `result_num` and `ecmm`. -/
structure MaxEm (S : Type*) where
  score : S
  ecmm : Nat × (Nat → ContextResult S)

section Compare

variable {S : Type*} (cf : Nat → ContextFrame) (a b : ContextResult S)

/-- `CompareCPM`: 異なる場合は 1 を返す -/
def compareCpm : Bool :=
  a.elementNum ≠ b.elementNum ||
    (List.range a.elementNum).any fun i =>
      !(List.range b.elementNum).any fun j => a.elemBPtr i = b.elemBPtr j

/-- A slot in which `CompareCMM` ends. -/
def slotDiffers (i : Nat) : Bool :=
  a.resultListP.flag i ≠ UNASSIGNED &&
    a.elemBPtr (a.resultListP.flag i) ≠ b.elemBPtr (b.resultListP.flag i)

/-- `CompareCMM`: 異なる場合は 1 を返す -/
def compareCmm : Bool := (List.range (cf a.cfPtr).elementNum).any (slotDiffers a b)

/-- The numbers with which `CompareCMM` reads `elem_b_ptr`, from the first of the slots on. -/
def cmmReads : List Nat → List Int
  | [] => []
  | i :: slots =>
      (if a.resultListP.flag i ≠ UNASSIGNED then [a.resultListP.flag i, b.resultListP.flag i]
        else []) ++ if slotDiffers a b i then [] else cmmReads slots

/-- 同じものがすでにある場合 -/
def sameEntry : Bool :=
  a.cfPtr = b.cfPtr && a.elementNum = b.elementNum && !compareCpm a b && !compareCmm cf a b

/-- The numbers with which `CompareAssignList` reads `elem_b_ptr`. -/
def assignListReads (b : ContextResult S) : List (ContextResult S) → List Int
  | [] => []
  | a :: entries =>
      (if a.cfPtr = b.cfPtr ∧ a.elementNum = b.elementNum ∧ compareCpm a b = false then
        cmmReads a b (List.range (cf a.cfPtr).elementNum) else []) ++
      if sameEntry cf a b then [] else assignListReads b entries

/-- The slots filled by the closest element, and the score of the last of them. -/
def closestScore [Zero S] : Nat × S :=
  (List.range (cf a.cfPtr).elementNum).foldl (fun s i =>
    if a.resultListP.flag i ≠ UNASSIGNED && (cf a.cfPtr).adjacent i then
      (s.1 + 1, a.resultListP.score i)
    else s) (0, 0)

/-- `CompareClosestScore` -/
def compareClosestScore [Zero S] [LinearOrder S] : Bool :=
  (closestScore cf a).1 < (closestScore cf b).1 ||
    ((closestScore cf a).1 = (closestScore cf b).1 && (closestScore cf a).2 < (closestScore cf b).2)

/-- マッチした直前格の用例の頻度; 直前格が複数あれば足す -/
def closestExFrequency : Int :=
  (List.range (cf a.cfPtr).elementNum).foldl (fun freq i =>
    if a.resultListP.flag i ≠ UNASSIGNED && (cf a.cfPtr).adjacent i &&
        0 ≤ a.resultListP.pos i then
      freq + (cf a.cfPtr).exFreq i (a.resultListP.pos i).toNat
    else freq) 0

/-- `CompareClosestExFrequency` -/
def compareClosestExFrequency : Bool := closestExFrequency cf a < closestExFrequency cf b

end Compare

section Search

variable {S : Type*} [LinearOrder S] [Zero S] (cf : Nat → ContextFrame)

namespace MaxEm

variable (em : MaxEm S) (c : ContextResult S)

/-- `ecmm[0 .. result_num)` -/
def entries : List (ContextResult S) := kept em.ecmm

/-- スコアが最大, or as good and preferred for its closest element. -/
def wins : Bool :=
  em.score < c.score ||
    (c.score = em.score &&
      (compareClosestScore cf (em.ecmm.2 0) c || compareClosestExFrequency cf (em.ecmm.2 0) c))

/-- `CompareAssignList` -/
def compareAssignList : Bool := !em.entries.any fun a => sameEntry cf a c

/-- One result of `FindBestCFforContext`. -/
def step : MaxEm S :=
  if em.wins cf c then ⟨c.score, push (CMM_MAX - 1) em.ecmm c⟩
  else if em.compareAssignList cf c then
    -- 新しい種類の格フレーム(割り当て)を保存
    { em with ecmm := add (fun a b => a.score < b.score) (CMM_MAX - 1) em.ecmm c }
  else em

/-- The numbers of the entries that are read to place a result. -/
def entryReads : List Nat :=
  (if ¬em.score < c.score ∧ c.score = em.score then [0] else []) ++
    if em.wins cf c then []
    else List.range (min em.ecmm.1 (em.entries.findIdx (fun a => sameEntry cf a c) + 1))

end MaxEm

/-- The results of the frames that a call tries: OR の格フレームを除く. -/
def triedFrames (frames : List (Bool × ContextResult S)) : List (ContextResult S) :=
  (frames.filter fun f => !(f.1 && frames.length ≠ 1)).map Prod.snd

/-- `FindBestCFforContext`, each frame with `etcflag & CF_SUM`. -/
def findBestCfForContext (em : MaxEm S) (frames : List (Bool × ContextResult S)) : MaxEm S :=
  (triedFrames frames).foldl (fun em c => em.step cf c) em

/-! ## The law -/

/-- The tag in a slot, `none` for a slot that is not filled. -/
def ContextResult.tag (a : ContextResult S) (i : Nat) : Option (Option Nat) :=
  if a.resultListP.flag i = UNASSIGNED then none else some (a.elemBPtr (a.resultListP.flag i))

/-- The same frame and the same tags in its slots. -/
structure SameAssignment (a b : ContextResult S) : Prop where
  cfPtr : a.cfPtr = b.cfPtr
  tag : ∀ i < (cf a.cfPtr).elementNum, a.tag i = b.tag i

/-- The results that have been tried, and `maxem`. -/
abbrev ContextSearch (S : Type*) := List (ContextResult S) × MaxEm S

def searchStep (t : ContextSearch S) (c : ContextResult S) : ContextSearch S :=
  (t.1 ++ [c], t.2.step cf c)

/-- `maxem` before the first call; `ecmm` is what stands in the array. -/
def startSearch [IntCast S] (ecmm : Nat → ContextResult S) : ContextSearch S :=
  ([], ⟨(CASE_MATCH_FAILURE_SCORE : S), 0, ecmm⟩)

/-- The law of the results; `score` of `maxem` bounds their scores. -/
structure RankedEm (t : ContextSearch S) : Prop where
  resultNum : t.2.ecmm.1 ≤ CMM_MAX - 1
  best : BestOf (SameAssignment cf) ContextResult.score (CMM_MAX - 1) t.1 t.2.entries
  bound : ∀ a ∈ t.2.entries, a.score ≤ t.2.score

/-- The law of the reads. -/
structure ReadsThere (em : MaxEm S) (c : ContextResult S) : Prop where
  entry : ∀ e ∈ em.entryReads cf c, e < em.ecmm.1
  element : em.wins cf c = false → ∀ i ∈ assignListReads cf c em.entries, i ≠ UNASSIGNED

/-- `CompareCMM` is right for an entry and a result of the same frame: the slot in which it ends,
and each one before, is filled in both or not filled in the entry; if it ends nowhere, the result
fills no other slots. -/
structure Comparable (a c : ContextResult S) : Prop where
  read : ∀ i < (cf a.cfPtr).elementNum, (∀ i' < i, slotDiffers a c i' = false) →
    a.resultListP.flag i ≠ UNASSIGNED → c.resultListP.flag i ≠ UNASSIGNED
  whole : (∀ i < (cf a.cfPtr).elementNum, slotDiffers a c i = false) →
    ∀ i < (cf a.cfPtr).elementNum,
      c.resultListP.flag i ≠ UNASSIGNED → a.resultListP.flag i ≠ UNASSIGNED

/-- The condition of a step. -/
structure Reliable (em : MaxEm S) (c : ContextResult S) : Prop where
  first : c.score = em.score → 0 < em.ecmm.1
  front : em.wins cf c = true → ∀ a ∈ em.entries, ¬SameAssignment cf a c
  reached : em.wins cf c = false → ∀ l₁ a l₂, em.entries = l₁ ++ a :: l₂ →
    (∀ x ∈ l₁, ¬SameAssignment cf x c) → a.cfPtr = c.cfPtr → compareCpm a c = false →
    Comparable cf a c
  again : em.wins cf c = false → ∀ a ∈ em.entries, SameAssignment cf a c →
    compareCpm a c = false ∧ c.score ≤ a.score

/-! ## Comparing -/

section Comparing

variable {cf} {a b c : ContextResult S} {em : MaxEm S}

omit [LinearOrder S] [Zero S]

theorem SameAssignment.refl (a : ContextResult S) : SameAssignment cf a a :=
  ⟨rfl, fun _ _ => rfl⟩

theorem SameAssignment.symm (h : SameAssignment cf a b) : SameAssignment cf b a := by
  refine ⟨h.cfPtr.symm, fun i hi => (h.tag i ?_).symm⟩
  rw [h.cfPtr]
  exact hi

theorem slotDiffers_eq_false (h : a.tag i = b.tag i) : slotDiffers a b i = false := by
  unfold ContextResult.tag at h
  unfold slotDiffers
  by_cases ha : a.resultListP.flag i = UNASSIGNED
  · simp [ha]
  · rw [if_neg ha] at h
    split at h
    · cases h
    · simp [Option.some.inj h]

theorem SameAssignment.sameEntry (h : SameAssignment cf a b) (hcpm : compareCpm a b = false) :
    sameEntry cf a b = true := by
  have hnum : a.elementNum = b.elementNum := by
    by_contra hne
    rw [compareCpm, decide_eq_true hne, Bool.true_or] at hcpm
    cases hcpm
  have hcmm : compareCmm cf a b = false := by
    rw [compareCmm, List.any_eq_false]
    intro i hi
    rw [slotDiffers_eq_false (h.tag i (List.mem_range.mp hi))]
    exact Bool.false_ne_true
  simp [Knp.sameEntry, h.cfPtr, hnum, hcpm, hcmm]

theorem sameEntry_spec (h : sameEntry cf a b = true) :
    a.cfPtr = b.cfPtr ∧ compareCpm a b = false ∧ compareCmm cf a b = false := by
  simp only [sameEntry, Bool.and_eq_true, decide_eq_true_eq, Bool.not_eq_true'] at h
  exact ⟨h.1.1.1, h.1.2, h.2⟩

/-- What is taken for the same is the same. -/
theorem Comparable.sameAssignment (h : Comparable cf a b) (hcf : a.cfPtr = b.cfPtr)
    (hcmm : compareCmm cf a b = false) : SameAssignment cf a b := by
  have hslots : ∀ i < (cf a.cfPtr).elementNum, slotDiffers a b i = false := by
    intro i hi
    have hnot := List.any_eq_false.mp hcmm i (List.mem_range.mpr hi)
    exact Bool.eq_false_iff.mpr hnot
  refine ⟨hcf, fun i hi => ?_⟩
  unfold ContextResult.tag
  by_cases ha : a.resultListP.flag i = UNASSIGNED
  · have hb : b.resultListP.flag i = UNASSIGNED := by
      by_contra hne
      exact h.whole hslots i hi hne ha
    rw [if_pos ha, if_pos hb]
  · have hb := h.read i hi (fun i' hi' => hslots i' (hi'.trans hi)) ha
    have heq : a.elemBPtr (a.resultListP.flag i) = b.elemBPtr (b.resultListP.flag i) := by
      simpa [slotDiffers, ha] using hslots i hi
    rw [if_neg ha, if_neg hb, heq]

/-! ## Reading -/

theorem mem_cmmReads {slots : List Nat} {x : Int} (h : x ∈ cmmReads a b slots) :
    ∃ l₁ i l₂, slots = l₁ ++ i :: l₂ ∧ (∀ i' ∈ l₁, slotDiffers a b i' = false) ∧
      a.resultListP.flag i ≠ UNASSIGNED ∧
        (x = a.resultListP.flag i ∨ x = b.resultListP.flag i) := by
  induction slots with
  | nil => cases h
  | cons i slots ih =>
      rw [cmmReads] at h
      rcases List.mem_append.mp h with h | h
      · split at h
        next ha =>
          refine ⟨[], i, slots, rfl, List.forall_mem_nil _, ha, ?_⟩
          rcases List.mem_cons.mp h with rfl | h
          · exact .inl rfl
          · exact .inr (List.mem_singleton.mp h)
        next => cases h
      · split at h
        next => cases h
        next hsame =>
          obtain ⟨l₁, j, l₂, rfl, hbefore, hrest⟩ := ih h
          refine ⟨i :: l₁, j, l₂, rfl, ?_, hrest⟩
          exact List.forall_mem_cons.mpr ⟨Bool.eq_false_iff.mpr hsame, hbefore⟩

theorem Comparable.cmmReads (h : Comparable cf a b) :
    ∀ x ∈ cmmReads a b (List.range (cf a.cfPtr).elementNum), x ≠ UNASSIGNED := by
  intro x hx
  obtain ⟨l₁, i, l₂, hslots, hbefore, ha, hread⟩ := mem_cmmReads hx
  have hmem : i ∈ List.range (cf a.cfPtr).elementNum := by
    rw [hslots]
    exact List.mem_append_right _ List.mem_cons_self
  have hsorted : (l₁ ++ i :: l₂).Pairwise (· < ·) := hslots ▸ List.pairwise_lt_range
  have hall : ∀ i' < i, slotDiffers a b i' = false := by
    intro i' hi'
    have hmem' : i' ∈ l₁ ++ i :: l₂ := by
      rw [← hslots]
      exact List.mem_range.mpr (hi'.trans (List.mem_range.mp hmem))
    rcases List.mem_append.mp hmem' with hfront | hback
    · exact hbefore i' hfront
    · rcases List.mem_cons.mp hback with rfl | hback
      · exact absurd hi' (Nat.lt_irrefl _)
      · have hlt := (List.pairwise_cons.mp (List.pairwise_append.mp hsorted).2.1).1 i' hback
        omega
  rcases hread with rfl | rfl
  · exact ha
  · exact h.read i (List.mem_range.mp hmem) hall ha

theorem mem_assignListReads {l : List (ContextResult S)} {x : Int}
    (h : x ∈ assignListReads cf b l) :
    ∃ l₁ a l₂, l = l₁ ++ a :: l₂ ∧ (∀ y ∈ l₁, sameEntry cf y b = false) ∧ a.cfPtr = b.cfPtr ∧
      compareCpm a b = false ∧ x ∈ Knp.cmmReads a b (List.range (cf a.cfPtr).elementNum) := by
  induction l with
  | nil => cases h
  | cons a l ih =>
      rw [assignListReads] at h
      rcases List.mem_append.mp h with h | h
      · split at h
        next hsame => exact ⟨[], a, l, rfl, List.forall_mem_nil _, hsame.1, hsame.2.2, h⟩
        next => cases h
      · split at h
        next => cases h
        next hother =>
          obtain ⟨l₁, a', l₂, rfl, hbefore, hrest⟩ := ih h
          refine ⟨a :: l₁, a', l₂, rfl, ?_, hrest⟩
          exact List.forall_mem_cons.mpr ⟨Bool.eq_false_iff.mpr hother, hbefore⟩

end Comparing

/-! ## One step -/

section Step

variable {cf} {c : ContextResult S} {em : MaxEm S} {seen : List (ContextResult S)}

theorem Reliable.not_same (h : Reliable cf em c) (hwins : em.wins cf c = false)
    {a : ContextResult S} (ha : a ∈ em.entries) (hother : sameEntry cf a c = false) :
    ¬SameAssignment cf a c := by
  intro hsame
  rw [hsame.sameEntry (h.again hwins a ha hsame).1] at hother
  cases hother

/-- The entries up to the first that is taken for the same can be compared. -/
theorem Reliable.comparable (h : Reliable cf em c) (hwins : em.wins cf c = false)
    {l₁ l₂ : List (ContextResult S)} {a : ContextResult S} (hentries : em.entries = l₁ ++ a :: l₂)
    (hbefore : ∀ x ∈ l₁, sameEntry cf x c = false) (hcf : a.cfPtr = c.cfPtr)
    (hcpm : compareCpm a c = false) : Comparable cf a c := by
  refine h.reached hwins l₁ a l₂ hentries (fun x hx => h.not_same hwins ?_ (hbefore x hx)) hcf hcpm
  rw [hentries]
  exact List.mem_append_left _ hx

theorem Reliable.readsThere (h : Reliable cf em c) : ReadsThere cf em c := by
  constructor
  · intro e he
    rcases List.mem_append.mp he with he | he
    · split at he
      next htie =>
        rw [List.mem_singleton.mp he]
        exact h.first htie.2
      next => cases he
    · split at he
      next => cases he
      next => exact (List.mem_range.mp he).trans_le (min_le_left _ _)
  · intro hwins i hi
    obtain ⟨l₁, a, l₂, hentries, hbefore, hcf, hcpm, hread⟩ := mem_assignListReads hi
    exact (h.comparable hwins hentries hbefore hcf hcpm).cmmReads i hread

/-- A result that is not new: an entry has its assignment and is as good. -/
theorem Reliable.exists_same (h : Reliable cf em c) (hwins : em.wins cf c = false)
    (hold : em.compareAssignList cf c = false) :
    ∃ a ∈ em.entries, SameAssignment cf a c ∧ c.score ≤ a.score := by
  have hany : em.entries.any (fun a => sameEntry cf a c) = true :=
    Bool.not_inj (hold : (!_) = !true)
  cases hfind : em.entries.find? fun a => sameEntry cf a c with
  | none =>
      obtain ⟨a, ha, hsame⟩ := List.any_eq_true.mp hany
      exact absurd hsame (List.find?_eq_none.mp hfind a ha)
  | some a =>
      obtain ⟨hsame, l₁, l₂, hentries, hbefore⟩ := List.find?_eq_some_iff_append.mp hfind
      obtain ⟨hcf, hcpm, hcmm⟩ := sameEntry_spec hsame
      have ha : a ∈ em.entries := List.mem_of_find?_eq_some hfind
      have hassign := (h.comparable hwins hentries
        (fun x hx => Bool.not_inj (hbefore x hx : (!_) = !false)) hcf hcpm).sameAssignment hcf hcmm
      exact ⟨a, ha, hassign, (h.again hwins a ha hassign).2⟩

theorem Reliable.new (h : Reliable cf em c) (hwins : em.wins cf c = false)
    (hnew : em.compareAssignList cf c = true) : ∀ a ∈ em.entries, ¬SameAssignment cf a c := by
  intro a ha
  refine h.not_same hwins ha ?_
  have hany : em.entries.any (fun a => sameEntry cf a c) = false :=
    Bool.not_inj (hnew : (!_) = !false)
  exact Bool.eq_false_iff.mpr (List.any_eq_false.mp hany a ha)

/-- A result that wins is as good as any. -/
theorem score_le_of_wins (hwins : em.wins cf c = true) : em.score ≤ c.score := by
  rw [MaxEm.wins, Bool.or_eq_true, Bool.and_eq_true, decide_eq_true_iff,
    decide_eq_true_iff] at hwins
  rcases hwins with hlt | ⟨heq, -⟩
  · exact hlt.le
  · exact heq.ge

theorem le_score_of_not_wins (hwins : em.wins cf c = false) : c.score ≤ em.score := by
  rw [MaxEm.wins, Bool.or_eq_false_iff, decide_eq_false_iff_not] at hwins
  exact not_lt.mp hwins.1

omit [Zero S] in
/-- Where a result goes that is put behind the entries. -/
theorem entries_add (hn : em.ecmm.1 ≤ CMM_MAX - 1)
    (hsorted : em.entries.Pairwise fun a b => b.score ≤ a.score) :
    ∃ front back, em.entries = front ++ back ∧
      kept (add (fun a b => a.score < b.score) (CMM_MAX - 1) em.ecmm c) =
        (front ++ c :: back).take (CMM_MAX - 1) ∧
      (∀ a ∈ front, c.score ≤ a.score) ∧ ∀ a ∈ back, a.score ≤ c.score := by
  obtain ⟨front, back, hentries, hresult, hfront, hback⟩ :=
    forward_spec (fun a b : ContextResult S => decide (a.score < b.score)) em.ecmm.1
      (Function.update em.ecmm.2 em.ecmm.1 c)
  rw [map_range_update (Nat.le_refl _)] at hentries
  rw [Function.update_self] at hresult hfront hback
  refine ⟨front, back, hentries, ?_, fun a ha => ?_, fun a ha => ?_⟩
  · rw [← hresult]
    exact kept_add hn
  · rcases List.eq_nil_or_concat' front with rfl | ⟨init, last, rfl⟩
    · cases ha
    · have hlast : c.score ≤ last.score :=
        not_lt.mp (of_decide_eq_false (hfront last List.getLast?_concat))
      rcases List.mem_append.mp ha with ha | ha
      · rw [show em.entries = _ from hentries, List.append_assoc] at hsorted
        exact hlast.trans ((List.pairwise_append.mp hsorted).2.2 a ha last List.mem_cons_self)
      · rw [List.mem_singleton.mp ha]
        exact hlast
  · exact (of_decide_eq_true (hback a ha)).le

omit [Zero S] in
theorem RankedEm.insert {t : ContextSearch S} {em' : MaxEm S} {front back : List (ContextResult S)}
    (h : RankedEm cf t) (hnew : ∀ a ∈ t.2.entries, ¬SameAssignment cf a c)
    (hentries : t.2.entries = front ++ back)
    (hkept : em'.entries = (front ++ c :: back).take (CMM_MAX - 1))
    (hfront : ∀ a ∈ front, c.score ≤ a.score) (hback : ∀ a ∈ back, a.score ≤ c.score)
    (hbound : t.2.score ≤ em'.score) (hc : c.score ≤ em'.score) :
    RankedEm cf (t.1 ++ [c], em') := by
  refine ⟨?_, ?_, fun a ha => ?_⟩
  · rw [← length_kept, show kept em'.ecmm = _ from hkept]
    exact List.length_take_le _ _
  · show BestOf _ _ _ _ em'.entries
    rw [hkept]
    exact BestOf.insert (SameAssignment.refl c) (fun _ _ hab => hab.symm) (hentries ▸ h.best)
      (hentries ▸ hnew) hfront hback
  · rw [show em'.entries = _ from hkept] at ha
    have hold : ∀ b ∈ front ++ back, b.score ≤ em'.score := fun b hb =>
      (h.bound b (hentries ▸ hb)).trans hbound
    rcases List.mem_append.mp (List.mem_of_mem_take ha) with ha | ha
    · exact hold a (List.mem_append_left _ ha)
    · rcases List.mem_cons.mp ha with rfl | ha
      · exact hc
      · exact hold a (List.mem_append_right _ ha)

/-- **One step.** -/
theorem rankedEm_searchStep {t : ContextSearch S} (h : RankedEm cf t) (hc : Reliable cf t.2 c) :
    RankedEm cf (searchStep cf t c) := by
  obtain ⟨seen, em⟩ := t
  unfold searchStep MaxEm.step
  cases hwins : em.wins cf c with
  | true =>
      rw [if_pos rfl]
      have hle := score_le_of_wins hwins
      exact h.insert (hc.front hwins) (List.nil_append _).symm (kept_push h.resultNum)
        (List.forall_mem_nil _) (fun a ha => (h.bound a ha).trans hle) hle le_rfl
  | false =>
      rw [if_neg Bool.false_ne_true]
      cases hnew : em.compareAssignList cf c with
      | true =>
          rw [if_pos rfl]
          have hnum : em.ecmm.1 ≤ CMM_MAX - 1 := h.resultNum
          have hsorted : em.entries.Pairwise fun a b => b.score ≤ a.score := h.best.sorted
          obtain ⟨front, back, hentries, hadd, hfront, hback⟩ := entries_add (c := c) hnum hsorted
          have hdistinct : ∀ a ∈ em.entries, ¬SameAssignment cf a c := hc.new hwins hnew
          have hle : c.score ≤ em.score := le_score_of_not_wins hwins
          exact h.insert hdistinct hentries hadd hfront hback (le_refl em.score) hle
      | false =>
          rw [if_neg Bool.false_ne_true]
          exact ⟨h.resultNum, h.best.again (hc.exists_same hwins hnew), h.bound⟩

end Step

/-! ## All calls -/

/-- The calls one after the other try all their frames one after the other. -/
theorem foldl_findBestCfForContext (calls : List (List (Bool × ContextResult S))) (em : MaxEm S) :
    calls.foldl (findBestCfForContext cf) em =
      (calls.flatMap triedFrames).foldl (fun em c => em.step cf c) em := by
  rw [List.foldl_flatMap]
  rfl

variable {cf}

omit [Zero S] in
theorem rankedEm_start [IntCast S] (ecmm : Nat → ContextResult S) :
    RankedEm cf (startSearch ecmm) :=
  ⟨Nat.zero_le _, BestOf.nil _ _ _, List.forall_mem_nil _⟩

end Search

/-! ## One frame with one slot -/

def oneSlotFrame : Nat → ContextFrame := fun _ => ⟨1, fun _ => true, fun _ _ => 1⟩

/-- 格解析失敗のとき -/
def failedResult : ContextResult Int where
  cfPtr := 0
  score := -2
  elementNum := 0
  elemBPtr := fun _ => none
  resultListP := ⟨fun _ => -1, fun _ => 0, fun _ => -1⟩

/-- The tag 3 fills the slot. -/
def filledResult : ContextResult Int where
  cfPtr := 0
  score := 5
  elementNum := 1
  elemBPtr := fun _ => some 3
  resultListP := ⟨fun _ => 0, fun _ => 5, fun _ => 0⟩

end Knp
