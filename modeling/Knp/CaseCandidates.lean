import Knp.ResultRank
import Knp.StepRun

/-!
# The best candidates of case analysis (`anaphora.c`)

`preserve_case_candidate_ctm` keeps the best `CASE_CANDIDATE_MAX` candidates, at most five of one
case frame. Going down the array it counts the entries of the candidate's frame, and gives up at
the fifth one before it has compared the scores.

> The array holds the best candidates in all states of a run just if no candidate comes that is
> better than the last entry only, where all entries are of its frame.
-/

namespace Knp

/-- 照応解析用格解析結果を保持する数 -/
def CASE_CANDIDATE_MAX : Nat := 5

/-- Of each frame the first `limit`, besides those in `seen`. -/
def limitPerFrame {α ι : Type*} [DecidableEq ι] (frame : α → ι) (limit : Nat) :
    List α → List α → List α
  | _, [] => []
  | seen, c :: l =>
      if seen.countP (frame · = frame c) < limit then
        c :: limitPerFrame frame limit (c :: seen) l
      else limitPerFrame frame limit seen l

section Candidates

variable {S : Type*} [LinearOrder S] (INITIAL_SCORE : S) (cfId : Nat → String)

/-- The entry is of the candidate's frame. -/
def sameCaseFrame (ctm : CfTagMgr S) (r : Nat → CfTagMgr S) (i : Nat) : Bool :=
  (r i).score ≠ INITIAL_SCORE && cfId ctm.cfPtr = cfId (r i).cfPtr

/-- Where the candidate is stored, if anywhere; `same` entries of its frame have been counted. -/
def candidatePlace (ctm : CfTagMgr S) (r : Nat → CfTagMgr S) : Nat → List Nat → Option Nat
  | _, [] => none
  | same, i :: rest =>
      if sameCaseFrame INITIAL_SCORE cfId ctm r i && 5 ≤ same + 1 then none
      else if (r i).score < ctm.score then some i
      else
        candidatePlace ctm r
          (if sameCaseFrame INITIAL_SCORE cfId ctm r i then same + 1 else same) rest

def preserveCaseCandidateCtm (ctm : CfTagMgr S) (start num : Nat) (r : Nat → CfTagMgr S) :
    Bool × (Nat → CfTagMgr S) :=
  match candidatePlace INITIAL_SCORE cfId ctm r 0 (List.range' start num) with
  | none => (false, r)
  | some i => (true, storeCtm INITIAL_SCORE ctm i (start + num) r)

/-- The candidates so far, and the array. -/
abbrev CandidateState (S : Type*) := List (CfTagMgr S) × (Nat → CfTagMgr S)

def candidateStep (s : CandidateState S) (ctm : CfTagMgr S) : CandidateState S :=
  (s.1 ++ [ctm], (preserveCaseCandidateCtm INITIAL_SCORE cfId ctm 0 CASE_CANDIDATE_MAX s.2).2)

/-- The array holds the best of the candidates, at most five of each frame. -/
def HoldsBest (s : CandidateState S) : Prop :=
  ∃ ranked : List (CfTagMgr S), ranked.Perm s.1 ∧ (ranked.Pairwise fun a b => b.score ≤ a.score) ∧
    ResultsHeld INITIAL_SCORE CASE_CANDIDATE_MAX s.2
      ((limitPerFrame (fun c => cfId c.cfPtr) 5 [] ranked).take CASE_CANDIDATE_MAX)

/-- All entries are of the candidate's frame, and it is better than the last one only. -/
structure Refused (s : CandidateState S) (ctm : CfTagMgr S) : Prop where
  frame : ∀ i < CASE_CANDIDATE_MAX, sameCaseFrame INITIAL_SCORE cfId ctm s.2 i = true
  others : ∀ i < CASE_CANDIDATE_MAX - 1, ctm.score ≤ (s.2 i).score
  last : (s.2 (CASE_CANDIDATE_MAX - 1)).score < ctm.score

instance (s : CandidateState S) (ctm : CfTagMgr S) :
    Decidable (Refused INITIAL_SCORE cfId s ctm) :=
  decidable_of_iff ((∀ i < CASE_CANDIDATE_MAX, sameCaseFrame INITIAL_SCORE cfId ctm s.2 i = true) ∧
      (∀ i < CASE_CANDIDATE_MAX - 1, ctm.score ≤ (s.2 i).score) ∧
      (s.2 (CASE_CANDIDATE_MAX - 1)).score < ctm.score)
    ⟨fun h => ⟨h.1, h.2.1, h.2.2⟩, fun h => ⟨h.frame, h.others, h.last⟩⟩

end Candidates

/-! ## The limit for each frame -/

section Limit

variable {α ι : Type*} [DecidableEq ι] {frame : α → ι} {limit : Nat}

/-- Among as many elements as the limit, no frame has too many. -/
theorem take_limitPerFrame (seen l : List α) (hseen : seen.length ≤ limit) :
    (limitPerFrame frame limit seen l).take (limit - seen.length) =
      l.take (limit - seen.length) := by
  induction l generalizing seen with
  | nil => rw [limitPerFrame]
  | cons c l ih =>
      rcases Nat.lt_or_ge seen.length limit with hlt | hge
      · have hcount : seen.countP (fun x => decide (frame x = frame c)) < limit :=
          List.countP_le_length.trans_lt hlt
        obtain ⟨k, hk⟩ : ∃ k, limit - seen.length = k + 1 := ⟨limit - seen.length - 1, by omega⟩
        have hrest := ih (c :: seen) (by rw [List.length_cons]; omega)
        rw [List.length_cons, show limit - (seen.length + 1) = k by omega] at hrest
        rw [limitPerFrame, if_pos hcount, hk, List.take_succ_cons, List.take_succ_cons, hrest]
      · rw [Nat.sub_eq_zero_of_le hge]
        rfl

end Limit

/-! ## One candidate -/

section Step

variable {S : Type*} [LinearOrder S] {INITIAL_SCORE : S} {cfId : Nat → String}
  {ctm : CfTagMgr S} {i k n same : Nat} {r : Nat → CfTagMgr S} {l l' : List (CfTagMgr S)}

theorem ResultsHeld.length_unique (h : ResultsHeld INITIAL_SCORE n r l)
    (h' : ResultsHeld INITIAL_SCORE n r l') : l.length ≤ l'.length := by
  by_contra hlt
  have hi : l'.length < l.length := Nat.lt_of_not_le hlt
  have hentry := h.entry l'.length hi
  have hempty := h'.empty l'.length (Nat.le_refl _) (hi.trans_le h.length_le)
  exact (h.above _ (List.mem_of_getElem? hentry)).ne hempty.symm

/-- An array holds one list. -/
theorem ResultsHeld.unique (h : ResultsHeld INITIAL_SCORE n r l)
    (h' : ResultsHeld INITIAL_SCORE n r l') : l = l' := by
  have hlen : l.length = l'.length := Nat.le_antisymm (h.length_unique h') (h'.length_unique h)
  refine List.ext_getElem? fun i => ?_
  rcases Nat.lt_or_ge i l.length with hi | hi
  · rw [h.entry i hi, h'.entry i (hlen ▸ hi)]
  · rw [List.getElem?_eq_none hi, List.getElem?_eq_none (hlen ▸ hi)]

/-- All the `k` entries from `i` on are of the frame, which makes five, and only the last one may
be lower. -/
def FifthReached (INITIAL_SCORE : S) (cfId : Nat → String) (ctm : CfTagMgr S) (r : Nat → CfTagMgr S)
    (same i k : Nat) : Prop :=
  same + k = 5 ∧ (∀ j ∈ List.range' i k, sameCaseFrame INITIAL_SCORE cfId ctm r j = true) ∧
    ∀ j ∈ List.range' i (k - 1), ctm.score ≤ (r j).score

/-- Otherwise the count makes no difference. -/
theorem candidatePlace_eq (hk : same + k ≤ 5) :
    (FifthReached INITIAL_SCORE cfId ctm r same i k →
      candidatePlace INITIAL_SCORE cfId ctm r same (List.range' i k) = none) ∧
    (¬ FifthReached INITIAL_SCORE cfId ctm r same i k →
      candidatePlace INITIAL_SCORE cfId ctm r same (List.range' i k) =
        (List.range' i k).find? fun j => (r j).score < ctm.score) := by
  induction k generalizing i same with
  | zero => exact ⟨fun _ => rfl, fun _ => rfl⟩
  | succ k ih =>
      rw [List.range'_succ, candidatePlace]
      by_cases hfull : sameCaseFrame INITIAL_SCORE cfId ctm r i = true ∧ same = 4
      · obtain ⟨hsame, rfl⟩ := hfull
        obtain rfl : k = 0 := by omega
        rw [hsame, if_pos rfl]
        refine ⟨fun _ => rfl, fun hnot => absurd ⟨rfl, ?_, ?_⟩ hnot⟩
        · intro j hj
          rw [List.mem_singleton.mp hj]
          exact hsame
        · intro j hj
          cases hj
      · have hnot :
            (sameCaseFrame INITIAL_SCORE cfId ctm r i && decide (5 ≤ same + 1)) = false := by
          rw [Bool.and_eq_false_iff]
          by_cases hsame : sameCaseFrame INITIAL_SCORE cfId ctm r i = true
          · exact Or.inr (decide_eq_false fun hle => hfull ⟨hsame, by omega⟩)
          · exact Or.inl (Bool.eq_false_iff.mpr hsame)
        rw [hnot, if_neg Bool.false_ne_true]
        by_cases hlow : (r i).score < ctm.score
        · have hhead : (i :: List.range' (i + 1) k).find?
              (fun j => decide ((r j).score < ctm.score)) = some i :=
            List.find?_cons_of_pos (decide_eq_true hlow)
          rw [if_pos hlow, hhead]
          refine ⟨?_, fun _ => rfl⟩
          rintro ⟨hfive, hall, hothers⟩
          cases k with
          | zero => exact absurd ⟨hall i List.mem_cons_self, by omega⟩ hfull
          | succ k =>
              exact absurd hlow (not_lt.mpr (hothers i List.mem_cons_self))
        · have htail : (i :: List.range' (i + 1) k).find?
              (fun j => decide ((r j).score < ctm.score)) =
              (List.range' (i + 1) k).find? fun j => decide ((r j).score < ctm.score) :=
            List.find?_cons_of_neg fun h => hlow (of_decide_eq_true h)
          rw [if_neg hlow, htail]
          have hiff : FifthReached INITIAL_SCORE cfId ctm r same i (k + 1) ↔
              FifthReached INITIAL_SCORE cfId ctm r
                (if sameCaseFrame INITIAL_SCORE cfId ctm r i then same + 1 else same) (i + 1)
                k := by
            rw [FifthReached, FifthReached, List.range'_succ, List.forall_mem_cons]
            constructor
            · rintro ⟨hfive, ⟨hsame, hall⟩, hothers⟩
              refine ⟨by rw [if_pos hsame]; omega, hall, fun j hj => hothers j ?_⟩
              have hj' := List.mem_range'_1.mp hj
              exact List.mem_range'_1.mpr ⟨by omega, by omega⟩
            · rintro ⟨hfive, hall, hothers⟩
              split at hfive
              next hsame =>
                refine ⟨by omega, ⟨hsame, hall⟩, fun j hj => ?_⟩
                have hj' := List.mem_range'_1.mp hj
                rcases Nat.lt_or_ge i j with hlt | hge
                · exact hothers j (List.mem_range'_1.mpr ⟨by omega, by omega⟩)
                · obtain rfl : j = i := by omega
                  exact not_lt.mp hlow
              next hother =>
                -- then `k` is 0, and there are not five
                omega
          rw [hiff]
          exact ih (by split <;> omega)

/-- Unless the candidate is refused, it is stored as a result would be. -/
theorem preserveCaseCandidateCtm_eq (s : CandidateState S) :
    preserveCaseCandidateCtm INITIAL_SCORE cfId ctm 0 CASE_CANDIDATE_MAX s.2 =
      if Refused INITIAL_SCORE cfId s ctm then (false, s.2)
      else preserveEllipsisResultCtm INITIAL_SCORE ctm 0 CASE_CANDIDATE_MAX s.2 := by
  obtain ⟨hnone, hfind⟩ :=
    @candidatePlace_eq S _ INITIAL_SCORE cfId ctm 0 5 0 s.2 (Nat.le_refl 5)
  rw [preserveCaseCandidateCtm]
  by_cases hfull : FifthReached INITIAL_SCORE cfId ctm s.2 0 0 5
  · rw [CASE_CANDIDATE_MAX, hnone hfull]
    obtain ⟨-, hall, hothers⟩ := hfull
    split_ifs with hrefused
    · rfl
    · -- no entry is lower
      rw [preserveEllipsisResultCtm, List.find?_eq_none.mpr]
      intro j hj hlow
      have hj' := List.mem_range'_1.mp hj
      rcases Nat.lt_or_ge j 4 with hlt | hge
      · exact not_lt.mpr (hothers j (List.mem_range'_1.mpr ⟨Nat.zero_le j, hlt⟩))
          (of_decide_eq_true hlow)
      · obtain rfl : j = 4 := by omega
        refine hrefused ⟨?_, ?_, of_decide_eq_true hlow⟩
        · intro m hm
          exact hall m (List.mem_range'_1.mpr ⟨Nat.zero_le m, hm⟩)
        · intro m hm
          exact hothers m (List.mem_range'_1.mpr ⟨Nat.zero_le m, hm⟩)
  · have hnot : ¬ Refused INITIAL_SCORE cfId s ctm := by
      intro hrefused
      refine hfull ⟨rfl, ?_, ?_⟩
      · intro j hj
        exact hrefused.frame j (List.mem_range'_1.mp hj).2
      · intro j hj
        exact hrefused.others j (List.mem_range'_1.mp hj).2
    rw [if_neg hnot, CASE_CANDIDATE_MAX, hfind hfull]
    rfl

theorem holdsBest_iff {s : CandidateState S} : HoldsBest INITIAL_SCORE cfId s ↔
    ∃ ranked : List (CfTagMgr S), ranked.Perm s.1 ∧ (ranked.Pairwise fun a b => b.score ≤ a.score) ∧
      ResultsHeld INITIAL_SCORE CASE_CANDIDATE_MAX s.2 (ranked.take CASE_CANDIDATE_MAX) := by
  have htake : ∀ ranked : List (CfTagMgr S),
      (limitPerFrame (fun c => cfId c.cfPtr) 5 [] ranked).take CASE_CANDIDATE_MAX =
        ranked.take CASE_CANDIDATE_MAX := fun ranked => take_limitPerFrame [] ranked (Nat.zero_le 5)
  simp only [HoldsBest, htake]

/-- What a candidate does to an array that holds the best ones. -/
theorem candidateStep_best_iff {s : CandidateState S} (h : HoldsBest INITIAL_SCORE cfId s)
    (hctm : INITIAL_SCORE < ctm.score) :
    HoldsBest INITIAL_SCORE cfId (candidateStep INITIAL_SCORE cfId s ctm) ↔
      ¬ Refused INITIAL_SCORE cfId s ctm := by
  obtain ⟨ranked, hperm, hsorted, hheld⟩ := holdsBest_iff.mp h
  rw [holdsBest_iff, candidateStep, preserveCaseCandidateCtm_eq]
  split_ifs with hrefused
  · -- the candidate would have to stand behind the last entry
    refine iff_of_false ?_ (fun hnot => hnot hrefused)
    rintro ⟨ranked', hperm', hsorted', hheld'⟩
    have hfull : ∀ l : List (CfTagMgr S), ResultsHeld INITIAL_SCORE CASE_CANDIDATE_MAX s.2 l →
        l.length = CASE_CANDIDATE_MAX := by
      intro l hl
      refine Nat.le_antisymm hl.length_le (Nat.le_of_not_lt fun hlt => ?_)
      have hempty := hl.empty l.length (Nat.le_refl _) hlt
      have hframe := hrefused.frame l.length hlt
      rw [sameCaseFrame, hempty, decide_eq_false (fun hne => hne rfl)] at hframe
      exact Bool.false_ne_true hframe
    have htake := hheld.unique hheld'
    have hcut := List.take_append_drop CASE_CANDIDATE_MAX ranked
    have hcut' := List.take_append_drop CASE_CANDIDATE_MAX ranked'
    have hdrop : (ranked'.drop CASE_CANDIDATE_MAX).Perm
        (ranked.drop CASE_CANDIDATE_MAX ++ [ctm]) := by
      refine (List.perm_append_left_iff (ranked.take CASE_CANDIDATE_MAX)).mp ?_
      rw [← List.append_assoc, hcut, htake, hcut']
      exact hperm'.trans (hperm.append_right [ctm]).symm
    have hmem : ctm ∈ ranked'.drop CASE_CANDIDATE_MAX :=
      hdrop.mem_iff.mpr (List.mem_append_right _ (List.mem_singleton_self ctm))
    have hlast := hheld'.entry (CASE_CANDIDATE_MAX - 1) (by rw [hfull _ hheld']; decide)
    rw [← hcut'] at hsorted'
    have hle := (List.pairwise_append.mp hsorted').2.2 _ (List.mem_of_getElem? hlast) ctm hmem
    exact not_lt.mpr hle hrefused.last
  · refine iff_of_true ?_ hrefused
    obtain ⟨front, back, hfront, -, hplace⟩ := hheld.front hctm
    refine ⟨StableRank.place CfTagMgr.score ctm ranked, ?_, StableRank.place_sorted hsorted, ?_⟩
    · exact (StableRank.place_perm ctm ranked).trans
        ((hperm.cons ctm).trans (List.perm_append_singleton ctm s.1).symm)
    · rw [← StableRank.take_place, hplace]
      exact hfront.preserve.1

end Step

/-! ## All candidates -/

section Run

variable {S : Type*} [LinearOrder S] {INITIAL_SCORE : S} {cfId : Nat → String}
  {r₀ : Nat → CfTagMgr S} {cs cs' : List (CfTagMgr S)}

/-- All candidates are stored, from the empty array on. -/
def candidateRun (INITIAL_SCORE : S) (cfId : Nat → String) (r₀ : Nat → CfTagMgr S)
    (cs : List (CfTagMgr S)) : CandidateState S :=
  cs.foldl (candidateStep INITIAL_SCORE cfId) ([], r₀)

theorem candidateRun_fst : (candidateRun INITIAL_SCORE cfId r₀ cs).1 = cs := by
  induction cs using List.reverseRecOn with
  | nil => rfl
  | append_singleton cs c ih =>
      rw [candidateRun, List.foldl_append]
      exact congrArg (· ++ [c]) ih

theorem holdsBest_start (hempty : ∀ i < CASE_CANDIDATE_MAX, (r₀ i).score = INITIAL_SCORE) :
    HoldsBest INITIAL_SCORE cfId ([], r₀) :=
  holdsBest_iff.mpr ⟨[], List.Perm.refl _, List.Pairwise.nil, Nat.zero_le _,
    fun i hi => absurd hi (Nat.not_lt_zero i), fun i _ hi => hempty i hi, fun _ hc => nomatch hc⟩

theorem candidateRun_iff (hempty : ∀ i < CASE_CANDIDATE_MAX, (r₀ i).score = INITIAL_SCORE)
    (hcs : ∀ c ∈ cs, INITIAL_SCORE < c.score) :
    StepRun.EachState (candidateStep INITIAL_SCORE cfId) (HoldsBest INITIAL_SCORE cfId)
        ([], r₀) cs ↔
      StepRun.EachStep (candidateStep INITIAL_SCORE cfId)
        (fun s c => ¬ Refused INITIAL_SCORE cfId s c) ([], r₀) cs :=
  StepRun.eachState_iff (V := fun _ c => INITIAL_SCORE < c.score) (W := fun _ => True)
    (fun _ _ _ _ => trivial) (fun _ _ _ hbest hc => candidateStep_best_iff hbest hc) trivial
    (holdsBest_start hempty) (StepRun.eachStep_of_forall hcs)

/-- Of candidates with different scores there is one ranking. -/
theorem HoldsBest.agree {s s' : CandidateState S} (h : HoldsBest INITIAL_SCORE cfId s)
    (h' : HoldsBest INITIAL_SCORE cfId s') (hperm : s'.1.Perm s.1)
    (hdistinct : s.1.Pairwise fun a b => a.score ≠ b.score) {i : Nat} (hi : i < CASE_CANDIDATE_MAX)
    (hlen : i < s.1.length) : s.2 i = s'.2 i := by
  obtain ⟨ranked, hranked, hsorted, hheld⟩ := holdsBest_iff.mp h
  obtain ⟨ranked', hranked', hsorted', hheld'⟩ := holdsBest_iff.mp h'
  have hanti : ∀ a b, a ∈ ranked → b ∈ ranked' → b.score ≤ a.score → a.score ≤ b.score → a = b := by
    intro a b ha hb hba hab
    have ha' := hranked.mem_iff.mp ha
    have hb' := hperm.mem_iff.mp (hranked'.mem_iff.mp hb)
    have : Std.Symm fun x y : CfTagMgr S => x.score ≠ y.score := ⟨fun _ _ hne => hne.symm⟩
    by_contra hne
    exact hdistinct.forall ha' hb' hne (le_antisymm hab hba)
  have heq : ranked = ranked' :=
    (hranked.trans (hperm.symm.trans hranked'.symm)).eq_of_pairwise hanti hsorted hsorted'
  have hlt : i < (ranked.take CASE_CANDIDATE_MAX).length := by
    rw [List.length_take, hranked.length_eq]
    exact lt_min hi hlen
  have hentry := hheld.entry i hlt
  rw [heq] at hentry hlt
  exact Option.some.inj (hentry.symm.trans (hheld'.entry i hlt))

/-- `preserve_case_candidate_ctm`, for any sequence of candidates: the array holds the best ones in
every state just if no candidate is refused; and where none is, their order makes no
difference. -/
theorem candidateRun_best (hempty : ∀ i < CASE_CANDIDATE_MAX, (r₀ i).score = INITIAL_SCORE)
    (hcs : ∀ c ∈ cs, INITIAL_SCORE < c.score) :
    (StepRun.EachState (candidateStep INITIAL_SCORE cfId) (HoldsBest INITIAL_SCORE cfId)
        ([], r₀) cs ↔
      StepRun.EachStep (candidateStep INITIAL_SCORE cfId)
        (fun s c => ¬ Refused INITIAL_SCORE cfId s c) ([], r₀) cs) ∧
    ∀ cs' : List (CfTagMgr S), cs'.Perm cs → (cs.Pairwise fun a b => a.score ≠ b.score) →
      (∀ l ∈ [cs, cs'], StepRun.EachStep (candidateStep INITIAL_SCORE cfId)
        (fun s c => ¬ Refused INITIAL_SCORE cfId s c) ([], r₀) l) →
      ∀ i < CASE_CANDIDATE_MAX, i < cs.length →
        (candidateRun INITIAL_SCORE cfId r₀ cs).2 i =
          (candidateRun INITIAL_SCORE cfId r₀ cs').2 i := by
  refine ⟨candidateRun_iff hempty hcs, ?_⟩
  intro cs' hperm hdistinct hsteps i hi hlen
  have hcs' : ∀ c ∈ cs', INITIAL_SCORE < c.score := fun c hc => hcs c (hperm.mem_iff.mp hc)
  have hbest := ((candidateRun_iff hempty hcs).mpr (hsteps cs (by simp))).last
  have hbest' := ((candidateRun_iff hempty hcs').mpr (hsteps cs' (by simp))).last
  have hfst : ∀ l : List (CfTagMgr S),
      (l.foldl (candidateStep INITIAL_SCORE cfId) ([], r₀)).1 = l := fun _ => candidateRun_fst
  exact hbest.agree hbest' (by rw [hfst, hfst]; exact hperm) (by rw [hfst]; exact hdistinct) hi
    (by rw [hfst]; exact hlen)

/-- A result of the frame `frame`. -/
def candidateOf (frame : Nat) (score : Int) : CfTagMgr Int :=
  { resultOf score with cfPtr := frame }

/-- Five candidates of one frame. -/
def fiveCandidates : List (CfTagMgr Int) := [10, 9, 8, 7, 1].map (candidateOf 0)

/-- The frame's id. -/
def okonauId (_ : Nat) : String := "行う/おこなう:動1"

theorem fiveCandidates_kept : StepRun.EachStep (candidateStep (-10000) okonauId)
    (fun s c => ¬ Refused (-10000) okonauId s c) ([], fun _ => resultOf (-10000))
    fiveCandidates := by
  simp only [fiveCandidates, List.map_cons, List.map_nil, StepRun.EachStep]
  decide

theorem noCandidates : ∀ i < CASE_CANDIDATE_MAX,
    ((fun _ : Nat => resultOf (-10000)) i).score = -10000 := fun _ _ => rfl

theorem fiveCandidates_above : ∀ c ∈ fiveCandidates, (-10000 : Int) < c.score := by
  decide

theorem fiveCandidates_best : HoldsBest (-10000) okonauId
    (candidateRun (-10000) okonauId (fun _ => resultOf (-10000)) fiveCandidates) :=
  ((candidateRun_iff noCandidates fiveCandidates_above).mpr fiveCandidates_kept).last

/-- One of score 5 is refused, and the one of score 1 stays. If it comes first, it is kept. -/
theorem fiveCandidates_refuse :
    ¬ HoldsBest (-10000) okonauId (candidateRun (-10000) okonauId (fun _ => resultOf (-10000))
      (fiveCandidates ++ [candidateOf 0 5])) ∧
    ((candidateRun (-10000) okonauId (fun _ => resultOf (-10000))
      (fiveCandidates ++ [candidateOf 0 5])).2 4).score = 1 ∧
    ((candidateRun (-10000) okonauId (fun _ => resultOf (-10000))
      (candidateOf 0 5 :: fiveCandidates)).2 4).score = 5 := by
  refine ⟨?_, by decide, by decide⟩
  rw [candidateRun, List.foldl_append]
  intro hbest
  have hctm : (-10000 : Int) < (candidateOf 0 5).score := by decide
  exact (candidateStep_best_iff fiveCandidates_best hctm).mp hbest (by decide)

/-- The five candidates themselves are kept. -/
theorem fiveCandidates_run :
    StepRun.EachState (candidateStep (-10000) okonauId) (HoldsBest (-10000) okonauId)
      ([], fun _ => resultOf (-10000)) fiveCandidates :=
  (candidateRun_best noCandidates fiveCandidates_above).1.mpr fiveCandidates_kept

end Run

end Knp
