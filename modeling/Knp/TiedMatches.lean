import Mathlib.Data.Prod.Lex
import Knp.BestFrame
import Knp.CcString
import Knp.TiedBest

/-!
# The best correspondences of a case frame (`case_match.c`)

`eval_assign_score` is called for each correspondence that the search completes. Its rank is the
score, the number of elements that have a slot, the sum of their positions, and the crossings. A
better one replaces what is kept; one that ties is added, or replaces the others if no ガ slot of
the frame is left open.

> The ties are reported as they should be, those that fill ガ instead of the others, unless a tie
> that fills ガ is not the same as the last one: then the later one replaces the earlier one.
-/

namespace Knp

open TiedBest

def MAX_MATCH_MAX : Nat := 10

/-- What `eval_assign_score` reads besides the lists. -/
structure AssignScoreEnv (S : Type*) where
  optEllipsis : Bool
  /-- `oblig` of the predicate and of the frame -/
  obligD : Nat → Bool
  obligP : Nat → Bool
  closest : Int
  /-- `(int)score` -/
  truncate : S → Int
  /-- the quotient with the root of `pat_element` -/
  divSqrt : S → Nat → S
  /-- `cf_element` and `element_num` -/
  ratio : Nat → Nat → S

/-- The globals `Current_max_*`; the lists and the pure scores are those up to
`Current_max_num`. -/
structure CurrentMax (S : Type*) where
  score : S
  sufficiency : S
  mE : Int
  mP : Int
  cE : Int
  kept : List (Scored S)

/-- `CF_MATCH_MGR` after the match; `result_num` is the length of the lists. -/
structure MatchResult (S : Type*) where
  score : S
  sufficiency : S
  resultLists : List (Scored S)

section Score

variable {S : Type*} [LinearOrder S] [IntCast S] (env : AssignScoreEnv S) (cfd cfp : CaseFrame)

/-- `cfp->pp[i][0]` -/
def firstPp (i : Nat) : Int := (cfp.pp i).headD END_M

/-- The elements that have a slot. -/
def assigned (p : Scored S) : List Nat :=
  (List.range cfd.elementNum).filter fun i => p.list1.flag i ≠ NIL_ASSIGNED

/-- 交差数, counted downwards -/
def crossings (p : Scored S) : Int :=
  ((assigned cfd p).map fun i =>
    -(((assigned cfd p).countP fun j => i < j && p.list1.flag j < p.list1.flag i : Nat) : Int)).sum

/-- 文中の要素数(任意でマッチしていない要素以外) -/
def datElement (p : Scored S) : Nat :=
  (List.range cfd.elementNum).countP fun i =>
    !(!env.obligD i && p.list1.flag i = NIL_ASSIGNED)

/-- `count_pat_element` -/
def countPatElement (p : Scored S) : Nat :=
  (List.range cfp.elementNum).countP fun i => env.obligP i && p.list2.flag i ≠ UNASSIGNED

/-- The slots that are filled; there are `cf_element` of them. -/
def filledSlots (p : Scored S) : List Nat :=
  (List.range cfp.elementNum).filter fun i => p.list2.flag i ≠ UNASSIGNED

/-- `unassigned_ga`: 割り当てのないガ格がある -/
def unassignedGa (p : Scored S) : Bool :=
  (List.range cfp.elementNum).any fun i =>
    p.list2.flag i = UNASSIGNED && matchPP (firstPp cfp i) (utf8 "ガ")

/-- 外の関係だけのマッチ: `lastpp` is the case of the last slot that is filled. -/
def onlySoto (p : Scored S) : Bool :=
  (filledSlots cfp p).length = 1 &&
    (filledSlots cfp p).getLast?.any fun i => matchPP (firstPp cfp i) (utf8 "外の関係")

/-- `local_score` -/
def localScore (p : Scored S) : S :=
  let mE := (assigned cfd p).length
  if mE < datElement env cfd p ||
      (-1 < env.closest && env.obligD env.closest.toNat &&
        p.list1.flag env.closest.toNat = NIL_ASSIGNED) ||
      (!env.optEllipsis && onlySoto cfp p) then
    ((-1 : Int) : S)
  else if datElement env cfd p = 0 || countPatElement env cfp p = 0 || mE = 0 then
    ((0 : Int) : S)
  else env.divSqrt ((env.truncate p.score : Int) : S) (countPatElement env cfp p)

/-- `eval_assign_score` -/
def evalAssignScore (c : CurrentMax S) (p : Scored S) : CurrentMax S :=
  let score := localScore env cfd cfp p
  let mE : Int := (assigned cfd p).length
  let mP : Int := ((assigned cfd p).map fun i => (i : Int)).sum
  let cE := crossings cfd p
  if score > c.score ∨ (score = c.score ∧ mE > c.mE) ∨
      (score = c.score ∧ mE = c.mE ∧ mP > c.mP) ∨
      (score = c.score ∧ mE = c.mE ∧ mP = c.mP ∧ cE > c.cE) ∨
      (score = c.score ∧ mE = c.mE ∧ mP = c.mP ∧ cE = c.cE ∧ unassignedGa cfp p = false) then
    ⟨score, env.ratio (filledSlots cfp p).length cfp.elementNum, mE, mP, cE, [p]⟩
  else if score = c.score ∧ mE = c.mE ∧ mP = c.mP ∧ cE = c.cE ∧ c.kept.length < MAX_MATCH_MAX then
    { c with kept := c.kept ++ [p] }
  else c

/-- 初期化 -/
def currentMaxInit : CurrentMax S :=
  ⟨(CASE_MATCH_FAILURE_SCORE : S), ((0 : Int) : S), 0, 0, 0, []⟩

/-- 後処理, when the correspondences have come in some order -/
def matchResult (l : List (Scored S)) : MatchResult S :=
  let c := l.foldl (evalAssignScore env cfd cfp) currentMaxInit
  { sufficiency := c.sufficiency
    resultLists := c.kept
    -- 直前格要素のスコアのみを用いるとき
    score :=
      match c.kept with
      | first :: _ =>
          if -1 < env.closest && ((0 : Int) : S) ≤ c.score &&
              first.list1.flag env.closest.toNat ≠ NIL_ASSIGNED then
            first.list1.score env.closest.toNat
          else c.score
      | [] => c.score }

/-- `case_frame_match` without `OPT_CASE_USE_PROBABILITY` -/
def caseFrameMatch (search : CaseEnv S) (pred : CasePred) (rest : AssignList S) (fuel : Nat) :
    Option (MatchResult S) :=
  (assignList search pred cfp fuel (initD pred.cf.elementNum ((-1 : Int) : S) rest)
    (initP ((-1 : Int) : S)) ((0 : Int) : S)).map (matchResult env pred.cf cfp)

/-! ## The ranks -/

/-- The score, the number of elements with a slot, the sum of positions, and the crossings. -/
def rank (p : Scored S) : S ×ₗ Int ×ₗ Int ×ₗ Int :=
  toLex (localScore env cfd cfp p, toLex (((assigned cfd p).length : Int),
    toLex (((assigned cfd p).map fun i => (i : Int)).sum, crossings cfd p)))

def CurrentMax.rank (c : CurrentMax S) : S ×ₗ Int ×ₗ Int ×ₗ Int :=
  toLex (c.score, toLex (c.mE, toLex (c.mP, c.cE)))

/-- What a correspondence is: the flags of the elements and of the slots. -/
def correspondence (p : Scored S) : List Int × List Int :=
  ((List.range cfd.elementNum).map p.list1.flag, (List.range cfp.elementNum).map p.list2.flag)

/-- No ガ slot is left open. -/
def fillsGa (p : Scored S) : Bool := !unassignedGa cfp p

def tiedBest (l : List (Scored S)) : List (Scored S) := tied (rank env cfd cfp) l

/-- The ties are reported as a set, those with an open ガ slot only if all have one. -/
def ReportsTies (l : List (Scored S)) : Prop :=
  ∀ q, q ∈ (matchResult env cfd cfp l).resultLists.map (correspondence cfd cfp) ↔
    q ∈ (wanted (fillsGa cfp) (tiedBest env cfd cfp l)).map (correspondence cfd cfp)

variable {env : AssignScoreEnv S} {cfd cfp : CaseFrame} {c : CurrentMax S} {l : List (Scored S)}
  {p q : Scored S}

/-- The disjunction of `eval_assign_score`, for `>`. -/
theorem rank_lt_iff : c.rank < rank env cfd cfp p ↔
    localScore env cfd cfp p > c.score ∨
      (localScore env cfd cfp p = c.score ∧ ((assigned cfd p).length : Int) > c.mE) ∨
      (localScore env cfd cfp p = c.score ∧ ((assigned cfd p).length : Int) = c.mE ∧
        ((assigned cfd p).map fun i => (i : Int)).sum > c.mP) ∨
      (localScore env cfd cfp p = c.score ∧ ((assigned cfd p).length : Int) = c.mE ∧
        ((assigned cfd p).map fun i => (i : Int)).sum = c.mP ∧ crossings cfd p > c.cE) := by
  rw [CurrentMax.rank, rank, Prod.Lex.toLex_lt_toLex, Prod.Lex.toLex_lt_toLex,
    Prod.Lex.toLex_lt_toLex]
  dsimp only
  rw [eq_comm (a := c.score), eq_comm (a := c.mE), eq_comm (a := c.mP)]
  constructor
  · rintro (h | ⟨hs, h | ⟨he, h | ⟨hp, h⟩⟩⟩)
    · exact Or.inl h
    · exact Or.inr (Or.inl ⟨hs, h⟩)
    · exact Or.inr (Or.inr (Or.inl ⟨hs, he, h⟩))
    · exact Or.inr (Or.inr (Or.inr ⟨hs, he, hp, h⟩))
  · rintro (h | ⟨hs, h⟩ | ⟨hs, he, h⟩ | ⟨hs, he, hp, h⟩)
    · exact Or.inl h
    · exact Or.inr ⟨hs, Or.inl h⟩
    · exact Or.inr ⟨hs, Or.inr ⟨he, Or.inl h⟩⟩
    · exact Or.inr ⟨hs, Or.inr ⟨he, Or.inr ⟨hp, h⟩⟩⟩

omit [LinearOrder S] in
theorem rank_eq_iff : c.rank = rank env cfd cfp p ↔
    localScore env cfd cfp p = c.score ∧ ((assigned cfd p).length : Int) = c.mE ∧
      ((assigned cfd p).map fun i => (i : Int)).sum = c.mP ∧ crossings cfd p = c.cE := by
  rw [eq_comm, CurrentMax.rank, rank, toLex_inj, Prod.mk.injEq, toLex_inj, Prod.mk.injEq,
    toLex_inj, Prod.mk.injEq]

/-- A call is a step of the running best. -/
theorem evalAssignScore_step (c : CurrentMax S) (p : Scored S) :
    ((evalAssignScore env cfd cfp c p).rank, (evalAssignScore env cfd cfp c p).kept) =
      step (rank env cfd cfp) (fillsGa cfp) MAX_MATCH_MAX (c.rank, c.kept) p := by
  have hga : fillsGa cfp p = true ↔ unassignedGa cfp p = false := by
    rw [fillsGa, Bool.not_eq_true']
  rw [step, evalAssignScore]
  dsimp only
  simp only [rank_lt_iff, rank_eq_iff, hga, or_assoc, and_assoc]
  split_ifs
  · rfl
  · rfl
  · rfl

theorem foldl_evalAssignScore (c : CurrentMax S) (l : List (Scored S)) :
    ((l.foldl (evalAssignScore env cfd cfp) c).rank,
      (l.foldl (evalAssignScore env cfd cfp) c).kept) =
      l.foldl (step (rank env cfd cfp) (fillsGa cfp) MAX_MATCH_MAX) (c.rank, c.kept) := by
  induction l generalizing c with
  | nil => rfl
  | cons p l ih => rw [List.foldl_cons, List.foldl_cons, ih, evalAssignScore_step]

/-- The lists that are reported are what is kept of the best ones. -/
theorem resultLists_eq (l : List (Scored S)) : (matchResult env cfd cfp l).resultLists =
    survivors (fillsGa cfp) MAX_MATCH_MAX
      (l.filter (rank env cfd cfp · = best (rank env cfd cfp) currentMaxInit.rank l)) := by
  have hrun : ((l.foldl (evalAssignScore env cfd cfp) currentMaxInit).rank,
      (l.foldl (evalAssignScore env cfd cfp) currentMaxInit).kept) =
        run (rank env cfd cfp) (fillsGa cfp) MAX_MATCH_MAX currentMaxInit.rank l :=
    foldl_evalAssignScore currentMaxInit l
  rw [run_eq (by decide)] at hrun
  exact congrArg Prod.snd hrun

omit [LinearOrder S] [IntCast S] in
theorem fillsGa_of_correspondence (h : correspondence cfd cfp p = correspondence cfd cfp q) :
    fillsGa cfp p = fillsGa cfp q := by
  have hflag : ∀ i ∈ List.range cfp.elementNum, p.list2.flag i = q.list2.flag i :=
    List.map_inj_left.mp (Prod.mk.inj h).2
  rw [fillsGa, fillsGa, unassignedGa, unassignedGa]
  refine congrArg (! ·) (Bool.eq_iff_iff.mpr ?_)
  rw [List.any_eq_true, List.any_eq_true]
  refine exists_congr fun i => and_congr_right fun hi => ?_
  rw [hflag i hi]

end Score

/-! ## A run -/

/-- Each element fits its slots equally well. -/
def evenSearch : CaseEnv Int :=
  { useProbability := false, flag := .ofExample, isSubject := fun _ => false
    elmntMatchScore := fun _ _ => (5, 0), nilScore := fun _ => 0, divWeight := (· / ·)
    add := (· + ·), SOTO_THRESHOLD := (0 ≤ ·), NOUN_THRESHOLD := (5 ≤ ·), nonneg := (0 ≤ ·) }

def evenScore : AssignScoreEnv Int :=
  { optEllipsis := false, obligD := fun _ => true, obligP := fun _ => true, closest := -1
    truncate := id, divSqrt := fun s n => s / n.sqrt, ratio := fun m n => m / n }

/-- ガ, and an element that is ヲ or ニ. -/
def gaWoniPred : CasePred :=
  { cf := { elementNum := 2, adjacent := fun _ => false,
            pp := fun i => if i = 0 then [ppGa, END_M] else [2, 3, END_M],
            sp := fun _ => 0, weight := fun _ => 0, samecase := [(END_M, END_M)] }
    elemBNum := fun i => i, cfType := .pred }

/-- ガ, ヲ, ニ -/
def gaWoNiFrame : CaseFrame :=
  { elementNum := 3, adjacent := fun _ => false, pp := fun i => [(i : Int) + 1, END_M],
    sp := fun _ => 0, weight := fun _ => 0, samecase := [(END_M, END_M)] }

def evenRest : AssignList Int := ⟨fun _ => 0, fun _ => 0, fun _ => 0⟩

/-- The correspondences in the order of the search. -/
def evenScored : List (Scored Int) :=
  (assignList evenSearch gaWoniPred gaWoNiFrame 3 (initD 2 (-1) evenRest) (initP (-1)) 0).getD []

end Knp
