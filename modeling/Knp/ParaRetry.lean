import Mathlib.Logic.Relation
import Knp.ParaChoice
import Knp.ParaTotal

/-!
# The retry loop (`one_sentence_analysis`, `main.c`)

When the coordinations of a sentence do not fit together, or the dependencies
do not fit into them, the scope of `Revised_para_num` is detected anew, up to
three times for each kind of failure.

> The failing turn has chosen `Revised_para_num`, unless the dependency check
> ended by rejecting a Chinese manager.

A rejected manager leaves the choice of an earlier turn, or -1.
-/

namespace Knp

def PARA_MAX : Nat := 32

/-- The analysis at the head of the loop. -/
structure RetryState where
  env : CheckEnv
  sp : ParaSentence
  /-- `para_rel_matrix` of earlier turns and sentences -/
  rel : RelMatrix
  mem : CheckState
  /-- `Revised_para_num` -/
  revised : Int
  relationError : Nat
  dStructError : Nat

/-- How the body of the loop ends. -/
inductive TurnResult
  | paraOK (mem : CheckState)
  | relationFails (chosen : Option Nat) (mem : CheckState)
  | dStructFails (chosen : Option Nat) (mem : CheckState)

namespace RetryState

/-- The body of the loop. A failure comes with the value it assigned to
`Revised_para_num`. -/
def turn (r : RetryState) : Option TurnResult :=
  match detectParaRelation r.sp r.rel with
  | .error (.relBad i j) =>
      let (restrict, num) := reviseParaRel r.sp i j r.mem.restrict
      some (.relationFails (some num) { r.mem with restrict := restrict })
  | .error .tooManyPara => some (.relationFails none r.mem)
  | .ok st =>
      (checkDpndInPara r.env r.sp st r.mem).map fun (ok, chosen, mem) =>
        if ok then .paraOK mem else .dStructFails chosen mem

/-- `Revised_para_num` keeps its value if nothing is assigned to it. -/
def assign (r : RetryState) (chosen : Option Nat) : Int := chosen.elim r.revised fun n => n

/-- The state after a failing turn, when `detect_para_scope` is called with
`Revised_para_num`. -/
def failed (r : RetryState) : TurnResult → Option RetryState
  | .paraOK _ => none
  | .relationFails chosen mem =>
      some { r with
        mem := mem
        revised := r.assign chosen
        relationError := r.relationError + 1 }
  | .dStructFails chosen mem =>
      some { r with
        mem := mem
        revised := r.assign chosen
        dStructError := r.dStructError + 1 }

/-- A turn from `r` fails and leaves `r'`. -/
def Fails (r r' : RetryState) : Prop := ∃ res, r.turn = some res ∧ r.failed res = some r'

/-- The condition of the loop. -/
def goesOn (r : RetryState) : Bool := r.relationError ≤ 3 && r.dStructError ≤ 3

/-- What `detect_para_scope` and `assign_para_similarity_feature` keep. They
change scopes, restrictions and features. -/
structure Rescoped (r r' : RetryState) : Prop where
  language_eq : r'.env.language = r.env.language
  bnstNum_eq : r'.env.bnstNum = r.env.bnstNum
  paraNum_eq : r'.sp.paraNum = r.sp.paraNum
  revised_eq : r'.revised = r.revised
  relationError_eq : r'.relationError = r.relationError
  dStructError_eq : r'.dStructError = r.dStructError

/-- One time around the loop. -/
def Retry (r r' : RetryState) : Prop := ∃ r₁, r.Fails r₁ ∧ r₁.goesOn ∧ Rescoped r₁ r'

/-- The loop is entered. `check_para_key` has found coordinations, but not
`PARA_MAX` of them: then it returns `CONTINUE`. -/
structure Start (r : RetryState) : Prop where
  paraNum_pos : 0 < r.sp.paraNum
  paraNum_lt : r.sp.paraNum < PARA_MAX
  revised_eq : r.revised = -1
  relationError_eq : r.relationError = 0
  dStructError_eq : r.dStructError = 0

/-- The check that makes the turn from `r` fail has chosen coordination `n`. -/
inductive Chooses (r : RetryState) : Nat → Prop
  | relation {i j n} (hrel : detectParaRelation r.sp r.rel = .error (.relBad i j))
      (hnum : (reviseParaRel r.sp i j r.mem.restrict).2 = n) : Chooses r n
  | dStruct {st m s n s'} (hrel : detectParaRelation r.sp r.rel = .ok st)
      (hfails : FailsIn r.env r.sp st r.mem m s)
      (hcheck : checkManager r.env r.sp m s = some (false, some n, s')) : Chooses r n

/-- The turn from `r` ends at a rejected manager. -/
def EndsRejected (r : RetryState) : Prop :=
  ∃ st m s, detectParaRelation r.sp r.rel = .ok st ∧ FailsIn r.env r.sp st r.mem m s ∧
    Rejected r.env r.sp m s

/-! ## One turn -/

variable {r r₀ r' : RetryState}

/-- Only Chinese managers are rejected. -/
theorem not_endsRejected (h : r.env.language ≠ .chinese) : ¬ r.EndsRejected := by
  rintro ⟨_, _, _, -, -, hlang, -⟩
  exact h hlang

/-- A manager lists coordinations of the sentence. -/
theorem paraDataNum_lt {st : ParaState} (h : detectParaRelation r.sp r.rel = .ok st) (m : Nat) :
    ∀ n ∈ (st.manager m).paraDataNum, n < r.sp.paraNum := by
  intro n hn
  obtain ⟨st₁, st₂, hdetect, hrevise, rfl⟩ := detectParaRelation_eq_ok h
  obtain ⟨hbad, st₀, g, att, hl⟩ := detectManagers_linked hdetect
  have hsame : SameLinks st₁ (markPass r.sp st₂) :=
    (SameLinks.revisePass hrevise).trans (SameLinks.markPass st₂)
  rw [(hsame.node m).data_eq, hl.same.data_eq] at hn
  rcases lt_or_ge m st₀.paraMNum with hm | hm
  · exact (g.live_of_mem hm hn).1
  · rw [g.fresh m hm] at hn
    cases hn

/-- The relation check chooses one of the bad pair. -/
theorem reviseParaRel_lt {i j : Nat} {restrict : RestrictMatrix} (h : badPair r.sp = some (i, j)) :
    (reviseParaRel r.sp i j restrict).2 < r.sp.paraNum := by
  obtain ⟨hij, hj⟩ := mem_orderedPairs.mp (List.mem_of_find?_eq_some h)
  unfold reviseParaRel
  dsimp only
  cases reviseFlag (r.sp.paraData i) (r.sp.paraData j) with
  | sPre => exact hij.trans hj
  | pre => exact hij.trans hj
  | sPos => exact hj
  | pos => exact hj

/-- The two kinds of failure. -/
theorem Fails.cases (hn : r.sp.paraNum < PARA_PART_MAX) (h : r.Fails r') : r'.sp = r.sp ∧
    ((∃ i j, detectParaRelation r.sp r.rel = .error (.relBad i j) ∧ badPair r.sp = some (i, j) ∧
        r'.revised = (reviseParaRel r.sp i j r.mem.restrict).2) ∨
      ∃ st chosen mem, detectParaRelation r.sp r.rel = .ok st ∧
        checkDpndInPara r.env r.sp st r.mem = some (false, chosen, mem) ∧
        r'.revised = r.assign chosen) := by
  obtain ⟨res, hturn, hfailed⟩ := h
  unfold turn at hturn
  cases hrel : detectParaRelation r.sp r.rel with
  | error e =>
      obtain ⟨i, j, hbad, rfl⟩ := detectParaRelation_error hn hrel
      rw [hrel] at hturn
      obtain rfl := Option.some.inj hturn
      obtain rfl := Option.some.inj hfailed
      exact ⟨rfl, Or.inl ⟨i, j, rfl, hbad, rfl⟩⟩
  | ok st =>
      rw [hrel] at hturn
      obtain ⟨⟨ok, chosen, mem⟩, hcheck, rfl⟩ := Option.map_eq_some_iff.mp hturn
      cases ok with
      | true => cases hfailed
      | false =>
          obtain rfl := Option.some.inj hfailed
          exact ⟨rfl, Or.inr ⟨st, chosen, mem, rfl, hcheck, rfl⟩⟩

/-! ## All turns -/

/-- The number of coordinations does not change around the loop. -/
theorem paraNum_eq_of_run (h : Relation.ReflTransGen Retry r₀ r)
    (hn : r₀.sp.paraNum < PARA_PART_MAX) : r.sp.paraNum = r₀.sp.paraNum := by
  induction h with
  | refl => rfl
  | tail _ hstep ih =>
      obtain ⟨r₁, hfails, -, hre⟩ := hstep
      rw [hre.paraNum_eq, (hfails.cases (ih ▸ hn)).1, ih]

/-- In every turn that fails, `Revised_para_num` is a coordination that the
failing check of this turn has chosen, if and only if the turn does not end at
a rejected manager. -/
theorem revised_chosen_iff (hstart : Start r₀) (hrun : Relation.ReflTransGen Retry r₀ r)
    (hfails : r.Fails r') :
    (∃ n < r.sp.paraNum, r.Chooses n ∧ r'.revised = n) ↔ ¬ r.EndsRejected := by
  have hparaNum := paraNum_eq_of_run hrun hstart.paraNum_lt
  have hpos : 0 < r.sp.paraNum := hparaNum ▸ hstart.paraNum_pos
  have hn : r.sp.paraNum < PARA_PART_MAX := hparaNum ▸ hstart.paraNum_lt
  obtain ⟨-, ⟨i, j, hrel, hbad, hrevised⟩ | ⟨st, chosen, mem, hrel, hcheck, hrevised⟩⟩ :=
    hfails.cases hn
  · -- the relation check fails: it always chooses
    constructor
    · rintro - ⟨st, _, _, hok, -⟩
      rw [hrel] at hok
      cases hok
    · intro _
      exact ⟨_, reviseParaRel_lt hbad, .relation hrel rfl, hrevised⟩
  · obtain ⟨m, s, own, hs, hin, hown, hkeep⟩ :=
      checkDpndInPara_fails hpos (paraDataNum_lt hrel) hcheck
    have hcases := (checkManager_cases hpos hs hown).2
    constructor
    · rintro ⟨n, -, hchooses, -⟩ ⟨st', m', s', hok', hin', hrej⟩
      obtain rfl : st = st' := Except.ok.inj (hrel.symm.trans hok')
      obtain ⟨rfl, rfl⟩ := hin.unique hin'
      cases hchooses with
      | relation hbad => 
          rw [hrel] at hbad
          cases hbad
      | dStruct hok hin₂ hown₂ =>
          obtain rfl := Except.ok.inj (hrel.symm.trans hok)
          obtain ⟨rfl, rfl⟩ := hin.unique hin₂
          rcases (checkManager_cases hpos hs hown₂).2 with ⟨h, -⟩ | ⟨-, -, h⟩ | ⟨-, h, -⟩
          · cases h
          · exact h hrej
          · cases h
    · intro hnot
      rcases hcases with ⟨h, -⟩ | ⟨-, ⟨n, hlt, rfl⟩, -⟩ | ⟨-, -, hrej⟩
      · cases h
      · refine ⟨n, hlt, .dStruct hrel hin hown, ?_⟩
        rw [hrevised, hkeep n rfl]
        rfl
      · exact absurd ⟨st, m, s, hrel, hin, hrej⟩ hnot

end RetryState

/-- A sentence before its first turn, given by its coordinations and the
features of its bunsetsu. -/
def firstTurn (language : Lang) (sp : ParaSentence) (features : List (List String))
    (dpnd : Nat → Nat → Nat) : RetryState where
  env :=
    { bnstNum := sp.bnstNum
      language := language
      optParaFix := true
      feature := fun i f => (features.getD i.toNat []).contains f
      quote := fun _ _ => true
      chiNpStart := fun _ => -1
      chiNpEnd := fun _ => -1
      chiQuoteStart := fun _ => -1
      chiQuoteEnd := fun _ => -1 }
  sp := sp
  rel := fun _ _ => .not
  mem :=
    { mask := fun _ _ => 1
      dpnd := dpnd
      dCheck := fun _ => false
      dFound := fun _ => false
      restrict := fun _ _ => 1
      keyType := fun _ => .n
      manager := fun _ => emptyManager }
  revised := -1
  relationError := 0
  dStructError := 0

/-- A Japanese sentence in which no bunsetsu can depend on another. -/
def headless : RetryState :=
  firstTurn .japanese (.ofList 4 [⟨0, 1, 3, 5, .n⟩] (by simp) (by simp)) [] fun _ _ => 0

/-- In its second turn. -/
theorem headless_revised_chosen :
    ∃ r r', Relation.ReflTransGen RetryState.Retry headless r ∧ r.dStructError = 1 ∧
      r.Fails r' ∧ r'.goesOn ∧ ∃ n < r.sp.paraNum, r.Chooses n ∧ r'.revised = n := by
  let r : RetryState := { headless with revised := 0, dStructError := 1 }
  have hstart : RetryState.Start headless := ⟨by decide, by decide, rfl, rfl, rfl⟩
  have hrun : Relation.ReflTransGen RetryState.Retry headless r :=
    .single ⟨_, ⟨_, rfl, rfl⟩, by decide, ⟨rfl, rfl, rfl, rfl, rfl, rfl⟩⟩
  obtain ⟨r', hfails, hgoes⟩ : ∃ r', r.Fails r' ∧ r'.goesOn := ⟨_, ⟨_, rfl, rfl⟩, by decide⟩
  exact ⟨r, r', hrun, rfl, hfails, hgoes,
    (RetryState.revised_chosen_iff hstart hrun hfails).mpr (RetryState.not_endsRejected (by decide))⟩

/-- A Chinese noun coordination whose first part is a preposition. -/
def prepositionFirst : RetryState :=
  firstTurn .chinese (.ofList 3 [⟨0, 0, 2, 5, .n⟩] (by simp) (by simp))
    [["P"], ["CC"], ["NN"]] fun _ _ => 1

/-- The first turn rejects it, and `detect_para_scope` is called with -1. -/
theorem prepositionFirst_not_chosen : RetryState.Start prepositionFirst ∧
    ∃ r', prepositionFirst.Fails r' ∧ r'.goesOn ∧ r'.revised = -1 ∧
      ¬ ∃ n < prepositionFirst.sp.paraNum, prepositionFirst.Chooses n ∧ r'.revised = n := by
  obtain ⟨r', hfails, hgoes, hrevised⟩ : ∃ r', prepositionFirst.Fails r' ∧ r'.goesOn ∧
      r'.revised = -1 := ⟨_, ⟨_, rfl, rfl⟩, by decide, rfl⟩
  refine ⟨⟨by decide, by decide, rfl, rfl, rfl⟩, r', hfails, hgoes, hrevised, ?_⟩
  rintro ⟨n, -, -, hn⟩
  omega

end Knp
