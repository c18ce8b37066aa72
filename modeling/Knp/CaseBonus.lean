import Knp.SurfaceCase
import Knp.History

/-!
# The bonus of a case slot (`dpnd_analysis.c`, `cky.c`)

A dependant gets 10 points for a slot of its head: the slot of its case, or of
`ガ格` the second one (`ガ２`) if the first is taken. What is vacant in the end
goes to the dependants without a case and to the noun that the head modifies.

> `ガ２` given to a `ガ格` is noted in the slot of `ガ格`. So `ガ２` stays open, for
> the next `ガ格`, for a `ガ２` and as a vacant slot. Each slot is given once exactly
> if none of these comes after it.
-/

namespace Knp

open History

def woKaku : Nat := 1

def niKaku : Nat := 2

def noKaku : Nat := 9

/-- What the case of a dependant asks for; `timed` is `未格` of a time or a quantity. -/
inductive CaseClaim
  | nothing | timed | mikaku | no | ga
  | other (k : Nat)
deriving DecidableEq

inductive Scorer
  | dpndEvaluation | calcScore

/-- How many bytes a scorer skips in front of the case. -/
def Scorer.skip : Scorer → Nat
  | dpndEvaluation => 3
  | calcScore => BYTES4CHAR + 1

def Dependant.claim (d : Dependant) (skip : Nat) : CaseClaim :=
  match d.cp with
  | none => .nothing
  | some cp =>
      if cp = utf8 "係:未格" then if d.jikan || d.suryo then .timed else .mikaku
      else if cp = utf8 "係:ノ格" then .no
      else if cp = utf8 "係:ガ格" then .ga
      else match case2num (cp.drop skip) with
        | some k => .other k
        | none => .nothing

/-- A head, with `用言:動` and whether it takes the noun that it modifies as a case
(`係:連格`, not `外の関係`). -/
structure SlotHead extends Governor where
  yogenDo : Bool
  rentai : Bool

/-! ## The turns of the scorers -/

def Scorer.cases : Scorer → Governor → (Nat → Dependant) → List Nat → CaseSlots → CaseSlots
  | dpndEvaluation => evalCases
  | calcScore => ckyCases

/-- The loop of `dpnd_evaluation` ends at a `ノ格` that goes to no noun. -/
def Scorer.stops (sc : Scorer) (g : Governor) (c : CaseClaim) : Bool :=
  match sc, c with
  | dpndEvaluation, .no => !g.taigen
  | _, _ => false

namespace CaseSlots

def turn (sc : Scorer) (g : Governor) (c : CaseClaim) (j : Nat) (s : CaseSlots) : CaseSlots :=
  match c with
  | .nothing => s
  | .timed => { s with oneScore := s.oneScore + 10 }
  | .mikaku => { s with unCount := s.unCount + 1 }
  | .no => match sc with
      | .dpndEvaluation => if g.taigen then s else s.give j
      | .calcScore => if !g.taigen && g.scaseCode gaKaku then s.take gaKaku j else s
  | .ga => s.takeGa g j
  | .other k => s.take k j

/-- The slot that the dependant gets the bonus for. -/
def bonus (sc : Scorer) (g : Governor) (c : CaseClaim) (s : CaseSlots) : Option Nat :=
  let free (k : Nat) := g.scaseCode k && !s.scaseCheck k
  match c with
  | .nothing | .timed | .mikaku => none
  | .no => match sc with
      | .dpndEvaluation => if g.taigen then none else some noKaku
      | .calcScore => if !g.taigen && free gaKaku then some gaKaku else none
  | .ga => if free gaKaku then some gaKaku else if free ga2 then some ga2 else none
  | .other k => if s.scaseCheck k then none else some k

end CaseSlots

section Turns

variable {sc : Scorer} {g : Governor} {dep : Nat → Dependant} {s : CaseSlots} {j : Nat}
  {js : List Nat}

theorem mikaku_turn (d : Dependant) : s.mikaku d =
    s.turn sc g (if d.jikan || d.suryo then .timed else .mikaku) j := by
  unfold CaseSlots.mikaku
  split <;> rfl

theorem mikaku_stops (d : Dependant) :
    sc.stops g (if d.jikan || d.suryo then .timed else .mikaku) = false := by
  cases sc <;> split <;> rfl

theorem evalCases_cons : evalCases g dep (j :: js) s =
    if Scorer.dpndEvaluation.stops g ((dep j).claim 3) then
      s.turn .dpndEvaluation g ((dep j).claim 3) j
    else evalCases g dep js (s.turn .dpndEvaluation g ((dep j).claim 3) j) := by
  rw [evalCases]
  unfold Dependant.claim
  cases (dep j).cp with
  | none => rfl
  | some cp =>
      dsimp only
      by_cases hmi : cp = utf8 "係:未格"
      · simp only [if_pos hmi, mikaku_stops, Bool.false_eq_true, if_false, ← mikaku_turn]
      by_cases hno : cp = utf8 "係:ノ格"
      · simp only [if_neg hmi, if_pos hno]
        cases htaigen : g.taigen <;> simp [Scorer.stops, CaseSlots.turn, htaigen]
      by_cases hga : cp = utf8 "係:ガ格"
      · simp only [if_neg hmi, if_neg hno, if_pos hga]
        rfl
      simp only [if_neg hmi, if_neg hno, if_neg hga]
      cases case2num (cp.drop 3) <;> rfl

theorem ckyCases_cons : ckyCases g dep (j :: js) s =
    ckyCases g dep js (s.turn .calcScore g ((dep j).claim (BYTES4CHAR + 1)) j) := by
  rw [ckyCases]
  unfold Dependant.claim
  cases (dep j).cp with
  | none => rfl
  | some cp =>
      dsimp only
      by_cases hmi : cp = utf8 "係:未格"
      · simp only [if_pos hmi, ← mikaku_turn]
      by_cases hno : cp = utf8 "係:ノ格"
      · simp only [if_neg hmi, if_pos hno, CaseSlots.turn]
        split <;> rfl
      by_cases hga : cp = utf8 "係:ガ格"
      · simp only [if_neg hmi, if_neg hno, if_pos hga]
        rfl
      simp only [if_neg hmi, if_neg hno, if_neg hga]
      cases case2num (cp.drop (BYTES4CHAR + 1)) <;> rfl

theorem cases_cons : sc.cases g dep (j :: js) s =
    if sc.stops g ((dep j).claim sc.skip) then s.turn sc g ((dep j).claim sc.skip) j
    else sc.cases g dep js (s.turn sc g ((dep j).claim sc.skip) j) := by
  cases sc
  · exact evalCases_cons
  · exact ckyCases_cons

/-- The points of a turn: 10 for a slot, 10 for a time or a quantity. -/
theorem turn_oneScore (c : CaseClaim) : (s.turn sc g c j).oneScore =
    s.oneScore + 10 * (s.bonus sc g c).toList.length + 10 * [c].count .timed := by
  cases c with
  | nothing | mikaku | timed => rfl
  | other k =>
      cases hk : s.scaseCheck k <;>
        simp [CaseSlots.turn, CaseSlots.bonus, CaseSlots.take, CaseSlots.give, hk]
  | ga =>
      cases hga : g.scaseCode gaKaku && !s.scaseCheck gaKaku
      · cases hga2 : g.scaseCode ga2 && !s.scaseCheck ga2 <;>
          simp [CaseSlots.turn, CaseSlots.bonus, CaseSlots.takeGa, CaseSlots.give, hga, hga2]
      · obtain ⟨hcode, hopen⟩ : g.scaseCode gaKaku = true ∧ s.scaseCheck gaKaku = false := by
          simpa using hga
        simp [CaseSlots.turn, CaseSlots.bonus, CaseSlots.takeGa, CaseSlots.take, CaseSlots.give,
          hcode, hopen]
  | no =>
      cases sc
      · cases htaigen : g.taigen <;>
          simp [CaseSlots.turn, CaseSlots.bonus, CaseSlots.give, htaigen]
      · cases hno : !g.taigen && g.scaseCode gaKaku
        · simp [CaseSlots.turn, CaseSlots.bonus, hno, ← Bool.and_assoc]
        · cases hopen : s.scaseCheck gaKaku <;>
            simp [CaseSlots.turn, CaseSlots.bonus, CaseSlots.take, CaseSlots.give, hno, hopen]

/-- `ガ格` and `ノ格` are asked for before the case is read. -/
theorem claim_ne (d : Dependant) : d.claim sc.skip ≠ .other gaKaku ∧
    d.claim sc.skip ≠ .other noKaku := by
  unfold Dependant.claim
  cases hv : d.kakari with
  | none => simp [Dependant.cp, hv]
  | some v =>
      have hcp : d.cp = some (utf8 "係:" ++ v) := by rw [Dependant.cp, hv]; rfl
      simp only [hcp]
      by_cases hmi : utf8 "係:" ++ v = utf8 "係:未格"
      · rw [if_pos hmi]
        split <;> simp
      by_cases hno : utf8 "係:" ++ v = utf8 "係:ノ格"
      · rw [if_neg hmi, if_pos hno]
        simp
      by_cases hga : utf8 "係:" ++ v = utf8 "係:ガ格"
      · rw [if_neg hmi, if_neg hno, if_pos hga]
        simp
      rw [if_neg hmi, if_neg hno, if_neg hga]
      cases sc with
      | dpndEvaluation => simp [Scorer.skip, case2num_drop_three]
      | calcScore =>
          rw [Scorer.skip, drop_four]
          cases hk : case2num v with
          | none => simp
          | some k =>
              obtain ⟨hlt, hname, -⟩ := List.findIdx?_eq_some_iff_getElem.mp hk
              have hv : v = caseName[k] := of_decide_eq_true hname
              constructor
              · rintro heq
                obtain rfl := CaseClaim.other.inj heq
                exact hga (by rw [hv]; rfl)
              · rintro heq
                obtain rfl := CaseClaim.other.inj heq
                exact hno (by rw [hv]; rfl)

/-! What a slot that is taken changes. -/

theorem take_scaseCheck {k k' : Nat} :
    (s.take k j).scaseCheck k' = true ↔ s.scaseCheck k' = true ∨ k = k' := by
  unfold CaseSlots.take
  split
  case isTrue hk =>
    refine ⟨Or.inl, fun h => h.elim id ?_⟩
    rintro rfl
    exact hk
  case isFalse hk =>
    by_cases heq : k' = k
    · simp [heq]
    · simp [heq, Ne.symm heq]

theorem take_unCount {k : Nat} : (s.take k j).unCount = s.unCount := by
  unfold CaseSlots.take
  split <;> rfl

/-- Whichever slot `ガ格` takes, only the first one is noted. -/
theorem takeGa_scaseCheck {k : Nat} (hk : k ≠ gaKaku) :
    (s.takeGa g j).scaseCheck k = s.scaseCheck k := by
  unfold CaseSlots.takeGa CaseSlots.take
  split_ifs
  · rfl
  · exact if_neg hk
  · exact if_neg hk
  · rfl

theorem takeGa_scaseCheck_ga (hga : g.scaseCode gaKaku = true) :
    (s.takeGa g j).scaseCheck gaKaku = true := by
  unfold CaseSlots.takeGa
  rw [hga, Bool.true_and]
  split_ifs with hopen
  · exact take_scaseCheck.mpr (Or.inr rfl)
  · simp
  · simpa using hopen

theorem takeGa_unCount : (s.takeGa g j).unCount = s.unCount := by
  unfold CaseSlots.takeGa
  split_ifs
  · exact take_unCount
  · rfl
  · rfl

end Turns

/-! ## What the claims before a dependant say -/

/-- The first slot of `ガ格` is claimed. -/
def GaClaimed (g : Governor) (pre : List CaseClaim) : Prop :=
  .ga ∈ pre ∨ (.no ∈ pre ∧ g.taigen = false)

instance (g : Governor) (pre : List CaseClaim) : Decidable (GaClaimed g pre) :=
  inferInstanceAs (Decidable (_ ∨ _))

/-- A `ガ格` that comes now gets the second slot, which no `ガ２` has taken yet. -/
def SecondGa (g : Governor) (pre : List CaseClaim) : Prop :=
  g.scaseCode ga2 = true ∧ (g.scaseCode gaKaku = true → GaClaimed g pre) ∧ .other ga2 ∉ pre

instance (g : Governor) (pre : List CaseClaim) : Decidable (SecondGa g pre) :=
  inferInstanceAs (Decidable (_ ∧ _))

/-- The slot that a claim gets, by the claims before. -/
def bonusAt (g : Governor) (pre : List CaseClaim) : CaseClaim → Option Nat
  | .nothing | .timed | .mikaku => none
  | .no => if g.taigen = false ∧ g.scaseCode gaKaku = true ∧ ¬ GaClaimed g pre then some gaKaku
      else none
  | .ga => if g.scaseCode gaKaku = true ∧ ¬ GaClaimed g pre then some gaKaku
      else if SecondGa g pre then some ga2 else none
  | .other k => if .other k ∈ pre then none else some k

/-- The bookkeeping after the claims. -/
structure Follows (g : Governor) (pre : List CaseClaim) (s : CaseSlots) : Prop where
  ga : g.scaseCode gaKaku = true → (s.scaseCheck gaKaku = true ↔ GaClaimed g pre)
  other : ∀ k ≠ gaKaku, s.scaseCheck k = true ↔ .other k ∈ pre
  un : s.unCount = pre.count .mikaku

section Follow

variable {sc : Scorer} {g : Governor} {s s' : CaseSlots} {pre : List CaseClaim} {c : CaseClaim}

theorem gaClaimed_append : GaClaimed g (pre ++ [c]) ↔
    GaClaimed g pre ∨ c = .ga ∨ (c = .no ∧ g.taigen = false) := by
  unfold GaClaimed
  simp only [List.mem_append, List.mem_singleton, eq_comm (b := c)]
  tauto

theorem other_mem_append {k : Nat} :
    CaseClaim.other k ∈ pre ++ [c] ↔ .other k ∈ pre ∨ c = .other k := by
  rw [List.mem_append, List.mem_singleton, eq_comm (b := c)]

theorem Follows.init : Follows g [] .init where
  ga _ := by simp [CaseSlots.init, GaClaimed]
  other k _ := by simp [CaseSlots.init]
  un := rfl

/-- The bookkeeping after one more claim. -/
theorem Follows.turn (h : Follows g pre s) (hc : c ≠ .other gaKaku) (hstop : sc.stops g c = false)
    (j : Nat) : Follows g (pre ++ [c]) (s.turn sc g c j) := by
  cases c with
  | nothing | timed =>
      exact ⟨fun hga => (h.ga hga).trans (by simp [gaClaimed_append]),
        fun k hk => (h.other k hk).trans (by simp), h.un.trans (by simp)⟩
  | mikaku =>
      refine ⟨fun hga => (h.ga hga).trans (by simp [gaClaimed_append]),
        fun k hk => (h.other k hk).trans (by simp), ?_⟩
      simp [CaseSlots.turn, h.un]
  | other k =>
      refine ⟨fun hga => ?_, fun k' hk' => ?_, ?_⟩
      · rw [gaClaimed_append, CaseSlots.turn, take_scaseCheck, h.ga hga]
        have hne : k ≠ gaKaku := fun heq => hc (congrArg _ heq)
        simp [hne]
      · rw [CaseSlots.turn, take_scaseCheck, h.other k' hk', other_mem_append]
        simp
      · simp [CaseSlots.turn, take_unCount, h.un]
  | ga =>
      refine ⟨fun hga => ?_, fun k hk => ?_, ?_⟩
      · simp [gaClaimed_append, CaseSlots.turn, takeGa_scaseCheck_ga hga]
      · rw [CaseSlots.turn, takeGa_scaseCheck hk, h.other k hk, other_mem_append]
        simp
      · simp [CaseSlots.turn, takeGa_unCount, h.un]
  | no =>
      have hsame : Follows g pre s → (g.scaseCode gaKaku = true → g.taigen = true) →
          Follows g (pre ++ [.no]) s := fun h htaigen =>
        ⟨fun hga => (h.ga hga).trans (by simp [gaClaimed_append, htaigen hga]),
          fun k hk => (h.other k hk).trans (by simp), h.un.trans (by simp)⟩
      cases sc with
      | dpndEvaluation =>
          have htaigen : g.taigen = true := by simpa [Scorer.stops] using hstop
          rw [CaseSlots.turn, if_pos htaigen]
          exact hsame h fun _ => htaigen
      | calcScore =>
          rw [CaseSlots.turn]
          split
          case isFalse hno => exact hsame h fun hga => by simpa [hga] using hno
          case isTrue hyes =>
            have htaigen : g.taigen = false := by simp_all
            refine ⟨fun _ => ?_, fun k hk => ?_, ?_⟩
            · simp [gaClaimed_append, take_scaseCheck, htaigen]
            · rw [take_scaseCheck, h.other k hk, other_mem_append]
              simp [Ne.symm hk]
            · simp [take_unCount, h.un]

/-- The bonus at the state is the one by the claims before. -/
theorem Follows.bonus (h : Follows g pre s) (hc : c ≠ .other gaKaku)
    (hstop : sc.stops g c = false) : s.bonus sc g c = bonusAt g pre c := by
  have hfree : (g.scaseCode gaKaku && !s.scaseCheck gaKaku) = true ↔
      g.scaseCode gaKaku = true ∧ ¬ GaClaimed g pre := by
    rw [Bool.and_eq_true, Bool.not_eq_true', ← Bool.not_eq_true]
    exact and_congr_right fun hga => not_congr (h.ga hga)
  cases c with
  | nothing | timed | mikaku => rfl
  | other k => exact if_congr (h.other k fun heq => hc (congrArg _ heq)) rfl rfl
  | ga =>
      rw [CaseSlots.bonus, bonusAt, if_congr hfree rfl rfl]
      by_cases hga : g.scaseCode gaKaku = true ∧ ¬ GaClaimed g pre
      · rw [if_pos hga, if_pos hga]
      · rw [if_neg hga, if_neg hga]
        refine if_congr ?_ rfl rfl
        have hcheck := h.other ga2 (by decide)
        rw [Bool.and_eq_true, Bool.not_eq_true', ← Bool.not_eq_true, hcheck]
        exact and_congr_right fun _ => (and_iff_right fun hcode => not_not.mp fun hno =>
          hga ⟨hcode, hno⟩).symm
  | no =>
      cases sc with
      | dpndEvaluation =>
          have htaigen : g.taigen = true := by simpa [Scorer.stops] using hstop
          simp [CaseSlots.bonus, bonusAt, htaigen]
      | calcScore =>
          refine if_congr ?_ rfl rfl
          rw [Bool.and_eq_true, hfree, Bool.not_eq_true']

end Follow

/-! ## The run over the dependants -/

/-- The slots that the dependants get the bonus for, in the order of the loop. -/
def awards (sc : Scorer) (g : Governor) (dep : Nat → Dependant) : List Nat → CaseSlots → List Nat
  | [], _ => []
  | j :: js, s =>
      let c := (dep j).claim sc.skip
      (s.bonus sc g c).toList ++
        if sc.stops g c then [] else awards sc g dep js (s.turn sc g c j)

/-- The claims of the dependants, up to the one that ends the loop. -/
def heard (sc : Scorer) (g : Governor) (dep : Nat → Dependant) (js : List Nat) : List CaseClaim :=
  (js.map fun j => (dep j).claim sc.skip).takeWhile fun c => !sc.stops g c

section Run

variable {sc : Scorer} {g : Governor} {dep : Nat → Dependant} {j : Nat} {js : List Nat}

theorem heard_cons : heard sc g dep (j :: js) =
    if sc.stops g ((dep j).claim sc.skip) then []
    else (dep j).claim sc.skip :: heard sc g dep js := by
  unfold heard
  rw [List.map_cons, List.takeWhile_cons]
  cases sc.stops g ((dep j).claim sc.skip) <;> rfl

/-- Only a `ノ格` ends the loop, and it gets the bonus of its own slot. -/
theorem stops_bonus {c : CaseClaim} (h : sc.stops g c = true) :
    c = .no ∧ ∀ s : CaseSlots, s.bonus sc g c = some noKaku ∧ s.turn sc g c j = s.give j := by
  cases sc with
  | calcScore => cases h
  | dpndEvaluation =>
      cases c with
      | no =>
          have htaigen : g.taigen = false := by simpa [Scorer.stops] using h
          exact ⟨rfl, fun s => ⟨by simp [CaseSlots.bonus, htaigen],
            by simp [CaseSlots.turn, htaigen]⟩⟩
      | _ => cases h

/-- The points of the loop. -/
theorem cases_oneScore : ∀ {js : List Nat} {s : CaseSlots}, (sc.cases g dep js s).oneScore =
    s.oneScore + 10 * (awards sc g dep js s).length + 10 * (heard sc g dep js).count .timed
  | [], s => by cases sc <;> rfl
  | j :: js, s => by
      rw [cases_cons, awards, heard_cons]
      cases hstop : sc.stops g ((dep j).claim sc.skip)
      · simp only [Bool.false_eq_true, if_false]
        rw [cases_oneScore, turn_oneScore, List.length_append,
          ← List.singleton_append (l := heard sc g dep js), List.count_append]
        omega
      · obtain ⟨hno, -⟩ := stops_bonus (j := j) hstop
        simp only [if_true]
        rw [turn_oneScore, hno, List.append_nil]
        rfl

/-- The awards are those by the claims that are heard, and the slot of the `ノ格` that ends
the loop. -/
theorem awards_eq : ∀ {js : List Nat} {pre : List CaseClaim} {s : CaseSlots}, Follows g pre s →
    Follows g (pre ++ heard sc g dep js) (sc.cases g dep js s) ∧
      awards sc g dep js s = outputs (bonusAt g) pre (heard sc g dep js) ++
        if ∃ j ∈ js, sc.stops g ((dep j).claim sc.skip) = true then [noKaku] else []
  | [], pre, s, h => by
      refine ⟨?_, by simp [awards, heard, outputs]⟩
      rw [heard, List.map_nil, List.takeWhile_nil, List.append_nil]
      cases sc <;> exact h
  | j :: js, pre, s, h => by
      rw [cases_cons, awards, heard_cons]
      cases hstop : sc.stops g ((dep j).claim sc.skip)
      · simp only [Bool.false_eq_true, if_false, List.exists_mem_cons_iff, hstop, false_or]
        have hne : (dep j).claim sc.skip ≠ .other gaKaku := (claim_ne (dep j)).1
        obtain ⟨hrun, hrest⟩ := @awards_eq js _ _ (h.turn hne hstop j)
        refine ⟨by rwa [← List.append_cons] at hrun, ?_⟩
        rw [hrest, h.bonus hne hstop, outputs, List.append_assoc]
      · obtain ⟨-, hturn⟩ := stops_bonus (j := j) hstop
        obtain ⟨hbonus, hgive⟩ := hturn s
        simp only [if_true, List.exists_mem_cons_iff, hstop, true_or]
        rw [hbonus, hgive, List.append_nil]
        exact ⟨⟨h.ga, h.other, h.un⟩, rfl⟩

end Run

/-! ## Each slot once -/

/-- The claim that notes slot `k` has come. -/
def SlotClaimed (g : Governor) (pre : List CaseClaim) (k : Nat) : Prop :=
  if k = gaKaku then GaClaimed g pre else .other k ∈ pre

section Once

variable {g : Governor} {pre cs : List CaseClaim} {c : CaseClaim} {k : Nat}

theorem SlotClaimed.mono (h : SlotClaimed g pre k) (hsub : pre ⊆ cs) : SlotClaimed g cs k := by
  unfold SlotClaimed at h ⊢
  split_ifs at h ⊢
  · exact h.imp (fun hga => hsub hga) fun hno => ⟨hsub hno.1, hno.2⟩
  · exact hsub h

theorem SecondGa.append (h : SecondGa g pre) (hc : c ≠ .other ga2) : SecondGa g (pre ++ [c]) :=
  ⟨h.1, fun hga => gaClaimed_append.mpr (Or.inl (h.2.1 hga)),
    fun hmem => (other_mem_append.mp hmem).elim h.2.2 hc⟩

theorem bonusAt_ga2 : bonusAt g pre c = some ga2 ↔
    (c = .ga ∧ SecondGa g pre) ∨ (c = .other ga2 ∧ .other ga2 ∉ pre) := by
  cases c with
  | nothing | timed | mikaku => simp [bonusAt]
  | no =>
      rw [bonusAt]
      split_ifs <;> simp [gaKaku, ga2]
  | other k =>
      rw [bonusAt]
      by_cases hk : k = ga2
      · simp [hk]
      · simp [hk, apply_ite (· = some ga2)]
  | ga =>
      rw [bonusAt]
      split_ifs with hga hsecond
      · have hno : ¬ SecondGa g pre := fun h => hga.2 (h.2.1 hga.1)
        simp [hno, gaKaku, ga2]
      · simp [hsecond]
      · simp [hsecond]

/-- Any slot but `ガ２` is open before it is given, and noted then. -/
theorem bonusAt_claimed (hc : c ≠ .other gaKaku) (hk : k ≠ ga2) (h : bonusAt g pre c = some k) :
    ¬ SlotClaimed g pre k ∧ SlotClaimed g (pre ++ [c]) k := by
  unfold SlotClaimed
  cases c with
  | nothing | timed | mikaku => cases h
  | no =>
      rw [bonusAt, Option.ite_none_right_eq_some] at h
      obtain ⟨⟨htaigen, -, hopen⟩, heq⟩ := h
      obtain rfl := Option.some.inj heq
      rw [if_pos rfl, if_pos rfl, gaClaimed_append]
      exact ⟨hopen, Or.inr (Or.inr ⟨rfl, htaigen⟩)⟩
  | ga =>
      rw [bonusAt] at h
      split_ifs at h with hga hsecond
      · obtain rfl := Option.some.inj h
        rw [if_pos rfl, if_pos rfl, gaClaimed_append]
        exact ⟨hga.2, Or.inr (Or.inl rfl)⟩
      · exact absurd (Option.some.inj h).symm hk
  | other k' =>
      rw [bonusAt, Option.ite_none_left_eq_some] at h
      obtain ⟨hopen, heq⟩ := h
      obtain rfl := Option.some.inj heq
      have hne : k' ≠ gaKaku := fun heq => hc (congrArg _ heq)
      rw [if_neg hne, if_neg hne, other_mem_append]
      exact ⟨hopen, Or.inr rfl⟩

/-- Where the second slot is open to a `ガ格`, the next `ガ格` or `ガ２` gets it. -/
theorem ga2_mem_outputs : ∀ {cs : List CaseClaim} {pre : List CaseClaim}, SecondGa g pre →
    (ga2 ∈ outputs (bonusAt g) pre cs ↔ .ga ∈ cs ∨ .other ga2 ∈ cs)
  | [], _, _ => by simp [outputs]
  | c :: cs, pre, h => by
      rw [mem_outputs_cons, bonusAt_ga2, List.mem_cons, List.mem_cons,
        eq_comm (b := c), eq_comm (b := c)]
      by_cases hga : c = .ga
      · simp [hga, h]
      by_cases hga2 : c = .other ga2
      · simp [hga2, h.2.2]
      rw [ga2_mem_outputs (h.append hga2)]
      simp [hga, hga2]

/-- The bonuses are distinct exactly if a `ガ格` that gets the second slot is followed by no
other `ガ格`, and by no `ガ２`. -/
theorem nodup_bonusAt_iff (hcs : ∀ c ∈ cs, c ≠ .other gaKaku) :
    (outputs (bonusAt g) [] cs).Nodup ↔ ∀ pre post, cs = pre ++ .ga :: post →
      SecondGa g pre → .ga ∉ post ∧ .other ga2 ∉ post := by
  have hsecond {pre post : List CaseClaim} (h : SecondGa g pre) :
      ga2 ∉ outputs (bonusAt g) (pre ++ [.ga]) post ↔ .ga ∉ post ∧ .other ga2 ∉ post := by
    rw [ga2_mem_outputs (h.append (by decide)), not_or]
  rw [nodup_outputs_iff]
  simp only [List.nil_append]
  constructor
  · intro h pre post heq hpre
    exact (hsecond hpre).mp (h pre .ga post heq ga2 (bonusAt_ga2.mpr (Or.inl ⟨rfl, hpre⟩)))
  · intro h pre c post heq k hk
    by_cases hk2 : k = ga2
    · subst hk2
      obtain ⟨rfl, hpre⟩ | ⟨rfl, hopen⟩ := bonusAt_ga2.mp hk
      · exact (hsecond hpre).mpr (h pre post heq hpre)
      · refine not_mem_outputs (fun pre => .other ga2 ∈ pre)
          (fun pre a h => List.mem_append_left _ h) (fun pre a _ hmark hout => ?_)
          (List.mem_append_right _ List.mem_cons_self)
        obtain ⟨-, hpre⟩ | ⟨-, hopen⟩ := bonusAt_ga2.mp hout
        · exact hpre.2.2 hmark
        · exact hopen hmark
    · have hmem : c ∈ cs := heq ▸ List.mem_append_right _ List.mem_cons_self
      refine not_mem_outputs (SlotClaimed g · k) (fun pre a h => h.mono (List.subset_append_left pre [a]))
        (fun pre a ha hmark hout => ?_) (bonusAt_claimed (hcs c hmem) hk2 hk).2
      have ha' : a ∈ cs := heq ▸ List.mem_append_right _ (List.mem_cons_of_mem c ha)
      exact (bonusAt_claimed (hcs a ha') hk2 hout).1 hmark

end Once

/-! ## All bonuses of a head -/

/-- 空いているガ格,ヲ格,ニ格,ガ２ -/
def vacantSlots (g : SlotHead) (scaseCheck : Nat → Bool) (rentai : Bool) : List Nat :=
  -- ニ格は動詞で連体修飾の場合だけ考慮
  [gaKaku, woKaku, niKaku, ga2].filter fun k =>
    g.scaseCode k && !scaseCheck k && (k != niKaku || (rentai && g.yogenDo))

/-- `check_scase`: 空きスロット分だけ連体修飾，未格にスコアを与える -/
def checkScase (g : SlotHead) (scaseCheck : Nat → Bool) (rentai : Bool) (unCount : Nat) : Nat :=
  let vacantSlotNum := (vacantSlots g scaseCheck rentai).length
  if rentai.toNat + unCount ≤ vacantSlotNum then (rentai.toNat + unCount) * 10
  else vacantSlotNum * 10

/-- The vacant slots that are given in the end, in the order in which they are looked for. -/
def vacantGiven (g : SlotHead) (s : CaseSlots) : List Nat :=
  (vacantSlots g s.scaseCheck g.rentai).take (g.rentai.toNat + s.unCount)

/-- The dependants whose cases are looked at: those of a predicate. -/
def SlotHead.listens (g : SlotHead) (js : List Nat) : List Nat := if g.pred then js else []

/-- The slots of head `g` that points are given for. -/
def slotBonuses (sc : Scorer) (g : SlotHead) (dep : Nat → Dependant) (js : List Nat) : List Nat :=
  awards sc g.toGovernor dep (g.listens js) .init ++
    match sc with
    | .dpndEvaluation => if g.pred then
        vacantGiven g (sc.cases g.toGovernor dep js .init) else []
    | .calcScore => vacantGiven g (sc.cases g.toGovernor dep (g.listens js) .init)

/-- The points for the cases of `g`. `calc_score` adds those for the noun that `g` modifies
when `g` is put to it, as the difference of two values of `check_scase`. -/
def caseScore (sc : Scorer) (g : SlotHead) (dep : Nat → Dependant) (js : List Nat) : Nat :=
  match sc with
  | .dpndEvaluation =>
      if g.pred then
        let s := evalCases g.toGovernor dep js .init
        s.oneScore + checkScase g s.scaseCheck g.rentai s.unCount
      else 0
  | .calcScore =>
      let s := ckyCases g.toGovernor dep (g.listens js) .init
      s.oneScore + (if g.pred then checkScase g s.scaseCheck false s.unCount else 0) +
        if g.rentai then checkScase g s.scaseCheck true s.unCount -
          checkScase g s.scaseCheck false s.unCount else 0

section Vacant

variable {g : SlotHead} {s : CaseSlots} {cs : List CaseClaim} {k : Nat}

theorem checkScase_eq (scaseCheck : Nat → Bool) (rentai : Bool) (unCount : Nat) :
    checkScase g scaseCheck rentai unCount =
      10 * ((vacantSlots g scaseCheck rentai).take (rentai.toNat + unCount)).length := by
  rw [checkScase, List.length_take]
  split_ifs <;> omega

/-- The noun that is modified can only have more slots to take. -/
theorem checkScase_le (scaseCheck : Nat → Bool) (unCount : Nat) :
    checkScase g scaseCheck false unCount ≤ checkScase g scaseCheck true unCount := by
  have hsub : (vacantSlots g scaseCheck false).length ≤ (vacantSlots g scaseCheck true).length := by
    refine List.Sublist.length_le (List.monotone_filter_right _ fun k hk => ?_)
    simp_all
  rw [checkScase_eq, checkScase_eq, List.length_take, List.length_take]
  simp only [Bool.toNat_false, Bool.toNat_true]
  omega

theorem mem_vacantSlots {scaseCheck : Nat → Bool} {rentai : Bool}
    (h : k ∈ vacantSlots g scaseCheck rentai) :
    k ∈ [gaKaku, woKaku, niKaku, ga2] ∧ g.scaseCode k = true ∧ scaseCheck k = false := by
  obtain ⟨hk, hfree⟩ := List.mem_filter.mp h
  simp only [Bool.and_eq_true, Bool.not_eq_true'] at hfree
  exact ⟨hk, hfree.1.1, hfree.1.2⟩

theorem vacantGiven_nodup : (vacantGiven g s).Nodup :=
  ((List.nodup_iff_pairwise_ne.mpr (by decide)).filter _).sublist (List.take_sublist _ _)

/-- The points that `calc_score` gives in two steps. -/
theorem checkScase_add (hquiet : g.pred = false → s.unCount = 0) :
    (if g.pred then checkScase g s.scaseCheck false s.unCount else 0) +
      (if g.rentai then checkScase g s.scaseCheck true s.unCount -
        checkScase g s.scaseCheck false s.unCount else 0) = 10 * (vacantGiven g s).length := by
  have hown : (if g.pred then checkScase g s.scaseCheck false s.unCount else 0) =
      checkScase g s.scaseCheck false s.unCount := by
    cases hpred : g.pred
    · simp [checkScase, hquiet hpred]
    · rfl
  rw [hown, vacantGiven, ← checkScase_eq]
  cases g.rentai
  · rfl
  · exact Nat.add_sub_of_le (checkScase_le s.scaseCheck s.unCount)

end Vacant

/-! ## The points -/

/-- All points for the cases of a head are its bonuses, and those for times and quantities. -/
theorem caseScore_eq (sc : Scorer) (g : SlotHead) (dep : Nat → Dependant) (js : List Nat) :
    caseScore sc g dep js = 10 * (slotBonuses sc g dep js).length +
      10 * (heard sc g.toGovernor dep (g.listens js)).count .timed := by
  have hloop := @cases_oneScore sc g.toGovernor dep (g.listens js) .init
  unfold slotBonuses
  rw [List.length_append]
  cases sc with
  | dpndEvaluation =>
      cases hpred : g.pred
      · simp [caseScore, SlotHead.listens, hpred, awards, heard]
      · simp only [caseScore, SlotHead.listens, hpred, if_true, checkScase_eq, vacantGiven,
          Scorer.cases] at hloop ⊢
        rw [hloop]
        simp only [CaseSlots.init]
        omega
  | calcScore =>
      have hlast := checkScase_add (g := g) (s := ckyCases g.toGovernor dep (g.listens js) .init)
        fun hpred => by rw [SlotHead.listens, hpred]; rfl
      simp only [caseScore, Scorer.cases] at hloop ⊢
      rw [Nat.add_assoc, hlast, hloop]
      simp only [CaseSlots.init]
      omega

/-! ## Each slot once -/

/-- The slots of `ヲ格` and `ニ格` that no dependant claims. -/
def freeSlots (g : SlotHead) (cs : List CaseClaim) : List Nat :=
  [woKaku, niKaku].filter fun k =>
    g.scaseCode k && decide (.other k ∉ cs) && (k != niKaku || (g.rentai && g.yogenDo))

/-- After a `ガ格` that gets the second slot comes no other `ガ格`, no `ガ２`, and what has no
case of its own finds place in the free slots. -/
def SecondGaOnce (g : SlotHead) (cs : List CaseClaim) : Prop :=
  ∀ pre post, cs = pre ++ .ga :: post → SecondGa g.toGovernor pre →
    .ga ∉ post ∧ .other ga2 ∉ post ∧
      g.rentai.toNat + cs.count .mikaku ≤ (freeSlots g cs).length

section Once

variable {g : SlotHead} {s : CaseSlots} {cs pre post : List CaseClaim} {k : Nat}

/-- What is vacant is not claimed. -/
theorem Follows.vacant (h : Follows g.toGovernor cs s)
    (hk : k ∈ vacantSlots g s.scaseCheck g.rentai) : ¬ SlotClaimed g.toGovernor cs k := by
  obtain ⟨-, hcode, hcheck⟩ := mem_vacantSlots hk
  unfold SlotClaimed
  split_ifs with hga
  · subst hga
    rw [← h.ga hcode, hcheck]
    exact Bool.false_ne_true
  · rw [← h.other k hga, hcheck]
    exact Bool.false_ne_true

/-- Once a `ガ格` has come to the second slot, `ガ２` is the last vacant slot, and the first slot
of `ガ格` is not vacant. -/
theorem Follows.vacantSlots_eq (h : Follows g.toGovernor cs s) (hcs : cs = pre ++ .ga :: post)
    (hsecond : SecondGa g.toGovernor pre) (hopen : .other ga2 ∉ cs) :
    vacantSlots g s.scaseCheck g.rentai = freeSlots g cs ++ [ga2] := by
  have hother : ∀ k ≠ gaKaku, s.scaseCheck k = decide (.other k ∈ cs) := fun k hk =>
    Bool.eq_iff_iff.mpr ((h.other k hk).trans decide_eq_true_iff.symm)
  have hga : (g.scaseCode gaKaku && !s.scaseCheck gaKaku) = false := by
    cases hcode : g.scaseCode gaKaku
    · rfl
    · have hclaimed : GaClaimed g.toGovernor cs :=
        Or.inl (hcs ▸ List.mem_append_right _ List.mem_cons_self)
      rw [(h.ga hcode).mpr hclaimed]
      rfl
  have hga2 : (g.scaseCode ga2 && !s.scaseCheck ga2) = true := by
    rw [hsecond.1, hother ga2 (by decide), decide_eq_false hopen]
    rfl
  unfold vacantSlots freeSlots
  rw [List.filter_cons_of_neg (by simp [hga]),
    show [woKaku, niKaku, ga2] = [woKaku, niKaku] ++ [ga2] from rfl, List.filter_append,
    List.filter_cons_of_pos (a := ga2) (by rw [hga2]; rfl), List.filter_nil]
  congr 1
  refine List.filter_congr fun k hk => ?_
  have hne : k ≠ gaKaku := by
    rintro rfl
    exact absurd hk (by decide)
  rw [hother k hne, decide_not]

theorem ga2_not_mem_freeSlots : ga2 ∉ freeSlots g cs := fun h =>
  absurd (List.mem_of_mem_filter h) (by decide)

/-- The last vacant slot is given if there are enough to take all. -/
theorem mem_take_append {l : List Nat} (hk : k ∉ l) (n : Nat) :
    k ∈ (l ++ [k]).take n ↔ l.length < n := by
  constructor
  · intro hmem
    by_contra hle
    rw [List.take_append_of_le_length (Nat.le_of_not_lt hle)] at hmem
    exact hk (List.mem_of_mem_take hmem)
  · intro hlt
    rw [List.take_of_length_le (by rwa [List.length_append])]
    exact List.mem_append_right _ List.mem_cons_self

/-- The three kinds of bonuses of a head are distinct, but for `ガ２`. -/
theorem nodup_bonuses_iff {awarded ended vacant : List Nat} (hended : ended.Nodup)
    (hvacant : vacant.Nodup) (hea : ∀ k ∈ ended, k ∉ awarded ∧ k ∉ vacant)
    (hav : ∀ k ∈ awarded, k ∈ vacant → k = ga2) :
    (awarded ++ ended ++ vacant).Nodup ↔ awarded.Nodup ∧ (ga2 ∈ awarded → ga2 ∉ vacant) := by
  rw [List.nodup_append', List.nodup_append']
  constructor
  · rintro ⟨⟨hawarded, -, -⟩, -, hdis⟩
    exact ⟨hawarded, fun ha hv => hdis (List.mem_append_left _ ha) hv⟩
  · rintro ⟨hawarded, hga2⟩
    refine ⟨⟨hawarded, hended, fun k ha he => (hea k he).1 ha⟩, hvacant, fun k hk hv => ?_⟩
    obtain ha | he := List.mem_append.mp hk
    · obtain rfl := hav k ha hv
      exact hga2 ha hv
    · exact (hea k he).2 hv

/-- What a dependant has got, but for `ガ２`, is claimed, and it is not the slot of `ノ格`. -/
theorem mem_outputs_claimed (hcs : ∀ c ∈ cs, c ≠ .other gaKaku ∧ c ≠ .other noKaku)
    (hk : k ∈ outputs (bonusAt g.toGovernor) [] cs) (hne : k ≠ ga2) :
    SlotClaimed g.toGovernor cs k ∧ k ≠ noKaku := by
  obtain ⟨pre, c, post, rfl, hbonus⟩ := mem_outputs.mp hk
  have hc := hcs c (List.mem_append_right _ List.mem_cons_self)
  obtain ⟨hopen, hclaimed⟩ := bonusAt_claimed hc.1 hne hbonus
  refine ⟨hclaimed.mono ?_, ?_⟩
  · rw [List.append_cons pre, List.nil_append]
    exact List.subset_append_left _ post
  · rintro rfl
    exact (other_mem_append.mp hclaimed).elim hopen hc.2

/-- The bonuses of the dependants and of the vacant slots are distinct exactly if
`SecondGaOnce`. -/
theorem nodup_given_iff (h : Follows g.toGovernor cs s)
    (hcs : ∀ c ∈ cs, c ≠ .other gaKaku ∧ c ≠ .other noKaku) {ended : List Nat}
    (hended : ended.Nodup) (hno : ∀ k ∈ ended, k = noKaku) :
    (outputs (bonusAt g.toGovernor) [] cs ++ ended ++ vacantGiven g s).Nodup ↔
      SecondGaOnce g cs := by
  have hvacant {k : Nat} (hk : k ∈ vacantGiven g s) : ¬ SlotClaimed g.toGovernor cs k :=
    h.vacant (List.mem_of_mem_take hk)
  have hlast {pre post : List CaseClaim} (heq : cs = pre ++ .ga :: post)
      (hsecond : SecondGa g.toGovernor pre) (hpost : .other ga2 ∉ post) :
      ga2 ∉ vacantGiven g s ↔ g.rentai.toNat + cs.count .mikaku ≤ (freeSlots g cs).length := by
    have hopen : .other ga2 ∉ cs := by
      rw [heq, List.mem_append, List.mem_cons]
      rintro (hpre | hga | hmem)
      · exact hsecond.2.2 hpre
      · cases hga
      · exact hpost hmem
    rw [vacantGiven, h.vacantSlots_eq heq hsecond hopen, mem_take_append ga2_not_mem_freeSlots,
      h.un, Nat.not_lt]
  rw [nodup_bonuses_iff hended vacantGiven_nodup, nodup_bonusAt_iff fun c hc => (hcs c hc).1]
  · constructor
    · rintro ⟨hawarded, hga2⟩ pre post heq hsecond
      obtain ⟨hga, hother⟩ := hawarded pre post heq hsecond
      refine ⟨hga, hother, (hlast heq hsecond hother).mp (hga2 ?_)⟩
      exact mem_outputs.mpr ⟨pre, .ga, post, heq, bonusAt_ga2.mpr (Or.inl ⟨rfl, hsecond⟩)⟩
    · intro honce
      refine ⟨fun pre post heq hsecond => ?_, fun hmem => ?_⟩
      · obtain ⟨hga, hother, -⟩ := honce pre post heq hsecond
        exact ⟨hga, hother⟩
      · obtain ⟨pre, c, post, heq, hbonus⟩ := mem_outputs.mp hmem
        obtain ⟨rfl, hsecond⟩ | ⟨rfl, -⟩ := bonusAt_ga2.mp hbonus
        · obtain ⟨-, hother, hle⟩ := honce pre post heq hsecond
          exact (hlast heq hsecond hother).mpr hle
        · exact fun hv => hvacant hv (heq ▸ List.mem_append_right _ List.mem_cons_self)
  · intro k hk
    obtain rfl := hno k hk
    refine ⟨fun ha => (mem_outputs_claimed hcs ha (by decide)).2 rfl, fun hv => ?_⟩
    exact absurd (mem_vacantSlots (List.mem_of_mem_take hv)).1 (by decide)
  · intro k ha hv
    by_contra hne
    exact hvacant hv (mem_outputs_claimed hcs ha hne).1

end Once

/-- Each slot of a head is given once exactly if, after a `ガ格` that gets the second slot
(the first one is missing or claimed, and no `ガ２` has come), no `ガ格` and no `ガ２`
comes, and what has no case of its own finds place in the free slots of `ヲ格` and `ニ格`. -/
theorem slotBonuses_nodup_iff (sc : Scorer) (g : SlotHead) (dep : Nat → Dependant)
    (js : List Nat) : (slotBonuses sc g dep js).Nodup ↔
      SecondGaOnce g (heard sc g.toGovernor dep (g.listens js)) := by
  have hcs : ∀ c ∈ heard sc g.toGovernor dep (g.listens js),
      c ≠ .other gaKaku ∧ c ≠ .other noKaku := fun c hc => by
    obtain ⟨j, -, rfl⟩ := List.mem_map.mp (List.takeWhile_subset _ hc)
    exact claim_ne (dep j)
  obtain ⟨hrun, hawards⟩ := @awards_eq sc g.toGovernor dep (g.listens js) _ _ Follows.init
  rw [List.nil_append] at hrun
  have hall : (awards sc g.toGovernor dep (g.listens js) .init ++
      vacantGiven g (sc.cases g.toGovernor dep (g.listens js) .init)).Nodup ↔
        SecondGaOnce g (heard sc g.toGovernor dep (g.listens js)) := by
    rw [hawards]
    refine nodup_given_iff hrun hcs ?_ ?_
    · split <;> simp
    · split <;> simp
  cases sc with
  | calcScore => exact hall
  | dpndEvaluation =>
      cases hpred : g.pred
      · have hnone : g.listens js = [] := by rw [SlotHead.listens, hpred]; rfl
        simp only [slotBonuses, hnone, hpred, awards, heard, List.map_nil, List.takeWhile_nil]
        refine iff_of_true List.nodup_nil fun pre post heq => ?_
        exact absurd heq.symm (List.append_ne_nil_of_right_ne_nil pre (List.cons_ne_nil _ post))
      · have hjs : g.listens js = js := by rw [SlotHead.listens, hpred]; rfl
        rw [hjs] at hall ⊢
        simpa only [slotBonuses, hpred, hjs, if_true] using hall

/-- Three subjects of a predicate with both slots of `ガ格`. -/
def threeSubjects : SlotHead where
  pred := true
  taigen := false
  scaseCode := fun k => k = gaKaku ∨ k = ga2
  yogenDo := true
  rentai := false

/-- Both scorers give `ガ２` twice. -/
theorem threeSubjects_twice :
    let subject : Dependant := ⟨some (utf8 "ガ格"), false, false⟩
    (∀ sc, slotBonuses sc threeSubjects (fun _ => subject) [2, 1, 0] = [gaKaku, ga2, ga2]) ∧
      ¬ ∀ sc g dep js, (slotBonuses sc g dep js).Nodup := by
  intro subject
  have htwice (sc : Scorer) :
      slotBonuses sc threeSubjects (fun _ => subject) [2, 1, 0] = [gaKaku, ga2, ga2] := by
    cases sc <;> decide
  refine ⟨htwice, fun h => ?_⟩
  have hnodup := h .calcScore threeSubjects (fun _ => subject) [2, 1, 0]
  rw [htwice] at hnodup
  exact absurd hnodup (by decide)

end Knp
