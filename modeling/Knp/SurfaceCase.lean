import Mathlib.Data.List.Basic

/-!
# The surface cases of the dependants (`dpnd_analysis.c`, `cky.c`)

Both scorers give a predicate points for the cases of its dependants, each case
of it once. `dpnd_evaluation` goes from the nearest dependant to the farthest,
`calc_score` the other way. The case is read out of the feature `係:...`: behind
three bytes in the one, behind a character and a byte in the other.

> With UTF-8 strings `dpnd_evaluation` reads no case at all.

Strings are lists of bytes.
-/

namespace Knp

/-- UTF-8 (usually) -/
def BYTES4CHAR : Nat := 3

def utf8 (s : String) : List UInt8 := s.toUTF8.data.toList

/-- `Case_name` -/
def caseName : List (List UInt8) :=
  ["ガ格", "ヲ格", "ニ格", "デ格", "カラ格", "ト格", "ヨリ格", "ヘ格", "マデ格", "ノ格", "ガ２"].map utf8

/-- `case2num`; `none` for -1. -/
def case2num (cp : List UInt8) : Option Nat := caseName.findIdx? (cp = ·)

/-- The numbers of `ガ格` and `ガ２`. -/
def gaKaku : Nat := 0

def ga2 : Nat := 10

/-- What is read of a dependant: the value of its feature `係`, `時間`, `数量`. -/
structure Dependant where
  kakari : Option (List UInt8)
  jikan : Bool
  suryo : Bool

/-- `check_feature(d_ptr->f, "係")`: the feature with its value. -/
def Dependant.cp (d : Dependant) : Option (List UInt8) := d.kakari.map (utf8 "係:" ++ ·)

/-- What is read of a head: `用言` or `準用言`, `体言`, and its case slots. -/
structure Governor where
  pred : Bool
  taigen : Bool
  scaseCode : Nat → Bool

/-- The bookkeeping for one head, with the dependants that got a slot. -/
structure CaseSlots where
  scaseCheck : Nat → Bool
  unCount : Nat
  oneScore : Nat
  given : List Nat

def CaseSlots.init : CaseSlots := ⟨fun _ => false, 0, 0, []⟩

namespace CaseSlots

/-- The points for dependant `j`. -/
def give (s : CaseSlots) (j : Nat) : CaseSlots :=
  { s with oneScore := s.oneScore + 10, given := j :: s.given }

def take (s : CaseSlots) (k j : Nat) : CaseSlots :=
  if s.scaseCheck k then s
  else { s.give j with scaseCheck := fun k' => if k' = k then true else s.scaseCheck k' }

/-- 未格 : 数えておき，後で空スロットを調べる (時間,数量は別) -/
def mikaku (s : CaseSlots) (d : Dependant) : CaseSlots :=
  if d.jikan || d.suryo then { s with oneScore := s.oneScore + 10 }
  else { s with unCount := s.unCount + 1 }

/-- ガ格 : ガガ構文があるので少し複雑 -/
def takeGa (s : CaseSlots) (g : Governor) (j : Nat) : CaseSlots :=
  if g.scaseCode gaKaku && !s.scaseCheck gaKaku then s.take gaKaku j
  else if g.scaseCode ga2 && !s.scaseCheck ga2 then
    { s.give j with scaseCheck := fun k' => if k' = gaKaku then true else s.scaseCheck k' }
  else s

end CaseSlots

/-- The cases in `dpnd_evaluation`, from the nearest dependant on; a `ノ格` that
does not go to a noun ends the loop. -/
def evalCases (g : Governor) (dep : Nat → Dependant) : List Nat → CaseSlots → CaseSlots
  | [], s => s
  | j :: js, s =>
      match (dep j).cp with
      | none => evalCases g dep js s
      | some cp =>
          if cp = utf8 "係:未格" then evalCases g dep js (s.mikaku (dep j))
          else if cp = utf8 "係:ノ格" then
            if g.taigen then evalCases g dep js s else s.give j
          else if cp = utf8 "係:ガ格" then evalCases g dep js (s.takeGa g j)
          else match case2num (cp.drop 3) with
            | some k => evalCases g dep js (s.take k j)
            | none => evalCases g dep js s

/-- The cases in `calc_score`, from the farthest dependant on. -/
def ckyCases (g : Governor) (dep : Nat → Dependant) : List Nat → CaseSlots → CaseSlots
  | [], s => s
  | j :: js, s =>
      match (dep j).cp with
      | none => ckyCases g dep js s
      | some cp =>
          if cp = utf8 "係:未格" then ckyCases g dep js (s.mikaku (dep j))
          else if cp = utf8 "係:ノ格" then
            if !g.taigen && g.scaseCode gaKaku then ckyCases g dep js (s.take gaKaku j)
            else ckyCases g dep js s
          else if cp = utf8 "係:ガ格" then ckyCases g dep js (s.takeGa g j)
          else match case2num (cp.drop (BYTES4CHAR + 1)) with
            | some k => ckyCases g dep js (s.take k j)
            | none => ckyCases g dep js s

/-- The dependants of head `i`, the nearest first. -/
def dependants (head : Nat → Nat) (i : Nat) : List Nat :=
  (List.range i).reverse.filter fun j => head j = i

/-- A dependency structure with the features of its bunsetsu. -/
structure CaseSentence where
  bnstNum : Nat
  head : Nat → Nat
  dep : Nat → Dependant
  gov : Nat → Governor

/-- The dependants that get a slot of head `i` in either scorer. -/
def CaseSentence.evalGiven (sp : CaseSentence) (i : Nat) : List Nat :=
  if (sp.gov i).pred then
    (evalCases (sp.gov i) sp.dep (dependants sp.head i) .init).given
  else []

def CaseSentence.ckyGiven (sp : CaseSentence) (i : Nat) : List Nat :=
  if (sp.gov i).pred then
    (ckyCases (sp.gov i) sp.dep (dependants sp.head i).reverse .init).given
  else []

/-- Both scorers read the same cases and give the slots of a head to the same
dependants. -/
def CaseSentence.SameCases (sp : CaseSentence) : Prop :=
  ∀ i < sp.bnstNum, (sp.gov i).pred = true →
    (∀ j ∈ dependants sp.head i, ∀ cp, (sp.dep j).cp = some cp →
      case2num (cp.drop 3) = case2num (cp.drop (BYTES4CHAR + 1))) ∧
    ∀ j, j ∈ sp.evalGiven i ↔ j ∈ sp.ckyGiven i

section Cases

variable {g : Governor} {dep : Nat → Dependant} {s : CaseSlots} {js : List Nat}

theorem drop_four (v : List UInt8) : (utf8 "係:" ++ v).drop (BYTES4CHAR + 1) = v := rfl

/-- Behind three bytes stands the colon, with which no case begins. -/
theorem case2num_drop_three (v : List UInt8) : case2num ((utf8 "係:" ++ v).drop 3) = none := by
  have hcolon : ∀ name ∈ caseName, name.head? ≠ some 58 := by decide
  refine List.findIdx?_eq_none_iff.mpr fun name hname => decide_eq_false ?_
  intro heq
  refine hcolon name hname ?_
  rw [← heq]
  rfl

theorem case2num_no : case2num (utf8 "ノ格") = some 9 := by decide

theorem case2num_ga : case2num (utf8 "ガ格") = some 0 := by decide

@[simp] theorem mikaku_given (d : Dependant) : (s.mikaku d).given = s.given := by
  unfold CaseSlots.mikaku
  split <;> rfl

/-- No dependant has one of the cases. -/
def NoCase (dep : Nat → Dependant) (js : List Nat) : Prop :=
  ∀ j ∈ js, ∀ v, (dep j).kakari = some v → case2num v = none

theorem NoCase.tail {j : Nat} (h : NoCase dep (j :: js)) : NoCase dep js :=
  fun j' hj' => h j' (List.mem_cons_of_mem j hj')

/-- A feature whose value is no case is not one of the two that are asked for. -/
theorem ne_of_noCase {v : List UInt8} (h : case2num v = none) :
    utf8 "係:" ++ v ≠ utf8 "係:ノ格" ∧ utf8 "係:" ++ v ≠ utf8 "係:ガ格" := by
  constructor
  · intro heq
    have hv : v = utf8 "ノ格" := by rw [← drop_four v, heq]; rfl
    rw [hv, case2num_no] at h
    cases h
  · intro heq
    have hv : v = utf8 "ガ格" := by rw [← drop_four v, heq]; rfl
    rw [hv, case2num_ga] at h
    cases h

theorem evalCases_given : ∀ {js : List Nat} {s : CaseSlots}, NoCase dep js →
    (evalCases g dep js s).given = s.given
  | [], _, _ => rfl
  | j :: js, s, h => by
      rw [evalCases]
      cases hv : (dep j).kakari with
      | none =>
          rw [show (dep j).cp = none by rw [Dependant.cp, hv]; rfl]
          exact evalCases_given h.tail
      | some v =>
          rw [show (dep j).cp = some (utf8 "係:" ++ v) by rw [Dependant.cp, hv]; rfl]
          obtain ⟨hno, hga⟩ := ne_of_noCase (h j List.mem_cons_self v hv)
          dsimp only
          rw [if_neg hno, if_neg hga, case2num_drop_three]
          split_ifs
          · rw [evalCases_given h.tail, mikaku_given]
          · exact evalCases_given h.tail

theorem ckyCases_given : ∀ {js : List Nat} {s : CaseSlots}, NoCase dep js →
    (ckyCases g dep js s).given = s.given
  | [], _, _ => rfl
  | j :: js, s, h => by
      rw [ckyCases]
      cases hv : (dep j).kakari with
      | none =>
          rw [show (dep j).cp = none by rw [Dependant.cp, hv]; rfl]
          exact ckyCases_given h.tail
      | some v =>
          rw [show (dep j).cp = some (utf8 "係:" ++ v) by rw [Dependant.cp, hv]; rfl]
          have hnone := h j List.mem_cons_self v hv
          obtain ⟨hno, hga⟩ := ne_of_noCase hnone
          dsimp only
          rw [if_neg hno, if_neg hga, drop_four, hnone]
          split_ifs
          · rw [ckyCases_given h.tail, mikaku_given]
          · exact ckyCases_given h.tail

end Cases

/-- The scorers agree exactly where there is nothing to read. -/
theorem sameCases_iff (sp : CaseSentence) :
    sp.SameCases ↔ ∀ i < sp.bnstNum, (sp.gov i).pred = true →
      NoCase sp.dep (dependants sp.head i) := by
  constructor
  · intro h i hi hpred j hj v hv
    have hread := (h i hi hpred).1 j hj (utf8 "係:" ++ v) (by rw [Dependant.cp, hv]; rfl)
    rwa [case2num_drop_three, drop_four, eq_comm] at hread
  · intro h i hi hpred
    have hno := h i hi hpred
    refine ⟨fun j hj cp hcp => ?_, fun j => ?_⟩
    · obtain ⟨v, hv, rfl⟩ := Option.map_eq_some_iff.mp hcp
      rw [case2num_drop_three, drop_four, hno j hj v hv]
    · have hrev : NoCase sp.dep (dependants sp.head i).reverse :=
        fun j hj => hno j (List.mem_reverse.mp hj)
      rw [CaseSentence.evalGiven, CaseSentence.ckyGiven, if_pos hpred, if_pos hpred,
        evalCases_given hno, ckyCases_given hrev]

/-- A predicate with one dependant, in `ヲ格`. -/
def oneObject : CaseSentence where
  bnstNum := 2
  head := fun _ => 1
  dep := fun _ => ⟨some (utf8 "ヲ格"), false, false⟩
  gov := fun _ => ⟨true, false, fun _ => true⟩

/-- `calc_score` gives the slot, `dpnd_evaluation` does not. -/
theorem oneObject_not_sameCases :
    ¬ oneObject.SameCases ∧ oneObject.ckyGiven 1 = [0] ∧ oneObject.evalGiven 1 = [] := by
  have hcky : oneObject.ckyGiven 1 = [0] := by decide
  have heval : oneObject.evalGiven 1 = [] := by decide
  refine ⟨fun h => ?_, hcky, heval⟩
  have hsame := ((h 1 (by decide) rfl).2 0).mpr
  rw [hcky, heval] at hsame
  cases hsame List.mem_cons_self

end Knp
