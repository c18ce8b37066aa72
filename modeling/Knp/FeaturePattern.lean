import Knp.FeatureAssign
import Knp.FeatureFunction

/-!
# Feature patterns (`string2feature_pattern`, `feature_pattern_match`)

A text such as 「体言&&^用言||文頭」 is made into a table of alternatives, each a list of
literals, which is gone through when a unit is tested. The operators are looked for
from left to right.

> A pattern matches if and only if all literals of some alternative are satisfied. The empty
> text matches always.

What the test of a literal does to its own text is left out here.
-/

namespace Knp.Feature

def RF_MAX : Nat := 16

/-- The lists at `fp[0]`, `fp[1]`, ..., of which a null pointer follows the last one. -/
structure FeaturePattern where
  fp : List (List String)
  fits : fp.length < RF_MAX

/-- The loop of `string2feature_pattern`: `token` is the text from `start_cp` to `loop_cp`, `alt`
the list that is being filled and `done` the lists before it. -/
def splitLoop : List Char → List Char → List String → List (List String) → List (List String)
  | '&' :: '&' :: cs, token, alt, done => splitLoop cs [] (alt ++ [String.ofList token]) done
  | '|' :: '|' :: cs, token, alt, done =>
      splitLoop cs [] [] (done ++ [alt ++ [String.ofList token]])
  | c :: cs, token, alt, done => splitLoop cs (token ++ [c]) alt done
  | [], token, alt, done => done ++ [alt ++ [String.ofList token]]

/-- Undefined where the text or the alternatives do not fit. -/
def string2featurePattern (cp : String) : Option FeaturePattern :=
  if cp = "" then some ⟨[], by decide⟩
  else (strcpy cp).bind fun buffer =>
    let fp := splitLoop buffer.text.toList [] [] []
    if h : fp.length < RF_MAX then some ⟨fp, h⟩ else none

section Match

variable (check : String → Bool) (fd : List String)

/-- `check` is `check_function` on the unit. -/
def featureAndMatch : List String → Bool
  | [] => true
  | cp :: fp =>
      if ['^', '&'].isPrefixOf cp.toList then
        if check (textAfter 1 cp) then false else featureAndMatch fp
      else if ['&'].isPrefixOf cp.toList then
        if !check cp then false else featureAndMatch fp
      else if ['^'].isPrefixOf cp.toList then
        if hasFeature fd (textAfter 1 cp) then false else featureAndMatch fp
      else if !hasFeature fd cp then false
      else featureAndMatch fp

/-- ORの各条件を調べる -/
def orLoop : List (List String) → Bool
  | [] => false
  -- a null pointer
  | [] :: _ => false
  | alt :: fp => if featureAndMatch check fd alt then true else orLoop fp

def featurePatternMatch (fr : FeaturePattern) : Bool :=
  -- PATTERNがなければマッチ
  if fr.fp.head?.getD [] = [] then true else orLoop check fd fr.fp

/-! ## What a pattern says -/

/-- A literal without negation: a test, or a feature of the list. -/
def plain (literal : String) : Bool :=
  if ['&'].isPrefixOf literal.toList then check literal else hasFeature fd literal

def Satisfied (literal : String) : Prop :=
  if ['^'].isPrefixOf literal.toList then ¬plain check fd (textAfter 1 literal) = true
  else plain check fd literal = true

end Match

/-- An operator stands at the front. -/
def AtOperator (cs : List Char) : Prop := ['&', '&'].isPrefixOf cs ∨ ['|', '|'].isPrefixOf cs

instance (cs : List Char) : Decidable (AtOperator cs) := inferInstanceAs (Decidable (_ ∨ _))

/-- No operator begins in the literal when it is followed by the other text. -/
def OperatorFree (literal after : List Char) : Prop :=
  ∀ k < literal.length, ¬AtOperator ((literal ++ after).drop k)

instance (literal after : List Char) : Decidable (OperatorFree literal after) :=
  inferInstanceAs (Decidable (∀ k < literal.length, _))

/-- The texts that are made of literals joined by `&&`, and alternatives joined by `||`. -/
inductive Reads : List Char → List (List String) → Prop
  | last {l : List Char} (hfree : OperatorFree l []) : Reads l [[String.ofList l]]
  | and {l cs : List Char} {alt : List String} {alts : List (List String)}
      (hfree : OperatorFree l ['&', '&']) (h : Reads cs (alt :: alts)) :
      Reads (l ++ ['&', '&'] ++ cs) ((String.ofList l :: alt) :: alts)
  | or {l cs : List Char} {alts : List (List String)} (hfree : OperatorFree l ['|', '|'])
      (h : Reads cs alts) : Reads (l ++ ['|', '|'] ++ cs) ([String.ofList l] :: alts)

section Split

variable {l after cs token : List Char} {alt : List String} {done alts : List (List String)}

theorem splitLoop_of_not {c : Char} (h : ¬AtOperator (c :: cs)) :
    splitLoop (c :: cs) token alt done = splitLoop cs (token ++ [c]) alt done := by
  rw [splitLoop]
  · rintro cs' rfl rfl
    exact h (Or.inl (by simp))
  · rintro cs' rfl rfl
    exact h (Or.inr (by simp))

theorem splitLoop_free (hfree : OperatorFree l after) :
    splitLoop (l ++ after) token alt done = splitLoop after (token ++ l) alt done := by
  induction l generalizing token with
  | nil => simp
  | cons c l ih =>
      have hhead : ¬AtOperator (c :: (l ++ after)) := hfree 0 (by simp)
      have htail : OperatorFree l after := fun k hk => hfree (k + 1) (by simpa using hk)
      rw [List.cons_append, splitLoop_of_not hhead, ih htail, List.append_assoc,
        List.singleton_append]

/-- What follows the operator does not matter. -/
theorem operatorFree_append {d d' : Char} (rest : List Char) :
    OperatorFree l ([d, d'] ++ rest) ↔ OperatorFree l [d, d'] := by
  refine forall_congr' fun k => forall_congr' fun hk => not_congr ?_
  rw [List.drop_append_of_le_length hk.le, List.drop_append_of_le_length hk.le]
  obtain ⟨c, cs, hcs⟩ := List.exists_cons_of_ne_nil (l := l.drop k) (by simpa using hk)
  rw [hcs]
  cases cs with
  | nil => simp [AtOperator]
  | cons c' cs => simp [AtOperator]

/-- The loop finds the literals one after the other. -/
theorem splitLoop_reads (h : Reads cs alts) :
    ∃ l alt' alts', alts = (String.ofList l :: alt') :: alts' ∧
      ∀ token alt done, splitLoop cs token alt done =
        done ++ (alt ++ String.ofList (token ++ l) :: alt') :: alts' := by
  induction h with
  | @last l hfree =>
      refine ⟨l, [], [], rfl, fun token alt done => ?_⟩
      have hsplit : splitLoop (l ++ []) token alt done = splitLoop [] (token ++ l) alt done :=
        splitLoop_free hfree
      rw [List.append_nil] at hsplit
      rw [hsplit, splitLoop]
  | @and l cs alt alts hfree _ ih =>
      obtain ⟨l', alt', alts', heq, hsplit⟩ := ih
      obtain ⟨rfl, rfl⟩ := List.cons.inj heq
      refine ⟨l, _, alts, rfl, fun token alt done => ?_⟩
      rw [List.append_assoc, splitLoop_free ((operatorFree_append cs).mpr hfree)]
      show splitLoop cs [] (alt ++ [String.ofList (token ++ l)]) done = _
      rw [hsplit, List.nil_append, List.append_assoc, List.singleton_append]
  | @or l cs alts hfree _ ih =>
      obtain ⟨l', alt', alts', rfl, hsplit⟩ := ih
      refine ⟨l, [], _, rfl, fun token alt done => ?_⟩
      rw [List.append_assoc, splitLoop_free ((operatorFree_append cs).mpr hfree)]
      show splitLoop cs [] [] (done ++ [alt ++ [String.ofList (token ++ l)]]) = _
      rw [hsplit, List.nil_append, List.append_assoc]
      rfl

theorem splitLoop_eq (h : Reads cs alts) : splitLoop cs [] [] [] = alts := by
  obtain ⟨l, alt', alts', rfl, hsplit⟩ := splitLoop_reads h
  rw [hsplit]
  rfl

theorem operatorFree_concat {c : Char} (hfree : OperatorFree token (c :: cs))
    (hc : ¬AtOperator (c :: cs)) : OperatorFree (token ++ [c]) cs := by
  intro k hk
  rw [List.append_assoc, List.singleton_append]
  rcases Nat.lt_or_ge k token.length with hlt | hge
  · exact hfree k hlt
  · rw [List.length_append, List.length_singleton] at hk
    obtain rfl : k = token.length := by omega
    rwa [List.drop_left]

/-- Every text is made of literals. -/
theorem exists_reads (cs token : List Char) (alt : List String) (done : List (List String))
    (hfree : OperatorFree token cs) : ∃ alts, Reads (token ++ cs) alts := by
  induction cs, token, alt, done using splitLoop.induct with
  | case1 cs token alt done ih =>
      obtain ⟨alts, h⟩ := ih fun k hk => absurd hk (Nat.not_lt_zero k)
      obtain ⟨l, alt', alts', rfl, -⟩ := splitLoop_reads h
      have := Reads.and ((operatorFree_append cs).mp hfree) h
      exact ⟨_, by simpa using this⟩
  | case2 cs token alt done ih =>
      obtain ⟨alts, h⟩ := ih fun k hk => absurd hk (Nat.not_lt_zero k)
      have := Reads.or ((operatorFree_append cs).mp hfree) h
      exact ⟨_, by simpa using this⟩
  | case3 c cs token alt done hand hor ih =>
      have hc : ¬AtOperator (c :: cs) := by
        cases cs with
        | nil => simp [AtOperator]
        | cons d cs =>
            rintro (h | h)
            · obtain ⟨rfl, rfl⟩ : '&' = c ∧ '&' = d := by simpa using h
              exact hand cs rfl rfl
            · obtain ⟨rfl, rfl⟩ : '|' = c ∧ '|' = d := by simpa using h
              exact hor cs rfl rfl
      obtain ⟨alts, h⟩ := ih (operatorFree_concat hfree hc)
      exact ⟨alts, by simpa using h⟩
  | case4 token alt done => exact ⟨_, by simpa using Reads.last hfree⟩

end Split

section Evaluate

variable (check : String → Bool) (fd : List String)

/-- One turn of the loop tests its literal. -/
theorem featureAndMatch_cons (cp : String) (fp : List String) :
    featureAndMatch check fd (cp :: fp) = true ↔
      Satisfied check fd cp ∧ featureAndMatch check fd fp = true := by
  have htext : (textAfter 1 cp).toList = cp.toList.drop 1 := String.toList_ofList
  rw [featureAndMatch]
  unfold Satisfied plain
  rw [htext]
  cases hcp : cp.toList with
  | nil => cases hasFeature fd cp <;> simp
  | cons c cs =>
      by_cases hneg : c = '^'
      · subst hneg
        cases cs with
        | nil => cases hasFeature fd (textAfter 1 cp) <;> simp
        | cons d cs =>
            by_cases htest : d = '&'
            · subst htest
              cases check (textAfter 1 cp) <;> simp
            · cases hasFeature fd (textAfter 1 cp) <;> simp [Ne.symm htest]
      · by_cases htest : c = '&'
        · subst htest
          cases check cp <;> simp
        · cases hasFeature fd cp <;> simp [Ne.symm hneg, Ne.symm htest]

theorem featureAndMatch_iff (alt : List String) :
    featureAndMatch check fd alt = true ↔ ∀ l ∈ alt, Satisfied check fd l := by
  induction alt with
  | nil => simp [featureAndMatch]
  | cons cp fp ih => rw [List.forall_mem_cons, ← ih, featureAndMatch_cons]

theorem orLoop_iff {alts : List (List String)} (hne : ∀ alt ∈ alts, alt ≠ []) :
    orLoop check fd alts = true ↔ ∃ alt ∈ alts, ∀ l ∈ alt, Satisfied check fd l := by
  induction alts with
  | nil => simp [orLoop]
  | cons alt alts ih =>
      obtain ⟨hhead, htail⟩ := List.forall_mem_cons.mp hne
      obtain ⟨l, alt, rfl⟩ := List.exists_cons_of_ne_nil hhead
      have hloop : orLoop check fd ((l :: alt) :: alts) =
          if featureAndMatch check fd (l :: alt) then true else orLoop check fd alts := rfl
      rw [List.exists_mem_cons_iff, ← ih htail, ← featureAndMatch_iff, hloop]
      cases featureAndMatch check fd (l :: alt) <;> simp

theorem Reads.ne_nil {cs : List Char} {alts : List (List String)} (h : Reads cs alts) :
    alts ≠ [] ∧ ∀ alt ∈ alts, alt ≠ [] := by
  induction h with
  | last hfree => simp
  | and hfree h ih => exact ⟨by simp, by simpa using (List.forall_mem_cons.mp ih.2).2⟩
  | or hfree h ih => exact ⟨by simp, by simpa using ih.2⟩

end Evaluate

end Knp.Feature
