import Knp.FeaturePattern

/-!
# Cases on a condition (`case_data.c`)

What an argument modifies may give it a case: 「係チ:非用言格解析||用言&&文節内:Ｔ解析格-ヲ」. The
condition has the form of a feature pattern, but `_make_data_cframe_pp` reads it with a loop
of its own, which knows whether the alternative has failed (`NG`), is open (未定), or some
alternative was satisfied (`OK`).

> The loop agrees with the pattern unless a negated literal decides, which is looked up with
> its `^`, or the last alternative fails and `^` stands behind the literal that failed.

After `NG` the rest of the alternative is taken for one literal, and the last test does not
ask for the flag if `^` was there.
-/

namespace Knp.Feature

/-- `flag`: 2: OK, 1: 未定, 0: NG -/
inductive ChiFlag
  | ng
  | undecided
  | ok
deriving DecidableEq

section Condition

variable (f : List String)

/-- The loop over the text of a rule, with the features of the predicate and the text between
`start_cp` and `loop_cp`; what is behind the colon if the case is given. -/
def chiLoop (flag : ChiFlag) (notFlag : Bool) (start : List Char) : List Char → Option (List Char)
  | '&' :: '&' :: cs =>
      if flag = .undecided then
        if (!notFlag && !hasFeature f (String.ofList start)) ||
            (notFlag && hasFeature f (String.ofList start)) then
          chiLoop .ng false [] cs
        else chiLoop .undecided false [] cs
      else chiLoop flag notFlag (start ++ ['&']) ('&' :: cs)
  | '|' :: '|' :: cs =>
      match flag with
      | .undecided =>
          if (!notFlag && hasFeature f (String.ofList start)) ||
              (notFlag && !hasFeature f (String.ofList start)) then
            chiLoop .ok false [] cs
          else chiLoop .undecided false [] cs
      | .ng => chiLoop .undecided false [] cs
      | .ok => chiLoop .ok notFlag (start ++ ['|']) ('|' :: cs)
  | ':' :: cs =>
      if flag = .ok || ((flag = .undecided && (!notFlag && hasFeature f (String.ofList start))) ||
          (notFlag && !hasFeature f (String.ofList start))) then some cs
      else none
  | c :: cs => chiLoop flag (notFlag || c = '^') (start ++ [c]) cs
  | [] => none

/-- 係り先をみる場合: the case that the feature of an argument gives it. -/
def chiCase (elem : List String) : Option (List Char) :=
  match checkFeature elem "係チ" with
  | some cp => chiLoop f .undecided false [] (textAfter 3 cp).toList
  | none => none

/-! ## What a rule says -/

/-- A literal is satisfied; with `^`, if the predicate lacks the feature. -/
def LiteralHolds (l : String) : Prop :=
  if ['^'].isPrefixOf l.toList then ¬hasFeature f (textAfter 1 l) = true
  else hasFeature f l = true

/-- The test of the loop. -/
def passes (l : String) : Bool :=
  if '^' ∈ l.toList then !hasFeature f l else hasFeature f l

/-- The text of an alternative. -/
def joinAnd : List String → List Char
  | [] => []
  | [l] => l.toList
  | l :: m :: alt => l.toList ++ ['&', '&'] ++ joinAnd (m :: alt)

/-- A literal fails, and behind it there is `^`. -/
def failsBeforeNegation : List String → Bool
  | [] => false
  | [_] => false
  | l :: m :: alt =>
      if passes f l then failsBeforeNegation (m :: alt)
      else '^' ∈ joinAnd (m :: alt) && !hasFeature f (String.ofList (joinAnd (m :: alt)))

/-- What the loop answers for the alternatives. -/
def chiAnswer : List (List String) → Bool
  | [] => false
  | [alt] => alt.all (passes f) || failsBeforeNegation f alt
  | alt :: alt' :: alts => alt.all (passes f) || chiAnswer (alt' :: alts)

end Condition

/-- A feature that is not a test, or its negation. -/
def IsLiteral (l : String) : Prop :=
  ∃ name : List Char, (l.toList = name ∨ l.toList = '^' :: name) ∧
    name ≠ [] ∧ '^' ∉ name ∧ ':' ∉ name ∧ name.head? ≠ some '&'

/-- The features of an argument, with a rule. -/
structure ChiRule where
  elem : List String
  text : List Char
  alts : List (List String)
  kase : List Char
  reads : Reads text alts
  literals : ∀ alt ∈ alts, ∀ l ∈ alt, IsLiteral l
  feature : checkFeature elem "係チ" = some (String.ofList ("係チ:".toList ++ (text ++ ':' :: kase)))

namespace ChiRule

variable (r : ChiRule) (f : List String)

/-- All literals of some alternative are satisfied. -/
def Holds : Prop := ∃ alt ∈ r.alts, ∀ l ∈ alt, LiteralHolds f l

/-- The law: the case is given if the rule says so, and if the text as a feature pattern matches. -/
structure Agrees : Prop where
  given_iff : chiCase f r.elem = some r.kase ↔ r.Holds f
  pattern_iff : ∀ fr check, string2featurePattern (String.ofList r.text) = some fr →
    (chiCase f r.elem = some r.kase ↔ featurePatternMatch check f fr = true)

/-- Some alternative passes the tests of the loop. -/
def Passes : Prop := ∃ alt ∈ r.alts, ∀ l ∈ alt, passes f l = true

/-- The last alternative fails in front of a negation. -/
def FailsBeforeNegation : Prop := ∃ alt ∈ r.alts.getLast?, failsBeforeNegation f alt = true

/-- Where an alternative is satisfied, one passes or the last one fails in front of a negation;
where none is, none passes and the last one does not. -/
structure Unaffected : Prop where
  satisfied : r.Holds f → r.Passes f ∨ r.FailsBeforeNegation f
  unsatisfied : ¬r.Holds f → ¬r.Passes f ∧ ¬r.FailsBeforeNegation f

end ChiRule

/-! ## The loop -/

section Run

variable {f : List String} {flag : ChiFlag} {notFlag : Bool} {start l after cs kase : List Char}

attribute [local simp] chiLoop

theorem chiLoop_other {c : Char} (hop : ¬AtOperator (c :: cs)) (hcolon : c ≠ ':') :
    chiLoop f flag notFlag start (c :: cs) =
      chiLoop f flag (notFlag || c = '^') (start ++ [c]) cs := by
  rw [chiLoop]
  · rintro cs' rfl rfl
    exact hop (.inl (by simp))
  · rintro cs' rfl rfl
    exact hop (.inr (by simp))
  · rintro rfl
    exact hcolon rfl

/-- A literal is read to its end. -/
theorem chiLoop_literal (hfree : OperatorFree l after) (hcolon : ':' ∉ l) :
    chiLoop f flag notFlag start (l ++ after) =
      chiLoop f flag (notFlag || '^' ∈ l) (start ++ l) after := by
  induction l generalizing notFlag start with
  | nil => simp
  | cons c l ih =>
      obtain ⟨hc, hl⟩ := not_or.mp (List.mem_cons.not.mp hcolon)
      have hhead : ¬AtOperator (c :: (l ++ after)) := hfree 0 (by simp)
      have htail : OperatorFree l after := fun k hk => hfree (k + 1) (by simpa using hk)
      rw [List.cons_append, chiLoop_other hhead (Ne.symm hc), ih htail hl, List.append_assoc,
        List.singleton_append, Bool.or_assoc]
      congr 1
      simp [eq_comm]

/-- After `NG` a sign of `&` is nothing but a sign. -/
theorem chiLoop_ng_and :
    chiLoop f .ng notFlag start ('&' :: cs) = chiLoop f .ng notFlag (start ++ ['&']) cs := by
  cases cs with
  | nil => simp
  | cons d cs =>
      by_cases hd : d = '&'
      · subst hd
        rw [chiLoop, if_neg (by decide)]
      · rw [chiLoop_other (by simp [AtOperator, Ne.symm hd]) (by decide)]
        simp

/-- After `OK` the text is skipped up to the colon. -/
theorem chiLoop_ok (hcolon : ':' ∉ cs) :
    chiLoop f .ok notFlag start (cs ++ ':' :: kase) = some kase := by
  induction cs generalizing notFlag start with
  | nil => simp
  | cons c cs ih =>
      obtain ⟨hc, hcs⟩ := not_or.mp (List.mem_cons.not.mp hcolon)
      rw [List.cons_append]
      by_cases hop : AtOperator (c :: (cs ++ ':' :: kase))
      · have hsplit : ∃ cs', cs = c :: cs' ∧ (c = '&' ∨ c = '|') := by
          cases cs with
          | nil => rcases hop with h | h <;> simp at h
          | cons d cs =>
              rcases hop with h | h
              · simp only [List.cons_append, List.isPrefixOf_cons_cons, Bool.and_eq_true,
                  beq_iff_eq] at h
                exact ⟨cs, by rw [← h.1, ← h.2.1], .inl h.1.symm⟩
              · simp only [List.cons_append, List.isPrefixOf_cons_cons, Bool.and_eq_true,
                  beq_iff_eq] at h
                exact ⟨cs, by rw [← h.1, ← h.2.1], .inr h.1.symm⟩
        obtain ⟨cs', rfl, rfl | rfl⟩ := hsplit
        · rw [List.cons_append, chiLoop, if_neg (by decide), ← List.cons_append]
          exact ih hcs
        · rw [List.cons_append, chiLoop, ← List.cons_append]
          exact ih hcs
      · rw [chiLoop_other hop (Ne.symm hc)]
        exact ih hcs

theorem chiLoop_undecided_colon :
    chiLoop f .undecided ('^' ∈ l) l (':' :: kase) =
      if passes f (String.ofList l) then some kase else none := by
  rw [chiLoop, passes, String.toList_ofList]
  by_cases hneg : '^' ∈ l
  · simp [hneg]
  · simp [hneg]

theorem chiLoop_ng_colon :
    chiLoop f .ng notFlag start (':' :: kase) =
      if notFlag && !hasFeature f (String.ofList start) then some kase else none := by
  rw [chiLoop]
  simp

theorem chiLoop_undecided_and :
    chiLoop f .undecided ('^' ∈ l) l ('&' :: '&' :: cs) =
      chiLoop f (if passes f (String.ofList l) then .undecided else .ng) false [] cs := by
  rw [chiLoop, passes, String.toList_ofList]
  by_cases hneg : '^' ∈ l
  · cases hasFeature f (String.ofList l) with
    | true => simp [hneg]
    | false => simp [hneg]
  · cases hasFeature f (String.ofList l) with
    | true => simp [hneg]
    | false => simp [hneg]

theorem chiLoop_undecided_or :
    chiLoop f .undecided ('^' ∈ l) l ('|' :: '|' :: cs) =
      chiLoop f (if passes f (String.ofList l) then .ok else .undecided) false [] cs := by
  rw [chiLoop, passes, String.toList_ofList]
  by_cases hneg : '^' ∈ l
  · cases hasFeature f (String.ofList l) with
    | true => simp [hneg]
    | false => simp [hneg]
  · cases hasFeature f (String.ofList l) with
    | true => simp [hneg]
    | false => simp [hneg]

theorem chiLoop_ng_or :
    chiLoop f .ng notFlag start ('|' :: '|' :: cs) = chiLoop f .undecided false [] cs := by
  rw [chiLoop]

end Run

/-! ## A rule -/

section Rule

variable {f : List String} {cs kase : List Char} {alts : List (List String)}

theorem IsLiteral.no_colon {l : List Char} (h : IsLiteral (String.ofList l)) : ':' ∉ l := by
  obtain ⟨name, hname, -, -, hcolon, -⟩ := h
  rw [String.toList_ofList] at hname
  rcases hname with rfl | rfl
  · exact hcolon
  · simpa using hcolon

theorem Reads.no_colon (h : Reads cs alts) (hlit : ∀ alt ∈ alts, ∀ l ∈ alt, IsLiteral l) :
    ':' ∉ cs := by
  induction h with
  | last => exact (hlit _ List.mem_cons_self _ List.mem_cons_self).no_colon
  | and _ _ ih =>
      obtain ⟨hhead, htail⟩ := List.forall_mem_cons.mp hlit
      obtain ⟨hl, halt⟩ := List.forall_mem_cons.mp hhead
      have hrest := ih (List.forall_mem_cons.mpr ⟨halt, htail⟩)
      simp [hl.no_colon, hrest]
  | or _ _ ih =>
      obtain ⟨hhead, htail⟩ := List.forall_mem_cons.mp hlit
      have hl := (List.forall_mem_cons.mp hhead).1.no_colon
      simp [hl, ih htail]

theorem Reads.eq_joinAnd {alt : List String} (h : Reads cs [alt]) : cs = joinAnd alt := by
  generalize halts : [alt] = alts at h
  induction h generalizing alt with
  | last =>
      cases halts
      rw [joinAnd, String.toList_ofList]
  | @and l cs alt' alts' _ h ih =>
      cases halts
      have hcs := ih rfl
      cases alt' with
      | nil => exact absurd rfl (h.ne_nil.2 [] List.mem_cons_self)
      | cons m alt' => rw [joinAnd, String.toList_ofList, ← hcs]
  | or _ h _ =>
      cases halts
      exact absurd rfl h.ne_nil.1

/-- The answer in the middle of an alternative that has failed. -/
def ngAnswer (f : List String) (notFlag : Bool) (start cs : List Char) :
    List (List String) → Bool
  | _ :: alt :: alts => chiAnswer f (alt :: alts)
  | _ => (notFlag || '^' ∈ cs) && !hasFeature f (String.ofList (start ++ cs))

/-- A literal at the end of the text, and the colon. -/
theorem operatorFree_colon {l : List Char} (h : OperatorFree l []) :
    OperatorFree l (':' :: kase) := by
  intro k hk hop
  refine h k hk ?_
  rw [List.drop_append_of_le_length hk.le] at hop ⊢
  obtain ⟨c, cs, hcs⟩ := List.exists_cons_of_ne_nil (l := l.drop k) (by simpa using hk)
  rw [hcs] at hop ⊢
  cases cs with
  | nil => simp [AtOperator] at hop
  | cons d cs => simpa [AtOperator] using hop

theorem chiLoop_reads (h : Reads cs alts) (hlit : ∀ alt ∈ alts, ∀ l ∈ alt, IsLiteral l) :
    (chiLoop f .undecided false [] (cs ++ ':' :: kase) =
        if chiAnswer f alts then some kase else none) ∧
      ∀ notFlag start, chiLoop f .ng notFlag start (cs ++ ':' :: kase) =
        if ngAnswer f notFlag start cs alts then some kase else none := by
  induction h with
  | @last l hfree =>
      have hl := (hlit _ List.mem_cons_self _ List.mem_cons_self).no_colon
      have hcolon : OperatorFree l (':' :: kase) := operatorFree_colon hfree
      constructor
      · rw [chiLoop_literal hcolon hl, Bool.false_or, List.nil_append, chiLoop_undecided_colon]
        simp [chiAnswer, failsBeforeNegation]
      · intro notFlag start
        rw [chiLoop_literal hcolon hl, chiLoop_ng_colon]
        rfl
  | @and l cs alt alts hfree h ih =>
      obtain ⟨hhead, htail⟩ := List.forall_mem_cons.mp hlit
      obtain ⟨hl, halt⟩ := List.forall_mem_cons.mp hhead
      obtain ⟨hundecided, hng⟩ := ih (List.forall_mem_cons.mpr ⟨halt, htail⟩)
      obtain ⟨m, alt, rfl⟩ := List.exists_cons_of_ne_nil (h.ne_nil.2 alt List.mem_cons_self)
      have hop := (operatorFree_append (cs ++ ':' :: kase)).mpr hfree
      have hassoc : l ++ ['&', '&'] ++ cs ++ ':' :: kase =
          l ++ (['&', '&'] ++ (cs ++ ':' :: kase)) := by simp
      rw [hassoc]
      constructor
      · rw [chiLoop_literal hop hl.no_colon, Bool.false_or, List.nil_append, List.cons_append,
          List.cons_append, List.nil_append, chiLoop_undecided_and]
        cases hpass : passes f (String.ofList l) with
        | true =>
            rw [if_pos rfl, hundecided]
            cases alts with
            | nil => simp [chiAnswer, failsBeforeNegation, hpass]
            | cons alt' alts => simp [chiAnswer, hpass]
        | false =>
            rw [if_neg Bool.false_ne_true, hng]
            cases alts with
            | nil =>
                have hcs := h.eq_joinAnd
                simp [chiAnswer, failsBeforeNegation, ngAnswer, hpass, hcs]
            | cons alt' alts =>
                have hanswer : chiAnswer f ((String.ofList l :: m :: alt) :: alt' :: alts) =
                    chiAnswer f (alt' :: alts) := by simp [chiAnswer, hpass]
                rw [hanswer]
                rfl
      · intro notFlag start
        rw [chiLoop_literal hop hl.no_colon, List.cons_append, List.cons_append, List.nil_append,
          chiLoop_ng_and, chiLoop_ng_and, hng]
        cases alts with
        | nil => simp [ngAnswer, Bool.or_assoc]
        | cons alt' alts => rfl
  | @or l cs alts hfree h ih =>
      obtain ⟨hhead, htail⟩ := List.forall_mem_cons.mp hlit
      have hl := (List.forall_mem_cons.mp hhead).1.no_colon
      obtain ⟨hundecided, -⟩ := ih htail
      obtain ⟨alt, alts, rfl⟩ := List.exists_cons_of_ne_nil h.ne_nil.1
      have hop := (operatorFree_append (cs ++ ':' :: kase)).mpr hfree
      have hassoc : l ++ ['|', '|'] ++ cs ++ ':' :: kase =
          l ++ (['|', '|'] ++ (cs ++ ':' :: kase)) := by simp
      rw [hassoc]
      constructor
      · rw [chiLoop_literal hop hl, Bool.false_or, List.nil_append, List.cons_append,
          List.cons_append, List.nil_append, chiLoop_undecided_or]
        cases hpass : passes f (String.ofList l) with
        | true =>
            rw [if_pos rfl, chiLoop_ok (h.no_colon htail)]
            simp [chiAnswer, hpass]
        | false =>
            rw [if_neg Bool.false_ne_true, hundecided]
            simp [chiAnswer, hpass]
      · intro notFlag start
        rw [chiLoop_literal hop hl, List.cons_append, List.cons_append, List.nil_append,
          chiLoop_ng_or, hundecided]
        rfl

/-- The answer is of the last alternative, or of those that pass. -/
theorem chiAnswer_iff :
    chiAnswer f alts = true ↔ (∃ alt ∈ alts, ∀ l ∈ alt, passes f l = true) ∨
      ∃ alt ∈ alts.getLast?, failsBeforeNegation f alt = true := by
  induction alts with
  | nil => simp [chiAnswer]
  | cons alt alts ih =>
      cases alts with
      | nil => simp [chiAnswer]
      | cons alt' alts =>
          rw [chiAnswer, Bool.or_eq_true, ih, List.all_eq_true, List.getLast?_cons_cons, ← or_assoc]
          simp only [List.exists_mem_cons_iff]

end Rule

/-! ## The law -/

section Pattern

variable {f : List String} {l : String}

theorem IsLiteral.not_test (h : IsLiteral l) (check : String → Bool) :
    Satisfied check f l ↔ LiteralHolds f l := by
  obtain ⟨name, hname, -, hneg, -, htest⟩ := h
  have hplain : ∀ m : String, m.toList = name → plain check f m = hasFeature f m := by
    intro m hm
    rw [plain, if_neg]
    rw [hm]
    cases name with
    | nil => simp
    | cons c name =>
        have hc : c ≠ '&' := by simpa using htest
        simp [Ne.symm hc]
  rcases hname with hl | hl
  · have hnot : ['^'].isPrefixOf l.toList = false := by
      rw [hl]
      cases name with
      | nil => rfl
      | cons c name =>
          have hc := (not_or.mp (List.mem_cons.not.mp hneg)).1
          rw [Bool.eq_false_iff]
          simp [hc]
    rw [Satisfied, LiteralHolds, hnot, if_neg Bool.false_ne_true, if_neg Bool.false_ne_true,
      hplain l hl]
  · have hpre : ['^'].isPrefixOf l.toList = true := by simp [hl]
    have htext : (textAfter 1 l).toList = name := by rw [textAfter, String.toList_ofList, hl]; rfl
    rw [Satisfied, LiteralHolds, hpre, if_pos rfl, if_pos rfl, hplain _ htext]

/-- A literal that is not negated is tested as it should be. -/
theorem IsLiteral.passes_iff_of_plain (h : '^' ∉ l.toList) :
    passes f l = true ↔ LiteralHolds f l := by
  have hnot : ['^'].isPrefixOf l.toList = false := by
    cases hl : l.toList with
    | nil => rfl
    | cons c cs =>
        rw [hl] at h
        have hc := (not_or.mp (List.mem_cons.not.mp h)).1
        rw [Bool.eq_false_iff]
        simp [hc]
  rw [passes, if_neg h, LiteralHolds, hnot, if_neg Bool.false_ne_true]

end Pattern

namespace ChiRule

variable (r : ChiRule) (f : List String)

theorem chiCase_eq : chiCase f r.elem = if chiAnswer f r.alts then some r.kase else none := by
  have htext : (textAfter 3 (String.ofList ("係チ:".toList ++ (r.text ++ ':' :: r.kase)))).toList =
      r.text ++ ':' :: r.kase := by
    rw [textAfter, String.toList_ofList, String.toList_ofList]
    rfl
  rw [chiCase, r.feature]
  simp only [htext]
  exact (chiLoop_reads r.reads r.literals).1

theorem given_iff_passes :
    chiCase f r.elem = some r.kase ↔ r.Passes f ∨ r.FailsBeforeNegation f := by
  have hanswer : chiAnswer f r.alts = true ↔ r.Passes f ∨ r.FailsBeforeNegation f := chiAnswer_iff
  rw [chiCase_eq, ← hanswer]
  cases chiAnswer f r.alts with
  | true => simp
  | false => simp

theorem text_ne : String.ofList r.text ≠ "" := by
  have hne : ∀ cs alts, Reads cs alts → (∀ alt ∈ alts, ∀ l ∈ alt, IsLiteral l) → cs ≠ [] := by
    intro cs alts hreads hlit
    cases hreads with
    | @last l hfree =>
        obtain ⟨name, hname, hne, -⟩ := hlit _ List.mem_cons_self _ List.mem_cons_self
        rw [String.toList_ofList] at hname
        rcases hname with rfl | rfl
        · exact hne
        · exact List.cons_ne_nil _ _
    | and => simp
    | or => simp
  intro hempty
  refine hne r.text r.alts r.reads r.literals ?_
  rw [← String.toList_ofList (l := r.text), hempty]
  rfl

/-- The text is compiled to the alternatives. -/
theorem fp_of_compiled {fr : FeaturePattern}
    (h : string2featurePattern (String.ofList r.text) = some fr) : fr.fp = r.alts := by
  rw [string2featurePattern, if_neg r.text_ne] at h
  obtain ⟨buffer, hbuffer, hsplit⟩ := Option.bind_eq_some_iff.mp h
  have htext : buffer.text.toList = r.text := by
    unfold strcpy at hbuffer
    split at hbuffer
    next =>
      cases hbuffer
      exact String.toList_ofList
    next => cases hbuffer
  dsimp only at hsplit
  rw [htext, splitLoop_eq r.reads] at hsplit
  split at hsplit
  next =>
    cases hsplit
    rfl
  next => cases hsplit

theorem featurePatternMatch_iff_holds {fr : FeaturePattern}
    (h : string2featurePattern (String.ofList r.text) = some fr) (check : String → Bool) :
    featurePatternMatch check f fr = true ↔ r.Holds f := by
  obtain ⟨hne, hall⟩ := r.reads.ne_nil
  have hor : orLoop check f r.alts = true ↔ r.Holds f := by
    rw [orLoop_iff check f hall]
    refine exists_congr fun alt => and_congr_right fun halt => ?_
    exact forall_congr' fun l => imp_congr_right fun hl => (r.literals alt halt l hl).not_test check
  rw [featurePatternMatch, r.fp_of_compiled h, ← hor]
  obtain ⟨alt, alts, halts⟩ := List.exists_cons_of_ne_nil hne
  rw [halts, List.head?_cons, Option.getD_some, if_neg (hall alt (halts ▸ List.mem_cons_self))]

theorem agrees_iff_given :
    r.Agrees f ↔ (r.Passes f ∨ r.FailsBeforeNegation f ↔ r.Holds f) := by
  rw [← r.given_iff_passes f]
  constructor
  · intro h
    exact h.given_iff
  · intro hgiven
    refine ⟨hgiven, ?_⟩
    intro fr check hfr
    rw [hgiven, r.featurePatternMatch_iff_holds f hfr check]

/-- **When the loop agrees with the rule.** -/
theorem agrees_iff : r.Agrees f ↔ r.Unaffected f := by
  rw [agrees_iff_given]
  constructor
  · intro h
    exact ⟨h.mpr, fun hnot => not_or.mp (mt h.mp hnot)⟩
  · intro h
    constructor
    · intro hpass
      by_contra hnot
      exact not_or.mpr (h.unsatisfied hnot) hpass
    · exact h.satisfied

/-- 「体言」 is to be lacking, and is there. -/
def negatedRule : ChiRule where
  elem := ["係チ:^体言:Ｔ解析格-ガ"]
  text := "^体言".toList
  alts := [["^体言"]]
  kase := "Ｔ解析格-ガ".toList
  reads := .last (by decide)
  literals := by
    simp only [List.forall_mem_singleton]
    exact ⟨"体言".toList, by decide, by decide, by decide, by decide, by decide⟩
  feature := by decide

theorem negatedRule_given : ¬negatedRule.Agrees ["体言"] := by
  intro h
  have hgiven : chiCase ["体言"] negatedRule.elem = some negatedRule.kase := by decide
  obtain ⟨alt, halt, hl⟩ := h.given_iff.mp hgiven
  obtain rfl := List.mem_singleton.mp halt
  have hholds := hl "^体言" List.mem_cons_self
  revert hholds
  unfold LiteralHolds
  decide

/-! ## Rules without negation -/

theorem joinAnd_plain {alt : List String} (h : ∀ l ∈ alt, '^' ∉ l.toList) : '^' ∉ joinAnd alt := by
  induction alt with
  | nil => exact List.not_mem_nil
  | cons l alt ih =>
      obtain ⟨hl, halt⟩ := List.forall_mem_cons.mp h
      cases alt with
      | nil => exact hl
      | cons m alt =>
          have hrest := ih halt
          simp [joinAnd, hl, hrest]

theorem failsBeforeNegation_plain {alt : List String} (h : ∀ l ∈ alt, '^' ∉ l.toList) :
    failsBeforeNegation f alt = false := by
  induction alt with
  | nil => rfl
  | cons l alt ih =>
      cases alt with
      | nil => rfl
      | cons m alt =>
          have halt := (List.forall_mem_cons.mp h).2
          rw [failsBeforeNegation, ih halt]
          simp [joinAnd_plain halt]

/-- The rules of the rule file have no negation; for these the loop is right. -/
theorem agrees_of_plain (h : ∀ alt ∈ r.alts, ∀ l ∈ alt, '^' ∉ l.toList) : r.Agrees f := by
  rw [agrees_iff_given]
  have hpasses : r.Passes f ↔ r.Holds f := by
    refine exists_congr fun alt => and_congr_right fun halt => ?_
    exact forall_congr' fun l => imp_congr_right fun hl =>
      IsLiteral.passes_iff_of_plain (h alt halt l hl)
  have hfails : ¬r.FailsBeforeNegation f := by
    rintro ⟨alt, halt, hfail⟩
    rw [failsBeforeNegation_plain f (h alt (List.mem_of_getLast? halt))] at hfail
    cases hfail
  rw [hpasses]
  exact or_iff_left hfails

/-! ## Predicates without a feature that begins with the sign of negation -/

section NoHat

variable {f} (hf : ∀ cp ∈ f, ['^'].isPrefixOf cp.toList = false)

include hf

/-- A negated literal passes, whatever it negates. -/
theorem passes_of_negated {l : String} (hl : IsLiteral l) (hneg : '^' ∈ l.toList) :
    passes f l = true := by
  obtain ⟨name, hname, -, hnot, -, -⟩ := hl
  have htext : l.toList = '^' :: name := by
    rcases hname with h | h
    · rw [h] at hneg
      exact absurd hneg hnot
    · exact h
  have hlacks : hasFeature f l = false := by
    rw [hasFeature, checkFeature, Option.isSome_eq_false_iff, Option.isNone_iff_eq_none,
      List.find?_eq_none]
    intro cp hcp hcomp
    have hat := hf cp hcp
    rw [compFeature, Bool.or_eq_true, decide_eq_true_iff, htext] at hcomp
    rcases hcomp with rfl | hpre
    · rw [htext] at hat
      simp at hat
    · obtain ⟨rest, hrest⟩ := List.isPrefixOf_iff_prefix.mp hpre
      rw [← hrest] at hat
      simp at hat
  rw [passes, if_pos hneg, hlacks]
  rfl

/-- Then the loop agrees just if an alternative is satisfied, or each one lacks a literal without
negation and the last one does not fail in front of a negation. -/
theorem agrees_iff_of_noHat :
    r.Agrees f ↔ r.Holds f ∨
      (∀ alt ∈ r.alts, ∃ l ∈ alt, '^' ∉ l.toList ∧ ¬LiteralHolds f l) ∧
        ¬r.FailsBeforeNegation f := by
  have hpasses : ∀ alt ∈ r.alts, ∀ l ∈ alt,
      (passes f l = true ↔ ('^' ∉ l.toList → LiteralHolds f l)) := by
    intro alt halt l hl
    by_cases hneg : '^' ∈ l.toList
    · exact iff_of_true (passes_of_negated hf (r.literals alt halt l hl) hneg)
        fun h => absurd hneg h
    · rw [IsLiteral.passes_iff_of_plain hneg]
      exact ⟨fun h _ => h, fun h => h hneg⟩
  have hholds : r.Holds f → r.Passes f := by
    rintro ⟨alt, halt, hl⟩
    exact ⟨alt, halt, fun l hmem => (hpasses alt halt l hmem).mpr fun _ => hl l hmem⟩
  have hnone : ¬r.Passes f ↔ ∀ alt ∈ r.alts, ∃ l ∈ alt, '^' ∉ l.toList ∧ ¬LiteralHolds f l := by
    rw [Passes]
    push Not
    refine forall_congr' fun alt => imp_congr_right fun halt => ?_
    refine exists_congr fun l => and_congr_right fun hl => ?_
    rw [Ne, hpasses alt halt l hl]
    push Not
    rfl
  rw [agrees_iff_given, ← hnone]
  constructor
  · intro h
    by_cases hsat : r.Holds f
    · exact .inl hsat
    · exact .inr (not_or.mp (mt h.mp hsat))
  · rintro (hsat | hnot)
    · exact iff_of_true (.inl (hholds hsat)) hsat
    · exact iff_of_false (not_or.mpr hnot) fun hsat => hnot.1 (hholds hsat)

end NoHat

end ChiRule

end Knp.Feature
