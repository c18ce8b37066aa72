import Mathlib.Data.Fintype.Basic
import Mathlib.Tactic.FinCases
import Knp.AnswerString
import Knp.FeatureBytes
import Knp.Tokens

/-!
# The relaxed comparison of answers (`anaphora.c`)

`relax_compare_result` reads the entities of each case from two answers and asks whether for each
case both have none, or they have one in common. A token belongs to each case whose name is found
in it, and `sscanf` reads the number behind the name.

> The entities that are read are those that were written, the result is the right one and does
> not depend on the order of the answers, just if no answer has an entity for ガ２ and both fit
> into the buffer.

The name ガ is the beginning of ガ２. Where `sscanf` finds no number, the variable has not been
set, and what is in it is a parameter.
-/

namespace Knp

open FeatureBytes Scanf Tokens

def REPNAME_LEN_MAX : Nat := 256

/-- A case of `ELLIPSIS_CASE_LIST_VERB` with an entity. -/
abbrev AnswerPair := Fin ELLIPSIS_CASE_NUM × Fin ENTITY_MAX

def ellipsisCase (i : Fin ELLIPSIS_CASE_NUM) : List UInt8 := ellipsisCaseListVerb.getD i []

/-- What is written for some pairs. -/
def answerText (pairs : List AnswerPair) : List UInt8 :=
  pairs.flatMap fun p => writeNum (ellipsisCase p.1) p.2

/-! ## The comparison -/

/-- What is in `e_num` before it is set, for each token and case. -/
abbrev Unset := Nat → Fin ELLIPSIS_CASE_NUM → Int

/-- A token and a case: the entity, where `e_num` is `stale` before. -/
def readCase (stale : Int) (tp c : List UInt8) : Option Int :=
  (strstr tp c).map fun casePtr =>
    match scan [.lit ':'.toNat.toUInt8, .int] (casePtr.drop c.length) with
    | [.int n] => n
    | _ => stale

/-- `aresult_entity_list` or `gresult_entity_list`; `none` where the text does not fit. -/
def decodeAnswer (stale : Unset) (text : List UInt8) :
    Option (Fin ELLIPSIS_CASE_NUM → List Int) :=
  if text.length < REPNAME_LEN_MAX then
    some fun i => (strtok ' '.toNat.toUInt8 text).zipIdx.filterMap fun q =>
      readCase (stale q.2 i) q.1 (ellipsisCase i)
  else none

def checkCase (aresult gresult : List Int) : Int :=
  if aresult.length = 0 && gresult.length = 0 then 1
  else if aresult.length = 0 || gresult.length = 0 then -1
  else if aresult.any fun m => gresult.any fun n => m = n then 1
  else -1

/-- `relax_compare_result` -/
def relaxCompareResult (aStale gStale : Unset) (gresult aresult : List UInt8) : Option Bool :=
  (decodeAnswer aStale aresult).bind fun as =>
    (decodeAnswer gStale gresult).map fun gs =>
      (List.finRange ELLIPSIS_CASE_NUM).all fun i => checkCase (as i) (gs i) ≠ -1

/-! ## What it should do -/

/-- The entities of a case. -/
def listed (pairs : List AnswerPair) (i : Fin ELLIPSIS_CASE_NUM) : List Int :=
  (pairs.filter fun p => p.1 = i).map fun p => (p.2.val : Int)

/-- For each case both have no entity, or there is one in common. -/
def Shares (a g : List AnswerPair) : Prop :=
  ∀ i, (listed a i = [] ∧ listed g i = []) ∨ ∃ n ∈ listed a i, n ∈ listed g i

structure ComparesRight (aStale gStale : Unset) (g a : List AnswerPair) : Prop where
  result : ∃ b, relaxCompareResult aStale gStale (answerText g) (answerText a) = some b ∧
    (b = true ↔ Shares a g)
  decodesA : decodeAnswer aStale (answerText a) = some (listed a)
  decodesG : decodeAnswer gStale (answerText g) = some (listed g)
  symmetric : relaxCompareResult aStale gStale (answerText g) (answerText a) =
    relaxCompareResult aStale gStale (answerText a) (answerText g)

/-- No entity for ガ２, and the text fits into the buffer. -/
structure Readable (pairs : List AnswerPair) : Prop where
  fits : (answerText pairs).length < REPNAME_LEN_MAX
  noGa2 : ∀ p ∈ pairs, p.1.val ≠ 3

/-! ## Tokens -/

section Tokens

variable {pairs : List AnswerPair} {p : AnswerPair} {stale : Int} {n : Nat}

/-- What stands behind the space. -/
def answerToken (p : AnswerPair) : List UInt8 := ellipsisCase p.1 ++ 58 :: putNat p.2

theorem writeNum_eq (p : AnswerPair) : writeNum (ellipsisCase p.1) p.2 = 32 :: answerToken p := by
  have hspace : utf8 " " = [32] := rfl
  have hcolon : utf8 ":" = [58] := rfl
  rw [writeNum, hspace, hcolon, answerToken, List.append_assoc, List.append_assoc]
  rfl

theorem digit_ne {b : UInt8} (h : b ∈ putNat n) : b ≠ 32 ∧ b ≠ 227 := by
  have hdigit := isDigit_of_mem_putNat h
  constructor <;>
  · rintro rfl
    cases hdigit

/-- A name has the byte 227 just at its beginning, and no space. -/
theorem ellipsisCase_cons (i : Fin ELLIPSIS_CASE_NUM) :
    ∃ bs, ellipsisCase i = 227 :: bs ∧ ∀ b ∈ bs, b ≠ 32 ∧ b ≠ 227 := by
  have hall : ∀ i, (ellipsisCase i).head? = some 227 ∧
      (ellipsisCase i).tail.all (fun b => b ≠ 32 ∧ b ≠ 227) = true := by decide
  obtain ⟨hhead, htail⟩ := hall i
  exact ⟨_, (List.cons_head?_tail hhead).symm, fun b hb =>
    of_decide_eq_true (List.all_eq_true.mp htail b hb)⟩

theorem answerToken_cons (p : AnswerPair) :
    ∃ bs, answerToken p = 227 :: bs ∧ ∀ b ∈ bs, b ≠ 32 ∧ b ≠ 227 := by
  obtain ⟨bs, hname, hbs⟩ := ellipsisCase_cons p.1
  refine ⟨bs ++ 58 :: putNat p.2, by rw [answerToken, hname, List.cons_append], fun b hb => ?_⟩
  rcases List.mem_append.mp hb with hb | hb
  · exact hbs b hb
  · rcases List.mem_cons.mp hb with rfl | hb
    · decide
    · exact digit_ne hb

theorem splitOn_answerText (pairs : List AnswerPair) {w : List UInt8} (hw : 32 ∉ w) :
    (w ++ answerText pairs).splitOn 32 = w :: pairs.map answerToken := by
  induction pairs generalizing w with
  | nil =>
      rw [answerText, List.flatMap_nil, List.append_nil]
      exact List.splitOn_eq_singleton hw
  | cons p pairs ih =>
      obtain ⟨bs, htoken, hbs⟩ := answerToken_cons p
      have hclean : 32 ∉ answerToken p := by
        rw [htoken]
        intro hb
        rcases List.mem_cons.mp hb with heq | hb
        · exact absurd heq (by decide)
        · exact (hbs 32 hb).1 rfl
      have htext : answerText (p :: pairs) = 32 :: (answerToken p ++ answerText pairs) := by
        rw [answerText, List.flatMap_cons, writeNum_eq, List.cons_append]
        rfl
      rw [htext, List.map_cons, ← ih hclean]
      exact List.splitOn_append_cons_self_of_not_mem hw _

theorem strtok_answerText (pairs : List AnswerPair) :
    strtok 32 (answerText pairs) = pairs.map answerToken := by
  have hsplit := splitOn_answerText pairs (w := []) List.not_mem_nil
  rw [List.nil_append] at hsplit
  rw [strtok, hsplit, List.filter_cons_of_neg (by decide), List.filter_eq_self]
  intro tp htp
  obtain ⟨p, -, rfl⟩ := List.mem_map.mp htp
  obtain ⟨bs, htoken, -⟩ := answerToken_cons p
  rw [htoken]
  exact decide_eq_true (List.cons_ne_nil _ _)

/-- A name is found just at the beginning of a token. -/
theorem strstr_answerToken (p : AnswerPair) (i : Fin ELLIPSIS_CASE_NUM) :
    strstr (answerToken p) (ellipsisCase i) =
      if (ellipsisCase i).isPrefixOf (answerToken p) then some (answerToken p) else none := by
  obtain ⟨bs, htoken, hbs⟩ := answerToken_cons p
  obtain ⟨cs, hname, -⟩ := ellipsisCase_cons i
  have hrest : bs.tails.find? (ellipsisCase i).isPrefixOf = none := by
    rw [List.find?_eq_none]
    intro t ht hpre
    obtain ⟨u, rfl⟩ := List.isPrefixOf_iff_prefix.mp hpre
    have hmem : (227 : UInt8) ∈ bs :=
      ((List.mem_tails _ _).mp ht).subset (hname ▸ List.mem_append_left u List.mem_cons_self)
    exact (hbs 227 hmem).2 rfl
  rw [htoken, strstr, List.tails_cons, List.find?_cons, hrest]
  cases (ellipsisCase i).isPrefixOf (227 :: bs) <;> rfl

/-- Which names a token begins with: its own, and ガ if its own is ガ２. -/
theorem prefix_answerToken (p : AnswerPair) (i : Fin ELLIPSIS_CASE_NUM) :
    (ellipsisCase i).isPrefixOf (answerToken p) = decide (p.1 = i ∨ p.1.val = 3 ∧ i.val = 0) := by
  have hnames : ∀ (i j : Fin 4) (ds : List UInt8),
      (ellipsisCase i).isPrefixOf (ellipsisCase j ++ 58 :: ds) =
        decide (j = i ∨ j.val = 3 ∧ i.val = 0) := by
    intro i j ds
    fin_cases i <;> fin_cases j <;> rfl
  exact hnames i p.1 _

/-- A token gives its entity to its own case; from ガ２ the case ガ gets what was there before. -/
theorem readCase_answerToken (stale : Int) (p : AnswerPair) (i : Fin ELLIPSIS_CASE_NUM) :
    readCase stale (answerToken p) (ellipsisCase i) =
      if p.1 = i then some (p.2.val : Int)
      else if p.1.val = 3 ∧ i.val = 0 then some stale else none := by
  have hfound := prefix_answerToken p i
  rw [readCase, strstr_answerToken]
  by_cases hown : p.1 = i
  · have hdrop : (answerToken p).drop (ellipsisCase i).length = 58 :: putNat p.2 := by
      rw [answerToken, hown, List.drop_left]
    have hscan : scan [.lit ':'.toNat.toUInt8, .int] (58 :: putNat p.2) = [.int p.2.val] := by
      have hlit : scan [.lit 58, .int] (58 :: putNat p.2) = scan [.int] (putNat p.2) :=
        scan_lit 58 (putNat p.2)
      have hint : scan [.int] (putNat p.2) = [.int p.2.val] := by
        rw [scan, scanInt_putNat]
        rfl
      exact hlit.trans hint
    rw [if_pos hown, if_pos (hfound.trans (decide_eq_true (.inl hown))), Option.map_some, hdrop,
      hscan]
  · by_cases hga2 : p.1.val = 3 ∧ i.val = 0
    · rw [if_neg hown, if_pos hga2, if_pos (hfound.trans (decide_eq_true (.inr hga2))),
        Option.map_some]
      -- behind ガ the token goes on with the rest of ガ２, which is not a colon
      obtain ⟨j, n⟩ := p
      obtain rfl : j = (3 : Fin 4) := Fin.ext hga2.1
      obtain rfl : i = (0 : Fin 4) := Fin.ext hga2.2
      rfl
    · rw [if_neg hown, if_neg hga2, if_neg, Option.map_none]
      rw [hfound, decide_eq_true_eq]
      exact not_or.mpr ⟨hown, hga2⟩

end Tokens

/-! ## The entities that are read -/

section Decode

variable {pairs : List AnswerPair} {stale : Unset} {a g : List AnswerPair} {as gs : List Int}

/-- What is read for a case from the tokens of some pairs. -/
def readFor (stale : Unset) (pairs : List AnswerPair) (i : Fin ELLIPSIS_CASE_NUM) : List Int :=
  pairs.zipIdx.filterMap fun q =>
    if q.1.1 = i then some (q.1.2.val : Int)
    else if q.1.1.val = 3 ∧ i.val = 0 then some (stale q.2 i) else none

theorem decodeAnswer_answerText (hfits : (answerText pairs).length < REPNAME_LEN_MAX) :
    decodeAnswer stale (answerText pairs) = some (readFor stale pairs) := by
  have htokens : strtok ' '.toNat.toUInt8 (answerText pairs) = pairs.map answerToken :=
    strtok_answerText pairs
  rw [decodeAnswer, if_pos hfits, htokens, List.zipIdx_map]
  refine congrArg some (funext fun i => ?_)
  rw [List.filterMap_map]
  exact List.filterMap_congr fun q _ => readCase_answerToken (stale q.2 i) q.1 i

theorem readFor_eq (hnoGa2 : ∀ p ∈ pairs, p.1.val ≠ 3) : readFor stale pairs = listed pairs := by
  funext i
  have hread : readFor stale pairs i = pairs.zipIdx.filterMap
      ((fun p : AnswerPair => if p.1 = i then some (p.2.val : Int) else none) ∘ Prod.fst) := by
    refine List.filterMap_congr fun q hq => ?_
    have hq3 : ¬(q.1.1.val = 3 ∧ i.val = 0) :=
      fun h => hnoGa2 q.1 (List.fst_mem_of_mem_zipIdx hq) h.1
    rw [if_neg hq3]
    rfl
  have hlisted : listed pairs i =
      pairs.filterMap fun p => if p.1 = i then some (p.2.val : Int) else none := by
    rw [listed, ← List.filterMap_eq_map, List.filterMap_filter]
    exact List.filterMap_congr fun p _ => by simp only [decide_eq_true_eq, Function.comp]
  rw [hread, hlisted, ← List.filterMap_map, List.zipIdx_map_fst]

/-- For the case ガ one entity is read for each token of ガ or ガ２. -/
theorem length_readFor (stale : Unset) (pairs : List AnswerPair) (i : Fin ELLIPSIS_CASE_NUM) :
    (readFor stale pairs i).length =
      (pairs.filter fun p => p.1 = i ∨ p.1.val = 3 ∧ i.val = 0).length := by
  have hmap := congrArg
    (List.countP fun p : AnswerPair => decide (p.1 = i ∨ p.1.val = 3 ∧ i.val = 0))
    (List.zipIdx_map_fst 0 pairs)
  rw [List.countP_map] at hmap
  rw [readFor, List.length_filterMap_eq_countP, ← List.countP_eq_length_filter, ← hmap]
  refine List.countP_congr fun q _ => ?_
  simp only [Function.comp, decide_eq_true_eq]
  split_ifs with hown hga2
  · exact iff_of_true rfl (.inl hown)
  · exact iff_of_true rfl (.inr hga2)
  · exact iff_of_false Bool.false_ne_true (not_or.mpr ⟨hown, hga2⟩)

theorem noGa2_of_readFor (h : readFor stale pairs = listed pairs) : ∀ p ∈ pairs, p.1.val ≠ 3 := by
  obtain ⟨i, hi⟩ : ∃ i : Fin ELLIPSIS_CASE_NUM, i.val = 0 := ⟨⟨0, by decide⟩, rfl⟩
  have hlength := (length_readFor stale pairs i).symm.trans (congrArg List.length (congrFun h i))
  have htwice : (pairs.filter fun p => p.1 = i ∨ p.1.val = 3 ∧ i.val = 0).filter
      (fun p => p.1 = i) = pairs.filter fun p => p.1 = i := by
    rw [List.filter_filter]
    exact List.filter_congr fun p _ => by
      rw [← Bool.decide_and, decide_eq_decide, and_iff_left_iff_imp]
      exact .inl
  rw [listed, List.length_map, ← htwice] at hlength
  have hall := List.length_filter_eq_length_iff.mp hlength.symm
  intro p hp h3
  have hown := hall p (List.mem_filter.mpr ⟨hp, decide_eq_true (.inr ⟨h3, hi⟩)⟩)
  rw [of_decide_eq_true hown, hi] at h3
  cases h3

/-- What was written is read just if the text fits and has no ガ２. -/
theorem decodeAnswer_eq_iff :
    decodeAnswer stale (answerText pairs) = some (listed pairs) ↔ Readable pairs := by
  constructor
  · intro h
    by_cases hfits : (answerText pairs).length < REPNAME_LEN_MAX
    · rw [decodeAnswer_answerText hfits] at h
      exact ⟨hfits, noGa2_of_readFor (Option.some_inj.mp h)⟩
    · rw [decodeAnswer, if_neg hfits] at h
      cases h
  · intro h
    rw [decodeAnswer_answerText h.fits, readFor_eq h.noGa2]

/-! ## The result -/

theorem checkCase_ne (as gs : List Int) :
    checkCase as gs ≠ -1 ↔ (as = [] ∧ gs = []) ∨ ∃ n ∈ as, n ∈ gs := by
  cases as with
  | nil =>
      cases gs with
      | nil => exact iff_of_true (by decide) (.inl ⟨rfl, rfl⟩)
      | cons n gs =>
          refine iff_of_false (fun h => h rfl) ?_
          rintro (⟨-, hnil⟩ | ⟨m, hm, -⟩)
          · cases hnil
          · cases hm
  | cons m as =>
      cases gs with
      | nil =>
          refine iff_of_false (fun h => h rfl) ?_
          rintro (⟨hnil, -⟩ | ⟨n, -, hn⟩)
          · cases hnil
          · cases hn
      | cons n gs =>
          have hany : ((m :: as).any fun m => (n :: gs).any fun n => m = n) = true ↔
              ∃ k ∈ m :: as, k ∈ n :: gs := by
            simp only [List.any_eq_true, decide_eq_true_eq, exists_eq_right']
          have hcheck : checkCase (m :: as) (n :: gs) =
              if (m :: as).any fun m => (n :: gs).any fun n => m = n then 1 else -1 := rfl
          rw [hcheck]
          split_ifs with h
          · exact iff_of_true (by decide) (.inr (hany.mp h))
          · refine iff_of_false (fun h => h rfl) ?_
            rintro (⟨hnil, -⟩ | hcommon)
            · cases hnil
            · exact h (hany.mpr hcommon)

theorem Shares.symm (h : Shares a g) : Shares g a := fun i =>
  (h i).imp And.symm fun ⟨n, ha, hg⟩ => ⟨n, hg, ha⟩

theorem relaxCompareResult_answerText {aStale gStale : Unset} (hg : Readable g) (ha : Readable a) :
    relaxCompareResult aStale gStale (answerText g) (answerText a) =
      some (decide (∀ i, checkCase (listed a i) (listed g i) ≠ -1)) := by
  rw [relaxCompareResult, decodeAnswer_eq_iff.mpr ha, decodeAnswer_eq_iff.mpr hg]
  refine congrArg some (Bool.eq_iff_iff.mpr ?_)
  simp only [List.all_eq_true, List.mem_finRange, forall_const, decide_eq_true_eq]

theorem comparesRight_iff (aStale gStale : Unset) (g a : List AnswerPair) :
    ComparesRight aStale gStale g a ↔ Readable g ∧ Readable a := by
  constructor
  · exact fun h => ⟨decodeAnswer_eq_iff.mp h.decodesG, decodeAnswer_eq_iff.mp h.decodesA⟩
  · rintro ⟨hg, ha⟩
    have hshares : ∀ {a g : List AnswerPair},
        (∀ i, checkCase (listed a i) (listed g i) ≠ -1) ↔ Shares a g :=
      forall_congr' fun i => checkCase_ne _ _
    refine ⟨⟨_, relaxCompareResult_answerText hg ha, ?_⟩, decodeAnswer_eq_iff.mpr ha,
      decodeAnswer_eq_iff.mpr hg, ?_⟩
    · rw [decide_eq_true_eq]
      exact hshares
    · rw [relaxCompareResult_answerText hg ha, relaxCompareResult_answerText ha hg]
      refine congrArg some (decide_eq_decide.mpr ?_)
      rw [hshares, hshares]
      exact ⟨Shares.symm, Shares.symm⟩

end Decode

/-! ## What the two functions write -/

section Written

variable {l ns : List Nat} {f : List UInt8 → List UInt8}

theorem exists_pairs (i : Fin ELLIPSIS_CASE_NUM) (h : ∀ n ∈ l, n < ENTITY_MAX) :
    ∃ pairs, l.flatMap (writeNum (ellipsisCase i)) = answerText pairs := by
  induction l with
  | nil => exact ⟨[], rfl⟩
  | cons n l ih =>
      obtain ⟨pairs, hpairs⟩ := ih fun m hm => h m (List.mem_cons_of_mem n hm)
      exact ⟨(i, ⟨n, h n List.mem_cons_self⟩) :: pairs, congrArg (_ ++ ·) hpairs⟩

theorem exists_pairs_writeNums (skip : Nat → Bool) (i : Fin ELLIPSIS_CASE_NUM)
    (h : ∀ n ∈ l, n < ENTITY_MAX) :
    ∃ pairs, writeNums skip (ellipsisCase i) l = answerText pairs := by
  rw [writeNums_eq skip _ h]
  exact exists_pairs i fun n hn => h n (List.mem_of_mem_filter hn)

theorem exists_pairs_cases (hf : ∀ i, ∃ pairs, f (ellipsisCase i) = answerText pairs) :
    ∃ pairs, ellipsisCaseListVerb.flatMap f = answerText pairs := by
  have hcases : ∀ is : List (Fin ELLIPSIS_CASE_NUM),
      ∃ pairs, (is.map ellipsisCase).flatMap f = answerText pairs := by
    intro is
    induction is with
    | nil => exact ⟨[], rfl⟩
    | cons i is ih =>
        obtain ⟨ps, hps⟩ := hf i
        obtain ⟨qs, hqs⟩ := ih
        refine ⟨ps ++ qs, ?_⟩
        rw [List.map_cons, List.flatMap_cons, hps, hqs, answerText, answerText, answerText,
          List.flatMap_append]
  exact hcases (List.finRange ELLIPSIS_CASE_NUM)

/-- The answer of the system is the text of some pairs. -/
theorem makeAresultString_written (env : AnswerEnv) (result : List ResultArg) :
    ∃ pairs, env.makeAresultString result = answerText pairs := by
  refine exists_pairs_cases fun i => exists_pairs_writeNums _ i fun n hn => ?_
  rw [AnswerEnv.aresultNums_eq, List.mem_insertionSort] at hn
  exact lt_of_mem_resultNums (AnswerEnv.mem_keptNums hn)

/-- So is the answer of the corpus. -/
theorem makeGresultStrings_written (env : AnswerEnv) (mentions : List TagMention) :
    ∃ pairs, env.makeGresultStrings mentions = answerText pairs := by
  refine exists_pairs_cases fun i => exists_pairs_writeNums _ i fun n hn => ?_
  rw [gresultNums_eq fun n => lt_of_mem_mentionNums, List.mem_insertionSort] at hn
  exact lt_of_mem_mentionNums hn

end Written

/-! ## An entity for ガ２ -/

def gaCase : Fin ELLIPSIS_CASE_NUM := ⟨0, by decide⟩

def woCase : Fin ELLIPSIS_CASE_NUM := ⟨1, by decide⟩

def ga2Case : Fin ELLIPSIS_CASE_NUM := ⟨3, by decide⟩

def ga2Gold : List AnswerPair :=
  [(gaCase, seventhEntity), (woCase, seventhEntity), (ga2Case, sixthEntity)]

def ga2System : List AnswerPair := [(woCase, seventhEntity), (ga2Case, sixthEntity)]

def ga2Mentions : List TagMention :=
  ga2Gold.map fun p => ⟨'O', ellipsisCase p.1, p.2⟩

def ga2Args : List ResultArg := [⟨2, seventhEntity⟩, ⟨42, sixthEntity⟩]

/-- The variable still holds the number of the token before. -/
def seventhKept : Unset := fun _ _ => 7

/-- ガ has an entity in one answer only, and the answers are taken for the same. -/
theorem ga2System_accepted :
    plainAnswer.makeGresultStrings ga2Mentions = answerText ga2Gold ∧
      plainAnswer.makeAresultString ga2Args = answerText ga2System ∧
      relaxCompareResult seventhKept seventhKept (answerText ga2Gold) (answerText ga2System) =
        some true ∧
      ¬Shares ga2System ga2Gold ∧
      ¬ComparesRight seventhKept seventhKept ga2Gold ga2System := by
  have haccepted : relaxCompareResult seventhKept seventhKept (answerText ga2Gold)
      (answerText ga2System) = some true := by
    decide +kernel
  have hshares : ¬Shares ga2System ga2Gold := by
    intro h
    rcases h gaCase with ⟨-, hgold⟩ | ⟨n, hn, -⟩
    · exact absurd hgold (by decide)
    · exact absurd hn (List.not_mem_nil (a := n))
  refine ⟨by decide +kernel, by decide +kernel, haccepted, hshares, fun h => ?_⟩
  obtain ⟨b, hb, hiff⟩ := h.result
  rw [haccepted] at hb
  exact hshares (hiff.mp (Option.some_inj.mp hb).symm)

end Knp
