import Mathlib.Algebra.Order.Field.Rat
import Mathlib.Data.List.Flatten
import Mathlib.Tactic.FieldSimp
import Mathlib.Tactic.Linarith
import Mathlib.Tactic.Positivity
import Knp.Hownet

/-!
# When the similarity is one of the words (`similarity.c`)

The value of a call that gets to step 5 depends on what the loop of step 5.1 has left in
`j`, and so on earlier calls. It is a similarity of the entries where this does not matter
and no pair of concepts is counted twice.

> Calls that meet the condition, after whatever other calls, give the same value for the
> same entries in either order, and it is between 0 and 1.
-/

namespace Knp

open CommonAffix PairCount Tokens

namespace Hownet

/-! ## The condition -/

/-- The concepts of the shorter list, the second one of equally long ones, are all in the other. -/
def Includes (xs ys : List (Option (List UInt8))) : Prop :=
  if xs.length < ys.length then Covered sameToken xs ys else Covered sameToken ys xs

/-- No token has two equal ones on the other side. -/
def OnceEach (xs ys : List (Option (List UInt8))) : Prop :=
  Single sameToken xs ys ∧ Single sameToken ys xs

/-- The place of the last concept of the shorter list in the longer one, or its end. -/
def lastPlace (xs ys : List (Option (List UInt8))) : Nat :=
  if xs.length < ys.length then ys.findIdx (sameToken (xs.getLast?.getD none))
  else xs.findIdx (sameToken (ys.getLast?.getD none))

/-- At this place the second word has a concept, or an earlier call has left one behind its end. -/
def PlaceHeld (conceptW2 : Nat → Option (List UInt8)) (xs ys : List (Option (List UInt8))) : Prop :=
  lastPlace xs ys < ys.length ∨
    ys.length < lastPlace xs ys ∧ (conceptW2 (lastPlace xs ys)).isSome = true

/-- The category at the end of the first concepts, 0 without one. -/
def level (db : HownetDb) (xs : List (Option (List UInt8))) (n : Nat) : Int :=
  max 0 ((disAt db xs n).getD 0)

/-- The condition of step 5. -/
structure StepFive (db : HownetDb) (conceptW2 : Nat → Option (List UInt8))
    (xs ys ss ts : List (Option (List UInt8))) : Prop where
  counted : OnceEach xs ys ∨ Includes xs ys ∧ Includes ys xs
  sememes : OnceEach ss ts
  place : PlaceHeld conceptW2 xs ys ∨
    level db xs (min xs.length ys.length) = level db xs (commonLength xs ys)

/-- The translations and the concepts of two words. -/
structure ReadTokens where
  ps : List (Option (List UInt8))
  qs : List (Option (List UInt8))
  xs : List (Option (List UInt8))
  ys : List (Option (List UInt8))
deriving DecidableEq

/-- What is read of two words, of which nothing is missing or too long. -/
def reads (db : HownetDb) (str1 str2 : List UInt8) : Option ReadTokens :=
  (db.hownetDefDb str1).bind fun defW1 => (db.hownetDefDb str2).bind fun defW2 =>
    (db.hownetTranDb str1).bind fun transW1 => (db.hownetTranDb str2).bind fun transW2 =>
      (entryTokens HOWNET_TRAN_MAX transW1).bind fun ps =>
        (entryTokens HOWNET_TRAN_MAX transW2).bind fun qs =>
          (entryTokens HOWNET_CONCEPT_MAX defW1).bind fun xs =>
            (entryTokens HOWNET_CONCEPT_MAX defW2).map fun ys => ⟨ps, qs, xs, ys⟩

/-- The concepts of the first sememe. -/
def sememes (db : HownetDb) (xs : List (Option (List UInt8))) :
    Option (List (Option (List UInt8))) :=
  (getHownetSemDef db (xs.getD 0 none)).bind semTokens

/-- The condition of a call: both words have a concept, and where step 5 may be reached the
antonyms are the same in both orders and step 5 meets its own condition. -/
structure Meets (db : HownetDb) (conceptW2 : Nat → Option (List UInt8)) (str1 str2 : List UInt8) :
    Prop where
  concepts : ∀ r, reads db str1 str2 = some r → none ∉ r.xs ∧ none ∉ r.ys
  antonyms : ∀ r, reads db str1 str2 = some r → isSim r.ps r.qs = false →
    isSim r.xs r.ys = false →
      (getHownetAntonym db str1 str2 = 0 ↔ getHownetAntonym db str2 str1 = 0)
  five : ∀ r ss ts, reads db str1 str2 = some r → isSim r.ps r.qs = false →
    isSim r.xs r.ys = false → getHownetAntonym db str1 str2 = 0 →
    sememes db r.xs = some ss → sememes db r.ys = some ts → StepFive db conceptW2 r.xs r.ys ss ts

/-- The words have the same entries. -/
structure SameEntries (db : HownetDb) (a b c d : List UInt8) : Prop where
  def1 : db.hownetDefDb a = db.hownetDefDb c
  def2 : db.hownetDefDb b = db.hownetDefDb d
  tran1 : db.hownetTranDb a = db.hownetTranDb c
  tran2 : db.hownetTranDb b = db.hownetTranDb d
  antonym : db.hownetAntonymDb (a ++ 58 :: b) = db.hownetAntonymDb (c ++ 58 :: d)
  antonymBack : db.hownetAntonymDb (b ++ 58 :: a) = db.hownetAntonymDb (d ++ 58 :: c)

/-- The law of two calls: a value between 0 and 1, and the same for the same entries in either
order. -/
def CallsAgree (db : HownetDb) (earlier earlier' : List (List UInt8 × List UInt8))
    (a b c d : List UInt8) : Prop :=
  SameEntries db a b c d ∨ SameEntries db a b d c → ∃ v : ℚ,
    (similarityChinese db (conceptsAfter db earlier) a b).1 = some v ∧
      (similarityChinese db (conceptsAfter db earlier') c d).1 = some v ∧ 0 ≤ v ∧ v ≤ 1

/-! ## Tokens -/

section Token

variable {xs ys ss ts : List (Option (List UInt8))} {a b : Option (List UInt8)}

theorem sameToken_comm (a b : Option (List UInt8)) : sameToken a b = sameToken b a := by
  cases a with
  | none =>
      cases b with
      | none => rfl
      | some b => rfl
  | some a =>
      cases b with
      | none => rfl
      | some b => exact decide_eq_decide.mpr eq_comm

theorem flip_sameToken : flip sameToken = sameToken := by
  funext a b
  exact sameToken_comm b a

theorem isSim_comm (xs ys : List (Option (List UInt8))) : isSim xs ys = isSim ys xs := by
  have hall : ∀ xs ys : List (Option (List UInt8)),
      (xs.all fun a => ys.all fun b => sameToken a b) = true →
        (ys.all fun b => xs.all fun a => sameToken b a) = true := by
    intro xs ys h
    rw [List.all_eq_true] at h ⊢
    intro b hb
    rw [List.all_eq_true]
    intro a ha
    rw [sameToken_comm]
    exact List.all_eq_true.mp (h a ha) b hb
  rw [isSim, isSim, Bool.eq_iff_iff, Bool.and_eq_true, Bool.and_eq_true, decide_eq_true_iff,
    decide_eq_true_iff, and_comm (a := 0 < xs.length)]
  exact and_congr_right fun _ => ⟨hall xs ys, hall ys xs⟩

theorem OnceEach.symm (h : OnceEach xs ys) : OnceEach ys xs := ⟨h.2, h.1⟩

theorem pairs_comm (xs ys : List (Option (List UInt8))) :
    pairs sameToken xs ys = pairs sameToken ys xs := by
  have h := pairs_flip sameToken xs ys
  rw [flip_sameToken] at h
  exact h.symm

theorem OnceEach.pairs_le (h : OnceEach xs ys) :
    2 * pairs sameToken xs ys ≤ xs.length + ys.length := by
  have hleft := pairs_le_left h.1
  have hright : pairs sameToken xs ys ≤ ys.length := by
    refine pairs_le_right ?_
    rw [flip_sameToken]
    exact h.2
  omega

end Token

/-! ## Step 5.1 -/

section Include

variable {xs ys longer : List (Option (List UInt8))}

theorem foldl_includeStep_fst (longer shorter : List (Option (List UInt8))) (st : Nat × Nat) :
    (shorter.foldl (includeStep longer) st).1 =
      st.1 + shorter.countP fun a => longer.any (sameToken a) := by
  induction shorter generalizing st with
  | nil => rfl
  | cons a shorter ih =>
      have hany : longer.findIdx (sameToken a) < longer.length ↔
          longer.any (sameToken a) = true := by
        rw [List.findIdx_lt_length, List.any_eq_true]
      rw [List.foldl_cons, ih, List.countP_cons, includeStep]
      by_cases h : longer.any (sameToken a) = true
      · rw [if_pos (hany.mpr h), if_pos h]
        omega
      · rw [if_neg (mt hany.mp h), if_neg h]
        rfl

theorem foldl_includeStep_snd (longer shorter : List (Option (List UInt8))) (st : Nat × Nat) :
    (shorter.foldl (includeStep longer) st).2 =
      match shorter.getLast? with
      | some a => longer.findIdx (sameToken a)
      | none => st.2 := by
  induction shorter generalizing st with
  | nil => rfl
  | cons a shorter ih =>
      rw [List.foldl_cons, ih, List.getLast?_cons]
      cases shorter.getLast? with
      | none => rfl
      | some b => rfl

theorem includeLoop_snd (hx : xs ≠ []) (hy : ys ≠ []) :
    (includeLoop xs ys).2 = lastPlace xs ys := by
  rw [includeLoop, lastPlace]
  split
  · rw [foldl_includeStep_snd, List.getLast?_eq_some_getLast hx]
    rfl
  · rw [foldl_includeStep_snd, List.getLast?_eq_some_getLast hy]
    rfl

theorem countP_eq_length_iff (shorter longer : List (Option (List UInt8))) :
    (shorter.countP fun a => longer.any (sameToken a)) = shorter.length ↔
      Covered sameToken shorter longer := by
  rw [List.countP_eq_length]
  exact forall₂_congr fun a _ => List.any_eq_true

theorem includeLoop_fst_iff (xs ys : List (Option (List UInt8))) :
    (includeLoop xs ys).1 = min xs.length ys.length ↔ Includes xs ys := by
  rw [includeLoop, Includes]
  split
  · rename_i h
    rw [foldl_includeStep_fst, Nat.zero_add, min_eq_left h.le, countP_eq_length_iff]
  · rename_i h
    rw [foldl_includeStep_fst, Nat.zero_add, min_eq_right (not_lt.mp h), countP_eq_length_iff]

/-- In both orders alike, if no pair is counted twice. -/
theorem includes_comm (h : OnceEach xs ys ∨ Includes xs ys ∧ Includes ys xs) :
    Includes xs ys ↔ Includes ys xs := by
  rcases h with honce | ⟨hxy, hyx⟩
  · rcases lt_trichotomy xs.length ys.length with hlt | heq | hgt
    · rw [Includes, Includes, if_pos hlt, if_neg hlt.not_gt]
    · have hx := honce.1
      have hy := honce.2
      rw [Includes, Includes, if_neg heq.not_lt, if_neg heq.symm.not_lt]
      rw [← flip_sameToken] at hx hy
      constructor
      · intro hc
        have hback := Covered.back hc hx heq.le
        rw [flip_sameToken] at hback
        exact hback
      · intro hc
        have hback := Covered.back hc hy heq.symm.le
        rw [flip_sameToken] at hback
        exact hback
    · rw [Includes, Includes, if_neg hgt.not_gt, if_pos hgt]
  · exact iff_of_true hxy hyx

theorem nsOf_comm (h : OnceEach xs ys ∨ Includes xs ys ∧ Includes ys xs) :
    nsOf xs ys = nsOf ys xs := by
  have hiff := includes_comm h
  rw [← includeLoop_fst_iff, ← includeLoop_fst_iff] at hiff
  rw [nsOf, nsOf]
  by_cases hin : (includeLoop xs ys).1 = min xs.length ys.length
  · rw [if_pos hin, if_pos (hiff.mp hin), hin, hiff.mp hin, min_comm]
  · rw [if_neg hin, if_neg (mt hiff.mpr hin), pairs_comm]

theorem nsOf_le (h : OnceEach xs ys ∨ Includes xs ys ∧ Includes ys xs) :
    2 * nsOf xs ys ≤ xs.length + ys.length := by
  rw [nsOf]
  split
  · rename_i hin
    rw [hin]
    omega
  · rename_i hin
    rw [includeLoop_fst_iff] at hin
    rcases h with honce | ⟨hxy, -⟩
    · exact honce.pairs_le
    · exact absurd hxy hin

theorem includeScore_comm (h : OnceEach xs ys ∨ Includes xs ys ∧ Includes ys xs) :
    includeScore xs ys = includeScore ys xs := by
  rw [includeScore, includeScore]
  refine if_congr ?_ rfl rfl
  rw [includeLoop_fst_iff, includeLoop_fst_iff]
  exact includes_comm h

end Include

/-! ## Step 5.2 -/

section Diff

variable {db : HownetDb} {xs ys : List (Option (List UInt8))} {n : Nat}

/-- Where `concept_w2[j]` is a concept, `diff` is what the words have in common. -/
theorem diffLoop_held (hx : none ∉ xs) (hy : none ∉ ys) (i : Nat) :
    diffLoop true i xs ys = some (i + commonLength xs ys) := by
  induction xs generalizing ys i with
  | nil =>
      cases ys with
      | nil => rfl
      | cons b ys => rfl
  | cons a xs ih =>
      cases ys with
      | nil => rfl
      | cons b ys =>
          rw [List.mem_cons, not_or] at hx hy
          refine (if_pos ⟨Ne.symm hx.1, rfl⟩).trans ?_
          rw [commonLength]
          cases b with
          | none => exact absurd rfl hy.1
          | some b =>
              by_cases hab : a = some b
              · refine (if_pos hab).trans ?_
                rw [if_pos hab, ih hx.2 hy.2, Nat.add_assoc, Nat.add_comm 1]
              · refine (if_neg hab).trans ?_
                rw [if_neg hab]
                rfl

/-- Otherwise the loop goes to the end. -/
theorem diffLoop_notHeld (i : Nat) :
    diffLoop false i xs ys = some (i + min xs.length ys.length) := by
  induction xs generalizing ys i with
  | nil =>
      cases ys with
      | nil => rfl
      | cons b ys =>
          rw [List.length_nil, Nat.zero_min]
          rfl
  | cons a xs ih =>
      cases ys with
      | nil => rfl
      | cons b ys =>
          refine (if_neg fun h => Bool.false_ne_true h.2).trans ?_
          rw [ih, List.length_cons, List.length_cons, Nat.succ_min_succ, Nat.succ_eq_add_one,
            Nat.add_assoc, Nat.add_comm 1]

theorem disAt_isSome (db : HownetDb) (h : none ∉ xs) (hn : n ≤ xs.length) :
    ∃ dis, disAt db xs n = some dis := by
  rw [disAt]
  split
  · rename_i hpos
    have hlt : n - 1 < xs.length := by omega
    obtain ⟨a, ha⟩ : ∃ a, xs.getD (n - 1) none = some a := by
      rw [List.getD_eq_getElem?_getD, List.getElem?_eq_getElem hlt, Option.getD_some]
      exact Option.ne_none_iff_exists'.mp fun hnone => h (hnone ▸ List.getElem_mem hlt)
    rw [ha, getHownetCategory]
    cases db.hownetCategoryDb with
    | none => exact ⟨0, rfl⟩
    | some categoryDb => exact ⟨_, rfl⟩
  · exact ⟨0, rfl⟩

theorem categoryScore_max (dis : Int) : categoryScore (max 0 dis) = categoryScore dis := by
  rw [categoryScore, categoryScore]
  rcases le_or_gt dis 0 with h | h
  · rw [max_eq_left h, if_neg (lt_irrefl 0), if_neg h.not_gt]
  · rw [max_eq_right h.le]

theorem categoryScore_level (db : HownetDb) (h : none ∉ xs) (hn : n ≤ xs.length) :
    (disAt db xs n).map categoryScore = some (categoryScore (level db xs n)) := by
  obtain ⟨dis, hdis⟩ := disAt_isSome db h hn
  rw [level, hdis, Option.getD_some, categoryScore_max]
  rfl

theorem disAt_comm (db : HownetDb) (xs ys : List (Option (List UInt8))) :
    disAt db xs (commonLength xs ys) = disAt db ys (commonLength ys xs) := by
  rw [commonLength_comm ys xs, disAt, disAt]
  by_cases hpos : 0 < commonLength xs ys
  · have hlt : commonLength xs ys - 1 < commonLength xs ys := by omega
    obtain ⟨a, hx, hy⟩ := agreeAt_of_lt hlt
    rw [List.getD_eq_getElem?_getD, List.getD_eq_getElem?_getD, hx, hy]
  · rw [if_neg hpos, if_neg hpos]

theorem level_comm (db : HownetDb) (xs ys : List (Option (List UInt8))) :
    level db xs (commonLength xs ys) = level db ys (commonLength ys xs) := by
  rw [level, level, disAt_comm]

end Diff

/-! ## Step 5 -/

section Value

variable {db : HownetDb} {conceptW2 : Nat → Option (List UInt8)}
  {xs ys ss ts : List (Option (List UInt8))}

/-- The value of step 5 with the category of a number of first concepts. -/
def fiveValue (db : HownetDb) (xs ys ss ts : List (Option (List UInt8))) (n : Nat) : ℚ :=
  weighted (includeScore xs ys) (categoryScore (level db xs n))
    (ratio (nsOf xs ys) xs.length ys.length)
    (ratio (pairs sameToken ss ts) ss.length ts.length)

theorem ratio_comm (ns nc1 nc2 : Nat) : ratio ns nc1 nc2 = ratio ns nc2 nc1 := by
  rw [ratio, ratio, add_comm (nc1 : ℚ)]
  exact if_congr or_comm rfl rfl

theorem ratio_nonneg (ns nc1 nc2 : Nat) : 0 ≤ ratio ns nc1 nc2 := by
  rw [ratio]
  split
  · positivity
  · exact le_rfl

theorem ratio_le_one {ns nc1 nc2 : Nat} (h : 2 * ns ≤ nc1 + nc2) : ratio ns nc1 nc2 ≤ 1 := by
  rw [ratio]
  split
  · rename_i hpos
    have hsum : (0 : ℚ) < nc1 + nc2 := by
      have hnat : 0 < nc1 + nc2 := by omega
      exact_mod_cast hnat
    rw [div_le_one hsum]
    exact_mod_cast h
  · exact zero_le_one

theorem categoryScore_nonneg (dis : Int) : 0 ≤ categoryScore dis := by
  rw [categoryScore, alpha]
  split
  · rename_i hpos
    have hdis : (0 : ℚ) < dis := by exact_mod_cast hpos
    positivity
  · exact le_rfl

theorem categoryScore_le_one (dis : Int) : categoryScore dis ≤ 1 := by
  rw [categoryScore, alpha]
  split
  · rename_i hpos
    have hdis : (0 : ℚ) < dis := by exact_mod_cast hpos
    rw [div_le_one (by positivity)]
    linarith
  · exact zero_le_one

theorem includeScore_mem (xs ys : List (Option (List UInt8))) :
    0 ≤ includeScore xs ys ∧ includeScore xs ys ≤ 1 := by
  rw [includeScore]
  split
  · exact ⟨zero_le_one, le_rfl⟩
  · exact ⟨le_rfl, zero_le_one⟩

theorem weighted_mem {p1 p2 p3 p4 : ℚ} (h1 : 0 ≤ p1 ∧ p1 ≤ 1) (h2 : 0 ≤ p2 ∧ p2 ≤ 1)
    (h3 : 0 ≤ p3 ∧ p3 ≤ 1) (h4 : 0 ≤ p4 ∧ p4 ≤ 1) :
    0 ≤ weighted p1 p2 p3 p4 ∧ weighted p1 p2 p3 p4 ≤ 1 := by
  obtain ⟨h1, h1'⟩ := h1
  obtain ⟨h2, h2'⟩ := h2
  obtain ⟨h3, h3'⟩ := h3
  obtain ⟨h4, h4'⟩ := h4
  rw [weighted]
  constructor
  · linarith
  · linarith

theorem fiveValue_mem (db : HownetDb) (n : Nat)
    (hcounted : OnceEach xs ys ∨ Includes xs ys ∧ Includes ys xs)
    (hsem : OnceEach ss ts) : 0 ≤ fiveValue db xs ys ss ts n ∧ fiveValue db xs ys ss ts n ≤ 1 :=
  weighted_mem (includeScore_mem xs ys) ⟨categoryScore_nonneg _, categoryScore_le_one _⟩
    ⟨ratio_nonneg _ _ _, ratio_le_one (nsOf_le hcounted)⟩
    ⟨ratio_nonneg _ _ _, ratio_le_one hsem.pairs_le⟩

theorem fiveValue_comm (db : HownetDb)
    (hcounted : OnceEach xs ys ∨ Includes xs ys ∧ Includes ys xs) (ss ts) :
    fiveValue db xs ys ss ts (commonLength xs ys) =
      fiveValue db ys xs ts ss (commonLength ys xs) := by
  rw [fiveValue, fiveValue, includeScore_comm hcounted, level_comm, nsOf_comm hcounted,
    pairs_comm ss,
    ratio_comm _ xs.length, ratio_comm _ ss.length]

/-- What the place left by step 5.1 makes of step 5. -/
theorem step5_eq (hx : none ∉ xs) (hy : none ∉ ys) :
    step5 db conceptW2 xs ys ss ts = some (fiveValue db xs ys ss ts
      (if (conceptW2 (includeLoop xs ys).2).isSome then commonLength xs ys
        else min xs.length ys.length)) := by
  have hdiff : diffLoop (conceptW2 (includeLoop xs ys).2).isSome 0 xs ys =
      some (if (conceptW2 (includeLoop xs ys).2).isSome then commonLength xs ys
        else min xs.length ys.length) := by
    cases (conceptW2 (includeLoop xs ys).2).isSome with
    | true => exact (diffLoop_held hx hy 0).trans (congrArg some (Nat.zero_add _))
    | false => exact (diffLoop_notHeld 0).trans (congrArg some (Nat.zero_add _))
  have hle : (if (conceptW2 (includeLoop xs ys).2).isSome then commonLength xs ys
      else min xs.length ys.length) ≤ xs.length := by
    split
    · exact commonLength_le xs ys
    · exact min_le_left _ _
  obtain ⟨dis, hdis⟩ := disAt_isSome db hx hle
  have hscore := categoryScore_level db hx hle
  rw [hdis, Option.map_some, Option.some_inj] at hscore
  rw [step5, hdiff, Option.bind_some, hdis, Option.map_some, fiveValue, hscore]

end Value

/-! ## A call -/

section Call

variable {db : HownetDb} {conceptW2 : Nat → Option (List UInt8)} {a b c d value : List UInt8}
  {xs ys ss ts : List (Option (List UInt8))} {r : ReadTokens} {k : Nat}

/-- With a concept the entry is what `strtok` gives. -/
theorem entryTokens_eq (h : entryTokens k value = some xs) (hx : none ∉ xs) :
    xs = (strtok 58 value).map some ∧ strtok 58 value ≠ [] := by
  rw [entryTokens] at h
  split at h
  · cases h
  · split at h
    · rw [← Option.some_inj.mp h] at hx
      exact absurd (List.mem_singleton_self _) hx
    · rename_i hne
      exact ⟨(Option.some_inj.mp h).symm, hne⟩

theorem strtok_length_lt (h : entryTokens k value = some xs) : (strtok 58 value).length < k := by
  rw [entryTokens] at h
  split at h
  · cases h
  · rename_i hlt
    exact not_le.mp hlt

/-- What `concept_w2` holds in step 5: the concepts, NULL, and what was there before. -/
theorem writeConcepts_isSome (h : entryTokens HOWNET_CONCEPT_MAX value = some ys) (hy : none ∉ ys)
    (i : Nat) : (writeConcepts conceptW2 value i).isSome = true ↔
      i < ys.length ∨ ys.length < i ∧ (conceptW2 i).isSome = true := by
  obtain ⟨hys, hne⟩ := entryTokens_eq h hy
  have hlen : ys.length = (strtok 58 value).length := by rw [hys, List.length_map]
  have hlt := strtok_length_lt h
  have hpos := List.length_pos_iff.mpr hne
  rw [writeConcepts, hlen]
  split
  · rename_i hi
    rw [← Option.ne_none_iff_isSome, Ne, List.getElem?_eq_none_iff]
    omega
  · rename_i hi
    have hout : (strtok 58 value).length < i := by omega
    constructor
    · intro hheld
      exact .inr ⟨hout, hheld⟩
    · rintro (hin | ⟨-, hheld⟩)
      · exact absurd hin hout.not_gt
      · exact hheld

/-- A pair of which something is missing or too long. -/
theorem similarityChinese_of_none (h : reads db a b = none) :
    (similarityChinese db conceptW2 a b).1 = some 0 := by
  rw [reads] at h
  rw [similarityChinese]
  cases hd1 : db.hownetDefDb a with
  | none => rfl
  | some defW1 =>
      cases hd2 : db.hownetDefDb b with
      | none => rfl
      | some defW2 =>
          cases ht1 : db.hownetTranDb a with
          | none => rfl
          | some transW1 =>
              cases ht2 : db.hownetTranDb b with
              | none => rfl
              | some transW2 =>
                  rw [hd1, hd2, ht1, ht2] at h
                  dsimp only [Option.bind_some] at h ⊢
                  cases hps : entryTokens HOWNET_TRAN_MAX transW1 with
                  | none => rfl
                  | some ps =>
                      cases hqs : entryTokens HOWNET_TRAN_MAX transW2 with
                      | none => rfl
                      | some qs =>
                          cases hxs : entryTokens HOWNET_CONCEPT_MAX defW1 with
                          | none => rfl
                          | some xs =>
                              cases hys : entryTokens HOWNET_CONCEPT_MAX defW2 with
                              | none => rfl
                              | some ys =>
                                  rw [hps, hqs, hxs, hys] at h
                                  cases h

theorem exists_of_reads (h : reads db a b = some r) :
    (∃ defW1, db.hownetDefDb a = some defW1 ∧ entryTokens HOWNET_CONCEPT_MAX defW1 = some r.xs) ∧
      (∃ defW2, db.hownetDefDb b = some defW2 ∧ entryTokens HOWNET_CONCEPT_MAX defW2 = some r.ys) ∧
      (∃ transW1, db.hownetTranDb a = some transW1 ∧
        entryTokens HOWNET_TRAN_MAX transW1 = some r.ps) ∧
      ∃ transW2, db.hownetTranDb b = some transW2 ∧
        entryTokens HOWNET_TRAN_MAX transW2 = some r.qs := by
  rw [reads, Option.bind_eq_some_iff] at h
  obtain ⟨defW1, hd1, h⟩ := h
  obtain ⟨defW2, hd2, h⟩ := Option.bind_eq_some_iff.mp h
  obtain ⟨transW1, ht1, h⟩ := Option.bind_eq_some_iff.mp h
  obtain ⟨transW2, ht2, h⟩ := Option.bind_eq_some_iff.mp h
  obtain ⟨ps, hps, h⟩ := Option.bind_eq_some_iff.mp h
  obtain ⟨qs, hqs, h⟩ := Option.bind_eq_some_iff.mp h
  obtain ⟨xs, hxs, h⟩ := Option.bind_eq_some_iff.mp h
  obtain ⟨ys, hys, rfl⟩ := Option.map_eq_some_iff.mp h
  exact ⟨⟨defW1, hd1, hxs⟩, ⟨defW2, hd2, hys⟩, ⟨transW1, ht1, hps⟩, transW2, ht2, hqs⟩

/-- A pair of which all is read. -/
theorem similarityChinese_of_reads (conceptW2 : Nat → Option (List UInt8))
    (h : reads db a b = some r) :
    ∃ defW2, entryTokens HOWNET_CONCEPT_MAX defW2 = some r.ys ∧
      (similarityChinese db conceptW2 a b).1 =
        steps db (writeConcepts conceptW2 defW2) a b r.ps r.qs r.xs r.ys := by
  obtain ⟨⟨defW1, hd1, hxs⟩, ⟨defW2, hd2, hys⟩, ⟨transW1, ht1, hps⟩, transW2, ht2, hqs⟩ :=
    exists_of_reads h
  refine ⟨defW2, hys, ?_⟩
  rw [similarityChinese, hd1, hd2, ht1, ht2]
  dsimp only
  rw [hps, hqs, hxs]
  dsimp only
  rw [hys]

/-- The value of a pair of which all is read. -/
def stepsValue (db : HownetDb) (a b : List UInt8) (r : ReadTokens)
    (ss ts : List (Option (List UInt8))) : ℚ :=
  if isSim r.ps r.qs then 1
  else if isSim r.xs r.ys then 95 / 100
  else if getHownetAntonym db a b ≠ 0 then 1
  else fiveValue db r.xs r.ys ss ts (commonLength r.xs r.ys)

/-- The similarity of two words, by their entries. -/
def wordValue (db : HownetDb) (a b : List UInt8) : ℚ :=
  ((reads db a b).bind fun r => (sememes db r.xs).bind fun ss => (sememes db r.ys).map fun ts =>
    stepsValue db a b r ss ts).getD 0

theorem getHownetSemDef_isSome (db : HownetDb) (h : entryTokens k value = some xs)
    (hx : none ∉ xs) :
    ∃ defSem, getHownetSemDef db (xs.getD 0 none) = some defSem := by
  obtain ⟨hxs, hne⟩ := entryTokens_eq h hx
  rw [getHownetSemDef]
  cases db.hownetSemDefDb with
  | none => exact ⟨none, rfl⟩
  | some semDefDb =>
      obtain ⟨token, rest, htokens⟩ := List.exists_cons_of_ne_nil hne
      rw [hxs, htokens]
      exact ⟨semDefDb token, rfl⟩

theorem PlaceHeld.of_step5 (h : entryTokens HOWNET_CONCEPT_MAX value = some ys) (hx : xs ≠ [])
    (hy : none ∉ ys) : (writeConcepts conceptW2 value (includeLoop xs ys).2).isSome = true ↔
      PlaceHeld conceptW2 xs ys := by
  obtain ⟨hys, hne⟩ := entryTokens_eq h hy
  have hys' : ys ≠ [] := by
    rw [hys]
    exact mt List.map_eq_nil_iff.mp hne
  rw [includeLoop_snd hx hys', writeConcepts_isSome h hy, PlaceHeld]

theorem categoryScore_inj {n m : Int} (hn : 0 ≤ n) (hm : 0 ≤ m)
    (h : categoryScore n = categoryScore m) : n = m := by
  have hpos : ∀ k : Int, 0 < k → 0 < categoryScore k := by
    intro k hk
    have hk' : (0 : ℚ) < k := by exact_mod_cast hk
    rw [categoryScore, if_pos hk, alpha]
    positivity
  have hzero : categoryScore 0 = 0 := if_neg (lt_irrefl 0)
  rcases hn.eq_or_lt with rfl | hn'
  · rcases hm.eq_or_lt with rfl | hm'
    · rfl
    · rw [hzero] at h
      exact absurd h (hpos m hm').ne
  · rcases hm.eq_or_lt with rfl | hm'
    · rw [hzero] at h
      exact absurd h (hpos n hn').ne'
    · rw [categoryScore, categoryScore, if_pos hn', if_pos hm', alpha] at h
      have hnq : (0 : ℚ) < n := by exact_mod_cast hn'
      have hmq : (0 : ℚ) < m := by exact_mod_cast hm'
      rw [div_eq_div_iff (by positivity) (by positivity)] at h
      have heq : (n : ℚ) = m := by linarith
      exact_mod_cast heq

/-- The condition on the place is exact: just then step 5 takes the last common concept, or one
of its category. -/
theorem step5_eq_iff (hvalue : entryTokens HOWNET_CONCEPT_MAX value = some ys) (hxs : xs ≠ [])
    (hx : none ∉ xs) (hy : none ∉ ys) :
    step5 db (writeConcepts conceptW2 value) xs ys ss ts =
        some (fiveValue db xs ys ss ts (commonLength xs ys)) ↔
      PlaceHeld conceptW2 xs ys ∨
        level db xs (min xs.length ys.length) = level db xs (commonLength xs ys) := by
  rw [step5_eq hx hy, Option.some_inj, ← PlaceHeld.of_step5 hvalue hxs hy]
  by_cases hheld : (writeConcepts conceptW2 value (includeLoop xs ys).2).isSome = true
  · rw [if_pos hheld]
    exact iff_of_true rfl (.inl hheld)
  · rw [if_neg hheld, or_iff_right hheld]
    constructor
    · intro heq
      rw [fiveValue, fiveValue, weighted, weighted] at heq
      exact categoryScore_inj (le_max_left _ _) (le_max_left _ _) (by linarith)
    · intro hlevel
      rw [fiveValue, fiveValue, hlevel]

theorem StepFive.step5_eq (h : StepFive db conceptW2 xs ys ss ts)
    (hvalue : entryTokens HOWNET_CONCEPT_MAX value = some ys) (hxs : xs ≠ []) (hx : none ∉ xs)
    (hy : none ∉ ys) : step5 db (writeConcepts conceptW2 value) xs ys ss ts =
      some (fiveValue db xs ys ss ts (commonLength xs ys)) :=
  (step5_eq_iff hvalue hxs hx hy).mpr h.place

/-- The two words' entries in the other order. -/
def ReadTokens.swap (r : ReadTokens) : ReadTokens := ⟨r.qs, r.ps, r.ys, r.xs⟩

theorem reads_swap (h : reads db a b = some r) : reads db b a = some r.swap := by
  obtain ⟨⟨defW1, hd1, hxs⟩, ⟨defW2, hd2, hys⟩, ⟨transW1, ht1, hps⟩, transW2, ht2, hqs⟩ :=
    exists_of_reads h
  rw [reads, hd1, hd2, ht1, ht2]
  dsimp only [Option.bind_some]
  rw [hps, hqs, hxs, hys]
  rfl

theorem reads_swap_none (h : reads db a b = none) : reads db b a = none := by
  cases hba : reads db b a with
  | none => rfl
  | some r =>
      rw [reads_swap hba] at h
      cases h

/-- A call that meets the condition has the value of the words. -/
theorem Meets.call (h : Meets db conceptW2 a b) :
    (similarityChinese db conceptW2 a b).1 = some (wordValue db a b) := by
  cases hr : reads db a b with
  | none =>
      rw [similarityChinese_of_none hr, wordValue, hr]
      rfl
  | some r =>
      obtain ⟨defW2, hdef, hcall⟩ := similarityChinese_of_reads conceptW2 hr
      obtain ⟨⟨defW1, -, hxs⟩, -⟩ := exists_of_reads hr
      obtain ⟨hx, hy⟩ := h.concepts r hr
      obtain ⟨defSemW1, hsem1⟩ := getHownetSemDef_isSome db hxs hx
      obtain ⟨defSemW2, hsem2⟩ := getHownetSemDef_isSome db hdef hy
      rw [hcall, wordValue, hr, Option.bind_some, steps, sememes, sememes, hsem1, hsem2,
        Option.bind_some, Option.bind_some, Option.bind_some, Option.bind_some]
      cases hss : semTokens defSemW1 with
      | none => rfl
      | some ss =>
          cases hts : semTokens defSemW2 with
          | none => rfl
          | some ts =>
              dsimp only [Option.bind_some, Option.map_some, Option.getD_some]
              rw [stepsValue]
              split
              · rfl
              · rename_i hsim1
                split
                · rfl
                · rename_i hsim2
                  split
                  · rfl
                  · rename_i hant
                    have hfive := h.five r ss ts hr (Bool.not_eq_true _ ▸ hsim1)
                      (Bool.not_eq_true _ ▸ hsim2) (not_not.mp hant)
                      (by rw [sememes, hsem1, Option.bind_some, hss])
                      (by rw [sememes, hsem2, Option.bind_some, hts])
                    have hne : r.xs ≠ [] := by
                      obtain ⟨hmap, htok⟩ := entryTokens_eq hxs hx
                      rw [hmap]
                      exact mt List.map_eq_nil_iff.mp htok
                    exact hfive.step5_eq hdef hne hx hy

theorem stepsValue_spec (hant : isSim r.ps r.qs = false → isSim r.xs r.ys = false →
      (getHownetAntonym db a b = 0 ↔ getHownetAntonym db b a = 0))
    (hfive : isSim r.ps r.qs = false → isSim r.xs r.ys = false → getHownetAntonym db a b = 0 →
      StepFive db conceptW2 r.xs r.ys ss ts) :
    0 ≤ stepsValue db a b r ss ts ∧ stepsValue db a b r ss ts ≤ 1 ∧
      stepsValue db a b r ss ts = stepsValue db b a r.swap ts ss := by
  rw [stepsValue, stepsValue, ReadTokens.swap, isSim_comm r.qs, isSim_comm r.ys]
  cases hsim1 : isSim r.ps r.qs with
  | true => exact ⟨zero_le_one, le_rfl, rfl⟩
  | false =>
      rw [if_neg Bool.false_ne_true, if_neg Bool.false_ne_true]
      cases hsim2 : isSim r.xs r.ys with
      | true =>
          rw [if_pos rfl, if_pos rfl]
          exact ⟨by norm_num, by norm_num, rfl⟩
      | false =>
          rw [if_neg Bool.false_ne_true, if_neg Bool.false_ne_true]
          by_cases hzero : getHownetAntonym db a b = 0
          · have h := hfive hsim1 hsim2 hzero
            obtain ⟨hlow, hhigh⟩ := fiveValue_mem db (commonLength r.xs r.ys) h.counted
              h.sememes
            rw [if_neg (not_not.mpr hzero), if_neg (not_not.mpr ((hant hsim1 hsim2).mp hzero))]
            exact ⟨hlow, hhigh, fiveValue_comm db h.counted ss ts⟩
          · rw [if_pos hzero, if_pos (mt (hant hsim1 hsim2).mpr hzero)]
            exact ⟨zero_le_one, le_rfl, rfl⟩

/-- The value of the words is between 0 and 1, and the same in either order. -/
theorem Meets.bounded (h : Meets db conceptW2 a b) :
    0 ≤ wordValue db a b ∧ wordValue db a b ≤ 1 ∧ wordValue db a b = wordValue db b a := by
  cases hr : reads db a b with
  | none =>
      rw [wordValue, wordValue, hr, reads_swap_none hr]
      exact ⟨le_rfl, zero_le_one, rfl⟩
  | some r =>
      rw [wordValue, wordValue, hr, reads_swap hr, Option.bind_some, Option.bind_some]
      cases hss : sememes db r.xs with
      | none =>
          rw [Option.bind_none, ReadTokens.swap, hss]
          cases sememes db r.ys with
          | none => exact ⟨le_rfl, zero_le_one, rfl⟩
          | some ts => exact ⟨le_rfl, zero_le_one, rfl⟩
      | some ss =>
          cases hts : sememes db r.ys with
          | none =>
              rw [ReadTokens.swap, hts]
              exact ⟨le_rfl, zero_le_one, rfl⟩
          | some ts =>
              rw [ReadTokens.swap, hss, hts, Option.bind_some, Option.bind_some, Option.map_some,
                Option.map_some, Option.getD_some, Option.getD_some]
              refine @stepsValue_spec db conceptW2 a b ss ts r (h.antonyms r hr) ?_
              intro hsim1 hsim2 hzero
              exact h.five r ss ts hr hsim1 hsim2 hzero hss hts

theorem SameEntries.wordValue_eq (h : SameEntries db a b c d) :
    wordValue db a b = wordValue db c d := by
  have hreads : reads db a b = reads db c d := by
    rw [reads, reads, h.def1, h.def2, h.tran1, h.tran2]
  have hant : getHownetAntonym db a b = getHownetAntonym db c d := by
    rw [getHownetAntonym, getHownetAntonym, h.antonym, h.antonymBack]
  rw [wordValue, wordValue, hreads]
  simp only [stepsValue, hant]

/-- Two calls that meet the condition, each after other calls. -/
theorem callsAgree {earlier earlier' : List (List UInt8 × List UInt8)}
    (hab : Meets db (conceptsAfter db earlier) a b)
    (hcd : Meets db (conceptsAfter db earlier') c d) : CallsAgree db earlier earlier' a b c d := by
  intro hsame
  obtain ⟨hlow, hhigh, -⟩ := hab.bounded
  obtain ⟨-, -, hswap'⟩ := hcd.bounded
  have heq : wordValue db a b = wordValue db c d := by
    rcases hsame with hsame | hsame
    · exact hsame.wordValue_eq
    · rw [hsame.wordValue_eq, hswap']
  exact ⟨wordValue db a b, hab.call, heq ▸ hcd.call, hlow, hhigh⟩

end Call

/-- Words with the concepts `x:p:q`, `x:y`, `x:y:q` and `r:s:t:u`; `p` and `y` have a category. -/
def smallHownet : HownetDb where
  hownetDefDb word := [([65], [120, 58, 112, 58, 113]), ([66], [120, 58, 121]),
    ([67], [120, 58, 121, 58, 113]), ([68], [114, 58, 115, 58, 116, 58, 117])].lookup word
  hownetTranDb word := some word
  hownetAntonymDb _ := none
  hownetCategoryDb := some fun concept => if concept = [112] ∨ concept = [121] then some 3 else none
  hownetSemDefDb := none

/-- The words with the same last concept, in both orders. -/
theorem callsAgree_sameEnd : ∃ v : ℚ,
    (similarityChinese smallHownet (conceptsAfter smallHownet []) [65] [67]).1 = some v ∧
      (similarityChinese smallHownet (conceptsAfter smallHownet [([66], [68])]) [67] [65]).1 =
        some v ∧ 0 ≤ v ∧ v ≤ 1 := by
  have hreads : reads smallHownet [65] [67] = some ⟨[some [65]], [some [67]],
      [some [120], some [112], some [113]], [some [120], some [121], some [113]]⟩ := by
    decide +kernel
  have hfive : ∀ conceptW2 xs ys ss ts, sememes smallHownet xs = some ss →
      sememes smallHownet ys = some ts → OnceEach xs ys → lastPlace xs ys < ys.length →
        StepFive smallHownet conceptW2 xs ys ss ts := by
    intro conceptW2 xs ys ss ts hss hts honce hplace
    cases hss
    cases hts
    exact ⟨.inl honce, ⟨by decide, by decide⟩, .inl (.inl hplace)⟩
  refine callsAgree ⟨?_, ?_, ?_⟩ ⟨?_, ?_, ?_⟩ (.inr ⟨rfl, rfl, rfl, rfl, rfl, rfl⟩)
  · intro r hr
    cases hreads.symm.trans hr
    decide
  · intro r _ _ _
    exact iff_of_true rfl rfl
  · intro r ss ts hr _ _ _ hss hts
    cases hreads.symm.trans hr
    exact hfive _ _ _ _ _ hss hts ⟨by decide, by decide⟩ (by decide)
  · intro r hr
    cases (reads_swap hreads).symm.trans hr
    decide
  · intro r _ _ _
    exact iff_of_true rfl rfl
  · intro r ss ts hr _ _ _ hss hts
    cases (reads_swap hreads).symm.trans hr
    exact hfive _ _ _ _ _ hss hts ⟨by decide, by decide⟩ (by decide)

/-- The same call, after another one. -/
theorem leftover_read : ¬CallsAgree smallHownet [] [([66], [68])] [65] [66] [65] [66] := by
  intro h
  obtain ⟨v, hfirst, hsecond, -⟩ := h (.inl ⟨rfl, rfl, rfl, rfl, rfl, rfl⟩)
  have hne : (similarityChinese smallHownet (conceptsAfter smallHownet []) [65] [66]).1 ≠
      (similarityChinese smallHownet (conceptsAfter smallHownet [([66], [68])]) [65] [66]).1 := by
    decide +kernel
  exact hne (hfirst.trans hsecond.symm)

end Hownet

end Knp
