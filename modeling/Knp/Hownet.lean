import Mathlib.Data.Rat.Defs
import Knp.CommonAffix
import Knp.PairCount
import Knp.Tokens

/-!
# The similarity of Chinese words (`similarity.c`)

`similarity_chinese` gets the translations and the concepts of two words and compares them
in four ways: whether the concepts of one word are all among those of the other, how far
the concepts agree from the front, and how many of them, and of those of their first
sememes, are the same.

> A pair is counted once, and the test of step 5.2 reads what the word has, if no concept
> is there twice and the place that the loop before has left holds a concept.

Step 5.2 tests `concept_w2[j]`, where it compares `concept_w2[i]`. Behind the concepts of
the word this is what an earlier call has left there.
-/

namespace Knp

open CommonAffix PairCount Tokens

namespace Hownet

def HOWNET_TRAN_MAX : Nat := 100

def HOWNET_CONCEPT_MAX : Nat := 50

/-- The databases; `none` for the two that are asked with a pointer if they are not there. -/
structure HownetDb where
  hownetDefDb : List UInt8 → Option (List UInt8)
  hownetTranDb : List UInt8 → Option (List UInt8)
  hownetAntonymDb : List UInt8 → Option Int
  hownetCategoryDb : Option (List UInt8 → Option Int)
  hownetSemDefDb : Option (List UInt8 → Option (List UInt8))

variable (db : HownetDb)

/-- `get_hownet_antonym` -/
def getHownetAntonym (str1 str2 : List UInt8) : Int :=
  match db.hownetAntonymDb (str1 ++ 58 :: str2) with
  | some value1 => value1
  | none => (db.hownetAntonymDb (str2 ++ 58 :: str1)).getD 0

/-- `get_hownet_sem_def`; `none` if it reads NULL. -/
def getHownetSemDef (key : Option (List UInt8)) : Option (Option (List UInt8)) :=
  match db.hownetSemDefDb with
  | none => some none
  | some semDefDb => key.map semDefDb

/-- `get_hownet_category`; `none` if it reads NULL. -/
def getHownetCategory (key : Option (List UInt8)) : Option Int :=
  match db.hownetCategoryDb with
  | none => some 0
  | some categoryDb => key.map fun key => (categoryDb key).getD 0

/-- The loop over `strtok(.., ":")`, whose first token may be NULL; `none` for too many. -/
def entryTokens (max : Nat) (value : List UInt8) : Option (List (Option (List UInt8))) :=
  if max ≤ (strtok 58 value).length then none
  else if strtok 58 value = [] then some [none]
  else some ((strtok 58 value).map some)

/-- The same of an entry that may be missing. -/
def semTokens : Option (List UInt8) → Option (List (Option (List UInt8)))
  | none => some []
  | some value => entryTokens HOWNET_CONCEPT_MAX value

/-- What `concept_w2` holds when the loop over the concepts ends. -/
def writeConcepts (conceptW2 : Nat → Option (List UInt8)) (value : List UInt8) :
    Nat → Option (List UInt8) := fun i =>
  if i < HOWNET_CONCEPT_MAX ∧ i ≤ max 1 (strtok 58 value).length then (strtok 58 value)[i]?
  else conceptW2 i

/-- Two tokens that are not NULL, and the same. -/
def sameToken : Option (List UInt8) → Option (List UInt8) → Bool
  | some a, some b => a = b
  | _, _ => false

/-- Steps 1 and 2. -/
def isSim (xs ys : List (Option (List UInt8))) : Bool :=
  decide (0 < xs.length ∧ 0 < ys.length) && xs.all fun a => ys.all fun b => sameToken a b

/-- Step 5.1 for one `i`: `is_include` and `j`. -/
def includeStep (longer : List (Option (List UInt8))) (st : Nat × Nat)
    (a : Option (List UInt8)) : Nat × Nat :=
  (if longer.findIdx (sameToken a) < longer.length then st.1 + 1 else st.1,
    longer.findIdx (sameToken a))

def includeLoop (xs ys : List (Option (List UInt8))) : Nat × Nat :=
  if xs.length < ys.length then xs.foldl (includeStep ys) (0, 0)
  else ys.foldl (includeStep xs) (0, 0)

/-- Step 5.2: `diff`, where `left` says that `concept_w2[j]` is not NULL; `none` if `strcmp`
reads NULL. -/
def diffLoop (left : Bool) :
    Nat → List (Option (List UInt8)) → List (Option (List UInt8)) → Option Nat
  | i, a :: xs, b :: ys =>
      if a ≠ none ∧ left = true then
        match b with
        | none => none
        | some _ => if a = b then diffLoop left (i + 1) xs ys else some i
      else diffLoop left (i + 1) xs ys
  | i, _, _ => some i

def alpha : ℚ := 16 / 10

/-- `p2` of a category. -/
def categoryScore (dis : Int) : ℚ := if 0 < dis then alpha / (dis + alpha) else 0

/-- The category of the concept before `diff`. -/
def disAt (xs : List (Option (List UInt8))) (diff : Nat) : Option Int :=
  if 0 < diff then getHownetCategory db (xs.getD (diff - 1) none) else some 0

/-- `2.0*ns/(nc1+nc2)` -/
def ratio (ns nc1 nc2 : Nat) : ℚ := if nc1 ≠ 0 ∨ nc2 ≠ 0 then 2 * ns / (nc1 + nc2) else 0

/-- `ns` of step 5.3 -/
def nsOf (xs ys : List (Option (List UInt8))) : Nat :=
  if (includeLoop xs ys).1 = min xs.length ys.length then (includeLoop xs ys).1
  else pairs sameToken xs ys

/-- `p1` -/
def includeScore (xs ys : List (Option (List UInt8))) : ℚ :=
  if (includeLoop xs ys).1 = min xs.length ys.length then 1 else 0

/-- Step 5.5 -/
def weighted (p1 p2 p3 p4 : ℚ) : ℚ := p1 * (1 / 10) + p2 * (1 / 10) + p3 * (7 / 10) + p4 * (1 / 10)

/-- Step 5, with the concepts and those of the first sememes. -/
def step5 (conceptW2 : Nat → Option (List UInt8)) (xs ys ss ts : List (Option (List UInt8))) :
    Option ℚ :=
  (diffLoop (conceptW2 (includeLoop xs ys).2).isSome 0 xs ys).bind fun diff =>
    (disAt db xs diff).map fun dis =>
      weighted (includeScore xs ys) (categoryScore dis)
        (ratio (nsOf xs ys) xs.length ys.length)
        (ratio (pairs sameToken ss ts) ss.length ts.length)

/-- The steps, after the concepts of both words are there. -/
def steps (conceptW2 : Nat → Option (List UInt8)) (str1 str2 : List UInt8)
    (ps qs xs ys : List (Option (List UInt8))) : Option ℚ :=
  (getHownetSemDef db (xs.getD 0 none)).bind fun defSemW1 =>
    (getHownetSemDef db (ys.getD 0 none)).bind fun defSemW2 =>
      match semTokens defSemW1, semTokens defSemW2 with
      | some ss, some ts =>
          if isSim ps qs then some 1
          else if isSim xs ys then some (95 / 100)
          else if getHownetAntonym db str1 str2 ≠ 0 then some 1
          else step5 db conceptW2 xs ys ss ts
      -- Too many concept definitions for one sememe
      | _, _ => some 0

/-- `similarity_chinese`, and what it leaves in `concept_w2`. -/
def similarityChinese (conceptW2 : Nat → Option (List UInt8)) (str1 str2 : List UInt8) :
    Option ℚ × (Nat → Option (List UInt8)) :=
  match db.hownetDefDb str1, db.hownetDefDb str2, db.hownetTranDb str1, db.hownetTranDb str2 with
  | some defW1, some defW2, some transW1, some transW2 =>
      match entryTokens HOWNET_TRAN_MAX transW1, entryTokens HOWNET_TRAN_MAX transW2,
          entryTokens HOWNET_CONCEPT_MAX defW1 with
      | some ps, some qs, some xs =>
          match entryTokens HOWNET_CONCEPT_MAX defW2 with
          | some ys =>
              (steps db (writeConcepts conceptW2 defW2) str1 str2 ps qs xs ys,
                writeConcepts conceptW2 defW2)
          | none => (some 0, writeConcepts conceptW2 defW2)
      | _, _, _ => (some 0, conceptW2)
  | _, _, _, _ => (some 0, conceptW2)

/-- `concept_w2` after a number of calls. -/
def conceptsAfter (calls : List (List UInt8 × List UInt8)) : Nat → Option (List UInt8) :=
  calls.foldl (fun conceptW2 call => (similarityChinese db conceptW2 call.1 call.2).2) fun _ => none

end Hownet

end Knp
