import Mathlib
import Knp.Cky

/-!
# The chart for Chinese (`cky.c`)

For Chinese the links between two words are entries of `Chi_dpnd_matrix`, each
with a direction: `R`, `L`, or `B` for both. `cky` puts two phrases together by
every entry of their heads that the grammar allows
(`check_chi_dpnd_possibility`). Over the whole sentence the head must also have
a root probability.

> An entry `B` gives the phrases of both directions, `R` first, each of them if
> the grammar and the root probability allow it. An entry of one direction is meant
> to give its phrase in the same way, but the code throws the answer of the grammar
> away (it stands before a comma) and looks at the number of the entry instead.
-/

namespace Knp

/-- The parts of speech that the grammar asks for. -/
inductive ChiPos
  | AD | CC | CD | DEC | DEG | DEV | JJ | LC | M | NN | NR | NT | P | PN | PU | SB | SP
  | VA | VC | VE | VV
  | other
deriving DecidableEq

/-- A phrase and the entry of `Chi_dpnd_matrix` it comes from (`index`). -/
structure ChiPhrase where
  phrase : Cky
  index : Nat
deriving DecidableEq

/-- What the parser reads for Chinese. -/
structure ChiEnv extends CkyEnv where
  optChiPos : Bool
  /-- `Chi_dpnd_matrix` -/
  count : Nat → Nat → Nat
  direction : Nat → Nat → Nat → Char
  leftPosIndex : Nat → Nat → Nat → Nat
  rightPosIndex : Nat → Nat → Nat → Nat
  /-- `Chi_root_prob_matrix[..].prob[0]` -/
  rootProb : Nat → Rat
  /-- `Chi_word_pos` -/
  wordPos : Nat → ChiPos
  /-- `head_ptr->Pos`, `head_ptr->Goi` -/
  pos : Nat → ChiPos
  goi : Nat → String
  /-- `check_feature` for the name of a part of speech -/
  feature : Nat → ChiPos → Bool
  /-- `Chi_np_start_matrix` and the others; `none` for -1 -/
  npStart : Nat → Nat → Option Nat
  npEnd : Nat → Nat → Option Nat
  quoteStart : Nat → Nat → Option Nat
  quoteEnd : Nat → Nat → Option Nat
  /-- `CKY_TABLE_MAX`, or `CKY_TABLE_MAX_FOR_CASE` -/
  tableMax : Nat

def DOUBLE_MIN : Rat := 1 / 10 ^ 16

/-! ## The grammar -/

section Grammar

variable (env : ChiEnv)

open ChiPos

/-- `has_child_chi` to the left (`direction` 0). -/
def hasLeftChild (pos : ChiPos) : Cky → Bool
  | .leaf _ => false
  | .node _ _ left right _ .LtoR _ => env.feature left.bPtr pos || hasLeftChild pos right
  | .node _ _ left _ _ .RtoL _ => hasLeftChild pos left

/-- `has_child_chi` to the right (`direction` 1). -/
def hasRightChild (pos : ChiPos) : Cky → Bool
  | .leaf _ => false
  | .node _ _ left right _ .RtoL _ => env.feature right.bPtr pos || hasRightChild pos left
  | .node _ _ _ right _ .LtoR _ => hasRightChild pos right

/-- A comma, colon or semicolon. -/
def isComma (k : Nat) : Bool :=
  env.feature k PU && [",", "：", ":", "；", "，"].contains (env.goi k)

/-- `exist_chi(.., i, j - 1, "noun") != -1` -/
def existNoun (i j : Nat) : Bool :=
  ((List.range' i (j - i)).takeWhile fun k => !isComma env k).any fun k =>
    env.feature k NN || env.feature k NT || env.feature k NR

/-- `exist_chi(.., i, j - 1, "prep") != -1` -/
def existPrep (i j : Nat) : Bool := (List.range' i (j - i)).any fun k => env.feature k P

def isVerb (pos : ChiPos) : Bool := [VV, VA, VC, VE].contains pos

def isVerbFeature (k : Nat) : Bool := [VV, VC, VE, VA].any (env.feature k)

/-- The right phrase of `left`, if there is one. -/
def rightPart : Cky → Option Cky
  | .leaf _ => none
  | .node _ _ _ right .. => some right

variable (leftPos rightPos : ChiPos) (left right : Cky) (direction : Char)

/-- The rules up to the ones about DEC, any of which forbids the link. -/
def wordRules : Bool :=
  -- LC cannot depend on noun
  (leftPos = LC && [NN, NR, PN, NT].contains rightPos && direction = 'R') ||
  -- sp and main verb
  (rightPos = SP && !isVerb leftPos && direction = 'L') ||
  -- verb cannot depend on SP
  (rightPos = SP && isVerb leftPos && direction = 'R') ||
  (leftPos = SP && isVerb rightPos && direction = 'L') ||
  -- adj and verb cannot have dependency relation
  (leftPos = JJ && isVerb rightPos) || (rightPos = JJ && isVerb leftPos) ||
  -- only the quote PU can be head
  (direction = 'R' && rightPos = PU && env.quoteEnd right.bPtr right.bPtr != some right.bPtr) ||
  (direction = 'L' && leftPos = PU && env.quoteStart left.bPtr left.bPtr != some left.bPtr) ||
  -- AD cannot be head except for AD
  (leftPos = AD && rightPos != AD && direction = 'L') ||
  (rightPos = AD && leftPos != AD && direction = 'R') ||
  -- DEC cannot depend on VV before
  (leftPos = VV && direction = 'L' && rightPos = DEC)

/-- The rules about particles. -/
def particleRules : Bool :=
  -- for DEG , DEV, DEC and LC, there should not be two modifiers
  ([DEG, DEV, LC].contains rightPos && decide (right.i < right.bPtr) && direction = 'R') ||
  -- DEC cannot have two verb modifiers
  (rightPos = DEC && direction = 'R' && [VV, VA].contains leftPos &&
    (hasLeftChild env VV right || hasLeftChild env VA right)) ||
  -- for DEC, if there exists noun between it and previous verb, the noun should depend on verb
  (rightPos = DEC && [VV, VA].contains leftPos && existNoun env right.i right.bPtr &&
    direction = 'R') ||
  -- for DEG, its right head should be noun afterwords
  (leftPos = DEG && !([NN, NT, NR, PN, M].contains rightPos) && direction = 'R') ||
  -- for DEG and DEC, it must have some word before modifying it
  ([DEG, DEC].contains leftPos && left.i = left.bPtr && direction = 'R') ||
  ([DEG, DEC].contains rightPos && right.i = right.bPtr && direction = 'L') ||
  -- for DEC, it must have some verb before modifying it
  (!isVerb leftPos && rightPos = DEC && right.i = right.bPtr && direction = 'R') ||
  -- LC must have modifier before
  (leftPos = LC && left.i = left.bPtr)

/-- The rules about verbs. -/
def verbRules : Bool :=
  -- VC and VE must have modifier behind
  ([VC, VE].contains leftPos && direction = 'R' && left.j = left.bPtr) ||
  -- for verb, there should be only one object afterword
  ([VV, VC, VE, P, VA].contains leftPos && [NN, NR, PN, M, DEG].contains rightPos &&
    direction = 'L' && left.j != left.i &&
    [NN, NR, M, DEG, PN].any fun pos => hasRightChild env pos left) ||
  -- if a verb has object, then between the verb and its object, there should not be
  -- another verb depend on the first verb
  (isVerb leftPos && [NN, PN, NR].contains rightPos &&
    [VV, VA, VC, VE].any fun pos => hasRightChild env pos left) ||
  -- for verb, there should be only one subject in front of it
  (isVerb rightPos && [NN, PN, NR].contains leftPos && direction = 'R' && right.j != right.i &&
    [NN, NR, PN].any fun pos => hasLeftChild env pos right)

/-- The rules about prepositions. -/
def prepositionRules : Bool :=
  -- for preposition, it must have non-pu modifier
  (leftPos = P && direction = 'R' && left.j = left.i) ||
  (rightPos = P && direction = 'L' && right.j = right.i) ||
  -- for preposition, it cannot depend on a preposition
  (rightPos = P && leftPos = P) ||
  -- for preposition, it cannot depend on a noun before
  (rightPos = P && [NN, NR, PN].contains leftPos) ||
  -- for preposition, it cannot depend on a CD or AD
  (leftPos = P && rightPos = CD && direction = 'R') ||
  -- a noun cannot depend on its following preposition
  (rightPos = P && [NN, NR, PN].contains leftPos && direction = 'R') ||
  -- for preposition, if it depend on verb, it should have modifier
  (leftPos = P && isVerb rightPos && direction = 'R' && left.j = left.bPtr) ||
  (rightPos = P && isVerb leftPos && direction = 'L' && right.j = right.bPtr) ||
  -- for preposition, it cannot have two modifiers after it
  (leftPos = P && ((rightPart left).any fun c => !env.feature c.bPtr PU) && direction = 'L') ||
  -- for preposition, if it depend on verb before, the verb should have object
  (rightPos = P && [VC, VE, VV].contains leftPos && direction = 'L' &&
    right.j + 1 = env.bnstNum) ||
  -- for preposition, if there is LC in the following (no preposibion between them),
  -- the words between P and LC should depend on LC
  (leftPos = P && rightPos = LC && decide (left.i < left.j) &&
    !existPrep env (left.bPtr + 1) right.bPtr) ||
  -- if preposition is head of the verb, all the noun should depend on verb
  (leftPos = P && isVerb rightPos && direction = 'L' && left.j != left.i &&
    [NN, NR, PN].any fun pos => hasRightChild env pos left)

/-- The rules that ask for the words around, without `OptChiPos`. -/
def contextRules (i j k : Nat) : Bool :=
  let l := left.bPtr
  let r := right.bPtr
  -- the word before dunhao cannot have left dependency
  (direction = 'L' && env.feature (r + 1) PU && !isVerbFeature env (r + 2) &&
    env.goi (r + 1) = "、") ||
  -- if a SB is followed by VV, then this SB cannot have modifier
  (env.feature l SB && env.feature (l + 1) VV && left.i != l) ||
  (env.feature r SB && env.feature (r + 1) VV && (right.i != r || direction = 'R')) ||
  -- the noun before dunhao should depend on noun after it
  (direction = 'R' && [NN, NR, PN, JJ, NT, M, DEG].any (env.feature l) &&
    !([NN, NT, JJ, NR, PN, DEG, M].any (env.feature r)) && env.feature (l + 1) PU &&
    !isVerbFeature env (l + 2) && env.goi (l + 1) = "、") ||
  -- for preposition, if it has a VV modifier after it, this VV should have object or subject
  (env.feature l P && env.feature r VV && direction = 'L' && !env.feature (r + 1) CC &&
    !([NN, NR, PN].any fun pos => hasLeftChild env pos right) &&
    !([NN, NR, PN].any fun pos => hasRightChild env pos right)) ||
  -- VC and VE must have modifier before
  (env.feature left.j VC && left.j != l) || (env.feature right.i VC && right.i != r) ||
  -- the constraint of NP and quote
  ((env.npEnd i (i + k)).any fun e => e < j) ||
  ((env.npStart (i + k + 1) j).any fun s => i < s) ||
  ((env.quoteEnd i (i + k)).any fun e => e < j) ||
  ((env.quoteStart (i + k + 1) j).any fun s => i < s)

end Grammar

/-- `check_chi_dpnd_possibility` -/
def checkChiDpndPossibility (env : ChiEnv) (i j k : Nat) (left right : Cky) (direction : Char)
    (index : Nat) : Bool :=
  let l := left.bPtr
  let r := right.bPtr
  let leftPos := if env.optChiPos then env.wordPos (env.leftPosIndex l r index) else env.pos l
  let rightPos := if env.optChiPos then env.wordPos (env.rightPosIndex l r index) else env.pos r
  !((env.dpndMatrix l r).any fun c => c != 'O' && direction != c) &&
    !wordRules env leftPos rightPos left right direction &&
    !particleRules env leftPos rightPos left right direction &&
    !verbRules env leftPos rightPos left right direction &&
    !prepositionRules env leftPos rightPos left right direction &&
    (env.optChiPos || !contextRules env left right direction i j k)

/-! ## The phrases of two cells -/

structure ChiChart where
  matrix : Nat → Nat → List ChiPhrase
  depCheck : Nat → Int

/-- How much of `cky_table` is used, and the phrases made for a cell. -/
structure ChiCell where
  tableNum : Nat
  found : List ChiPhrase

section Parser

variable (env : ChiEnv) (i j k : Nat) (left right : Cky)

/-- `check_dpnd_possibility` -/
def chiDpndPossibility (dep gov start : Nat) : Option Char :=
  if (!env.optParaFix && (env.paraNum dep).any fun p => env.paraMatrix p start gov) ||
      (env.optParaFix && env.maskMatrix dep gov = 2) then some 'P'
  else if env.optParaFix && env.maskMatrix dep gov = 3 then some 'I'
  else if (env.dpndMatrix dep gov).isSome && env.quoteMatrix dep gov &&
      env.maskMatrix dep gov != 0 then env.dpndMatrix dep gov
  else none

/-- The condition for a phrase of `left` and `right`. -/
def pairAllowed (depCheck : Nat → Int) : Bool :=
  let wall := depCheck (i + k)
  (chiDpndPossibility env left.bPtr right.bPtr i).any fun dpndType =>
    (dpndType = 'P' && (env.optParaFix || right.dpndType != some 'P')) ||
      (dpndType != 'P' && (wall ≤ 0 || (j : Int) ≤ wall ||
        (!env.optParaFix && relaxBarrierForP (i + k) depCheck right)))

/-- Over the whole sentence, `head` has no root probability. -/
def rootRefuses (head : Nat) : Bool :=
  i = 0 && j + 1 = env.bnstNum && decide (env.rootProb head ≤ DOUBLE_MIN)

/-- `new_cky_data`, with the phrase that is set then. -/
def addPhrase (p : ChiPhrase) (s : ChiCell) : Option ChiCell :=
  if env.tableMax ≤ s.tableNum + 1 then none else some ⟨s.tableNum + 1, s.found ++ [p]⟩

/-- `set_cky` -/
def chiPhrase (dpndType : Char) (direction : Direction) (index : Nat) : ChiPhrase :=
  ⟨.node i j left right dpndType direction false, index⟩

/-- The phrase of an entry with one direction; with `OptParaFix` two conjuncts decide it. -/
def entryPhrase (index : Nat) : ChiPhrase :=
  let direction := env.direction left.bPtr right.bPtr index
  let mask := (env.maskMatrix i (i + k), env.maskMatrix (i + k + 1) j)
  if env.optParaFix && mask = ('N'.toNat, 'N'.toNat) then
    chiPhrase i j left right 'R' .LtoR index
  else if env.optParaFix && mask = ('V'.toNat, 'V'.toNat) then
    chiPhrase i j left right 'L' .RtoL index
  else chiPhrase i j left right direction (if direction = 'L' then .RtoL else .LtoR) index

/-- One turn of the loop over the entries. -/
def addEntry (s : ChiCell) (index : Nat) : Option ChiCell :=
  let direction := env.direction left.bPtr right.bPtr index
  let check (d : Char) := checkChiDpndPossibility env i j k left right d index
  if direction = 'B' then
    -- check R first; without a root probability the loop continues, before L
    if check 'R' && rootRefuses env i j right.bPtr then some s
    else
      (if check 'R' then addPhrase env (chiPhrase i j left right 'R' .LtoR index) s
        else some s).bind fun s =>
      -- then check L
      if check 'L' && !rootRefuses env i j left.bPtr then
        addPhrase env (chiPhrase i j left right 'L' .RtoL index) s
      else some s
  else
    -- the answer of the check stands before a comma, so the number decides
    if index ≠ 0 then some s
    else if rootRefuses env i j (if direction = 'R' then right.bPtr else left.bPtr) then some s
    else addPhrase env (entryPhrase env i j k left right index) s

/-- make a phrase if condition is satisfied -/
def addPair (depCheck : Nat → Int) (s : ChiCell) : Option ChiCell :=
  if pairAllowed env i j k left right depCheck then
    (List.range (env.count left.bPtr right.bPtr)).foldlM (addEntry env i j k left right) s
  else some s

/-- barrier handling -/
def setChiBarrier (dep : Nat) (chart : ChiChart) : ChiChart :=
  let fixed := env.optParaFix || (env.dpndMatrix dep j).isSome
  if j + 1 = env.bnstNum then chart
  else if fixed && env.barrierFp dep && env.barrierMatch dep j then
    { chart with depCheck := Function.update chart.depCheck dep j }
  else if chart.depCheck dep = -1 then
    { chart with depCheck := Function.update chart.depCheck dep 0 }
  else chart

/-- merge (i .. i+k) and (i+k+1 .. j) -/
def mergeAt (chart : ChiChart) (tableNum : Nat) : Option ChiCell :=
  (chart.matrix i (i + k)).foldlM (fun s left =>
    (chart.matrix (i + k + 1) j).foldlM (fun s right =>
      addPair env i j k left.phrase right.phrase chart.depCheck s) s) ⟨tableNum, []⟩

/-- The phrases of two parts, for each way to cut (i .. j). -/
def mergeChiCells (chart : ChiChart) (tableNum : Nat) : Option (ChiChart × ChiCell) :=
  Loop.upTo? 0 (j - i) (fun k s =>
    (mergeAt env i j k s.1 s.2.tableNum).map fun made =>
      (if made.found.isEmpty then s.1 else setChiBarrier env j (i + k) s.1,
        ⟨made.tableNum, s.2.found ++ made.found⟩)) (chart, ⟨tableNum, []⟩)

end Parser

/-! ## Filling the table -/

/-- The table has room for the phrases; none of them needs no room. -/
def TableHasRoom (max tableNum : Nat) (l : List ChiPhrase) : Prop :=
  l = [] ∨ tableNum + l.length < max

instance (max tableNum : Nat) (l : List ChiPhrase) : Decidable (TableHasRoom max tableNum l) :=
  inferInstanceAs (Decidable (_ ∨ _))

theorem tableHasRoom_nil {max tableNum : Nat} : TableHasRoom max tableNum [] := Or.inl rfl

theorem tableHasRoom_append {max tableNum : Nat} {l l' : List ChiPhrase} :
    TableHasRoom max tableNum (l ++ l') ↔
      TableHasRoom max tableNum l ∧ TableHasRoom max (tableNum + l.length) l' := by
  unfold TableHasRoom
  rw [List.append_eq_nil_iff, List.length_append, ← Nat.add_assoc]
  constructor
  · rintro (⟨rfl, rfl⟩ | hroom)
    · exact ⟨Or.inl rfl, Or.inl rfl⟩
    · exact ⟨Or.inr (by omega), Or.inr hroom⟩
  · rintro ⟨hl, rfl | hroom⟩
    · exact hl.imp (fun hnil => ⟨hnil, rfl⟩) id
    · exact Or.inr hroom

/-- The run adds the phrases, if the table has room for them. -/
def FillsCell (max : Nat) (run : ChiCell → Option ChiCell) (made : List ChiPhrase) : Prop :=
  ∀ s, run s = if TableHasRoom max s.tableNum made then
    some ⟨s.tableNum + made.length, s.found ++ made⟩ else none

section Fill

variable {max : Nat} {run run' : ChiCell → Option ChiCell} {made made' : List ChiPhrase}

theorem FillsCell.skip : FillsCell max some [] := fun s => by
  rw [if_pos tableHasRoom_nil, List.append_nil]
  rfl

theorem FillsCell.add (env : ChiEnv) (p : ChiPhrase) : FillsCell env.tableMax (addPhrase env p) [p] := by
  intro s
  unfold addPhrase
  by_cases hfull : env.tableMax ≤ s.tableNum + 1
  · rw [if_pos hfull, if_neg]
    rintro (hnil | hroom)
    · cases hnil
    · exact absurd hroom (Nat.not_lt_of_le hfull)
  · have hroom : TableHasRoom env.tableMax s.tableNum [p] := Or.inr (Nat.lt_of_not_le hfull)
    rw [if_neg hfull, if_pos hroom]
    rfl

/-- A phrase that is added on a condition. -/
theorem FillsCell.cond (env : ChiEnv) (p : ChiPhrase) (b : Bool) :
    FillsCell env.tableMax (fun s => if b then addPhrase env p s else some s)
      (if b then [p] else []) := by
  cases b
  · exact skip
  · exact add env p

theorem FillsCell.bind (h : FillsCell max run made) (h' : FillsCell max run' made') :
    FillsCell max (fun s => (run s).bind run') (made ++ made') := by
  intro s
  dsimp only
  rw [h s]
  by_cases hfirst : TableHasRoom max s.tableNum made
  · rw [if_pos hfirst, Option.bind_some, h' ⟨_, _⟩,
      if_congr ((tableHasRoom_append.trans (and_iff_right hfirst)).symm) rfl rfl]
    simp only [List.length_append, Nat.add_assoc, List.append_assoc]
  · rw [if_neg hfirst, Option.bind_none,
      if_neg fun hroom => hfirst (tableHasRoom_append.mp hroom).1]

theorem FillsCell.foldlM {α : Type*} {body : ChiCell → α → Option ChiCell}
    {made : α → List ChiPhrase} : ∀ {l : List α},
      (∀ a ∈ l, FillsCell max (fun s => body s a) (made a)) →
      FillsCell max (fun s => l.foldlM body s) (l.flatMap made)
  | [], _ => skip
  | a :: l, h => by
      have hrest := foldlM (l := l) fun b hb => h b (List.mem_cons_of_mem a hb)
      exact (h a List.mem_cons_self).bind hrest

end Fill

/-! ## The entries -/

section Entries

variable (env : ChiEnv) (i j k : Nat) (left right : Cky)

/-- The phrases that an entry should give: of each of its directions, if the
grammar and the root probability allow it. -/
def expectedPhrases (index : Nat) : List ChiPhrase :=
  let direction := env.direction left.bPtr right.bPtr index
  let allowed (d : Char) (head : Nat) :=
    checkChiDpndPossibility env i j k left right d index && !rootRefuses env i j head
  if direction = 'B' then
    (if allowed 'R' right.bPtr then [chiPhrase i j left right 'R' .LtoR index] else []) ++
      if allowed 'L' left.bPtr then [chiPhrase i j left right 'L' .RtoL index] else []
  else if allowed direction (if direction = 'R' then right.bPtr else left.bPtr) then
    [entryPhrase env i j k left right index]
  else []

/-- An entry that the code misses: of an entry `B`, `R` is allowed by the grammar but
has no root probability, and `L` would give a phrase; one direction is
forbidden in the first entry, or allowed in a later one. -/
def EntryMissed (index : Nat) : Prop :=
  let direction := env.direction left.bPtr right.bPtr index
  let check (d : Char) := checkChiDpndPossibility env i j k left right d index
  if direction = 'B' then
    (check 'R' ∧ rootRefuses env i j right.bPtr) ∧ check 'L' ∧ ¬ rootRefuses env i j left.bPtr
  else ¬ rootRefuses env i j (if direction = 'R' then right.bPtr else left.bPtr) ∧
    (check direction ↔ index ≠ 0)

/-- An entry `B`: unless the loop continues at `R`, each direction is tried by itself. -/
theorem addEntry_both {index : Nat} (hB : env.direction left.bPtr right.bPtr index = 'B') :
    ∃ made, FillsCell env.tableMax (fun s => addEntry env i j k left right s index) made ∧
      (¬ EntryMissed env i j k left right index →
        made = expectedPhrases env i j k left right index) := by
  have hentry : (fun s => addEntry env i j k left right s index) = fun s =>
      if checkChiDpndPossibility env i j k left right 'R' index &&
        rootRefuses env i j right.bPtr then some s
      else (if checkChiDpndPossibility env i j k left right 'R' index then
          addPhrase env (chiPhrase i j left right 'R' .LtoR index) s else some s).bind fun s =>
        if checkChiDpndPossibility env i j k left right 'L' index &&
          !rootRefuses env i j left.bPtr then
          addPhrase env (chiPhrase i j left right 'L' .RtoL index) s else some s :=
    funext fun s => if_pos hB
  unfold EntryMissed expectedPhrases
  dsimp only
  rw [hentry, if_pos hB, if_pos hB]
  by_cases hcut : (checkChiDpndPossibility env i j k left right 'R' index &&
      rootRefuses env i j right.bPtr) = true
  · refine ⟨[], ?_, fun hmissed => ?_⟩
    · simp only [hcut, if_true]
      exact FillsCell.skip
    · rw [Bool.and_eq_true] at hcut
      rw [if_neg, if_neg, List.append_nil]
      · rw [Bool.and_eq_true, Bool.not_eq_true']
        exact fun hleft => hmissed ⟨hcut, hleft.1, by simp [hleft.2]⟩
      · simp [hcut.2]
  · have hright : (checkChiDpndPossibility env i j k left right 'R' index &&
        !rootRefuses env i j right.bPtr) =
        checkChiDpndPossibility env i j k left right 'R' index := by
      rw [Bool.and_eq_true, not_and, Bool.not_eq_true] at hcut
      cases hR : checkChiDpndPossibility env i j k left right 'R' index
      · rfl
      · simp [hcut hR]
    simp only [hcut, if_false, Bool.false_eq_true, hright]
    exact ⟨_, (FillsCell.cond env _ _).bind (FillsCell.cond env _ _), fun _ => rfl⟩

/-- An entry of one direction: the first entry gives its phrase, a later one does not. -/
theorem addEntry_one {index : Nat} (hB : env.direction left.bPtr right.bPtr index ≠ 'B') :
    ∃ made, FillsCell env.tableMax (fun s => addEntry env i j k left right s index) made ∧
      (¬ EntryMissed env i j k left right index →
        made = expectedPhrases env i j k left right index) := by
  have hentry : (fun s => addEntry env i j k left right s index) = fun s =>
      if index ≠ 0 then some s
      else if rootRefuses env i j (if env.direction left.bPtr right.bPtr index = 'R' then
        right.bPtr else left.bPtr) then some s
      else addPhrase env (entryPhrase env i j k left right index) s :=
    funext fun s => if_neg hB
  unfold EntryMissed expectedPhrases
  dsimp only
  rw [hentry, if_neg hB, if_neg hB]
  generalize (if env.direction left.bPtr right.bPtr index = 'R' then right.bPtr
    else left.bPtr) = head
  by_cases hrefuse : rootRefuses env i j head = true
  · refine ⟨[], ?_, fun _ => by simp [hrefuse]⟩
    simp only [hrefuse, if_true, ite_self]
    exact FillsCell.skip
  · by_cases hindex : index = 0
    · refine ⟨[entryPhrase env i j k left right index], ?_, fun hmissed => ?_⟩
      · simp only [hindex, ne_eq, not_true, if_false, hrefuse, Bool.false_eq_true]
        exact FillsCell.add env _
      · have hcheck : checkChiDpndPossibility env i j k left right
            (env.direction left.bPtr right.bPtr index) index = true := by
          by_contra hno
          exact hmissed ⟨hrefuse, ⟨fun h => absurd h hno, fun h => absurd hindex h⟩⟩
        simp [hcheck, hrefuse]
    · refine ⟨[], ?_, fun hmissed => ?_⟩
      · simp only [ne_eq, hindex, not_false_eq_true, if_true]
        exact FillsCell.skip
      · have hcheck : ¬ checkChiDpndPossibility env i j k left right
            (env.direction left.bPtr right.bPtr index) index = true :=
          fun h => hmissed ⟨hrefuse, ⟨fun _ => hindex, fun _ => h⟩⟩
        simp [hcheck]

theorem addEntry_fills (index : Nat) :
    ∃ made, FillsCell env.tableMax (fun s => addEntry env i j k left right s index) made ∧
      (¬ EntryMissed env i j k left right index →
        made = expectedPhrases env i j k left right index) := by
  by_cases hB : env.direction left.bPtr right.bPtr index = 'B'
  · exact addEntry_both env i j k left right hB
  · exact addEntry_one env i j k left right hB

end Entries

/-! ## A cell -/

section Cell

variable {env : ChiEnv} {i j k : Nat} {made : Nat → Cky → Cky → Nat → List ChiPhrase}

/-- The phrases of the pair, for each entry those of `made`. -/
def pairMade (env : ChiEnv) (made : Nat → Cky → Cky → Nat → List ChiPhrase) (i j : Nat)
    (depCheck : Nat → Int) (k : Nat) (left right : Cky) : List ChiPhrase :=
  if pairAllowed env i j k left right depCheck then
    (List.range (env.count left.bPtr right.bPtr)).flatMap (made k left right)
  else []

/-- The phrases of two cells. -/
def madeAt (env : ChiEnv) (made : Nat → Cky → Cky → Nat → List ChiPhrase) (i j : Nat)
    (chart : ChiChart) (k : Nat) : List ChiPhrase :=
  (chart.matrix i (i + k)).flatMap fun left =>
    (chart.matrix (i + k + 1) j).flatMap fun right =>
      pairMade env made i j chart.depCheck k left.phrase right.phrase

theorem mergeAt_eq (hmade : ∀ k left right index,
    FillsCell env.tableMax (fun s => addEntry env i j k left right s index) (made k left right index))
    (chart : ChiChart) (tableNum : Nat) : mergeAt env i j k chart tableNum =
      if TableHasRoom env.tableMax tableNum (madeAt env made i j chart k) then
        some ⟨tableNum + (madeAt env made i j chart k).length, madeAt env made i j chart k⟩
      else none := by
  have hpair : ∀ left right, FillsCell env.tableMax (addPair env i j k left right chart.depCheck)
      (pairMade env made i j chart.depCheck k left right) := fun left right => by
    by_cases hallowed : pairAllowed env i j k left right chart.depCheck = true
    · rw [pairMade, if_pos hallowed, show addPair env i j k left right chart.depCheck = fun s =>
        (List.range (env.count left.bPtr right.bPtr)).foldlM (addEntry env i j k left right) s from
          funext fun s => if_pos hallowed]
      exact FillsCell.foldlM fun index _ => hmade k left right index
    · rw [pairMade, if_neg hallowed, show addPair env i j k left right chart.depCheck = some from
        funext fun s => if_neg hallowed]
      exact FillsCell.skip
  have hcells : FillsCell env.tableMax (fun s => (chart.matrix i (i + k)).foldlM (fun s left =>
      (chart.matrix (i + k + 1) j).foldlM (fun s right =>
        addPair env i j k left.phrase right.phrase chart.depCheck s) s) s)
      (madeAt env made i j chart k) :=
    FillsCell.foldlM fun left _ => FillsCell.foldlM fun right _ => hpair left.phrase right.phrase
  exact hcells ⟨tableNum, []⟩

/-- Only the wall of the left cell's last word matters. -/
theorem relaxBarrierForP_congr {dep : Nat} {depCheck depCheck' : Nat → Int}
    (h : depCheck' dep = depCheck dep) (c : Cky) :
    relaxBarrierForP dep depCheck' c = relaxBarrierForP dep depCheck c := by
  induction c with
  | leaf j => rfl
  | node i j left right dpndType direction paraFlag ihl ihr =>
      rw [relaxBarrierForP, relaxBarrierForP, h, ihl, ihr]

theorem madeAt_congr {chart chart' : ChiChart} (hmatrix : chart'.matrix = chart.matrix)
    (hwall : chart'.depCheck (i + k) = chart.depCheck (i + k)) :
    madeAt env made i j chart' k = madeAt env made i j chart k := by
  have hallowed : ∀ left right, pairAllowed env i j k left right chart'.depCheck =
      pairAllowed env i j k left right chart.depCheck := fun left right => by
    unfold pairAllowed
    rw [hwall, relaxBarrierForP_congr hwall]
  unfold madeAt pairMade
  simp only [hmatrix, hallowed]

theorem setChiBarrier_other {dep x : Nat} {chart : ChiChart} (hx : x ≠ dep) :
    (setChiBarrier env j dep chart).matrix = chart.matrix ∧
      (setChiBarrier env j dep chart).depCheck x = chart.depCheck x := by
  unfold setChiBarrier
  dsimp only
  split_ifs
  · exact ⟨rfl, rfl⟩
  · exact ⟨rfl, Function.update_of_ne hx ..⟩
  · exact ⟨rfl, Function.update_of_ne hx ..⟩
  · exact ⟨rfl, rfl⟩

/-- The loop over the ways to cut, from `lo` on: the turns before have changed no wall that
a later one reads. -/
theorem mergeChiCells_from (hmade : ∀ k left right index,
    FillsCell env.tableMax (fun s => addEntry env i j k left right s index) (made k left right index))
    (chart : ChiChart) : ∀ (n lo : Nat) (chart' : ChiChart) (s : ChiCell),
      chart'.matrix = chart.matrix →
      (∀ k, lo ≤ k → chart'.depCheck (i + k) = chart.depCheck (i + k)) →
      ((List.range' lo n).foldlM (fun (s : ChiChart × ChiCell) k =>
        (mergeAt env i j k s.1 s.2.tableNum).map fun made =>
          (if made.found.isEmpty then s.1 else setChiBarrier env j (i + k) s.1,
            (⟨made.tableNum, s.2.found ++ made.found⟩ : ChiCell))) (chart', s)).map
          (fun r => r.2.found) =
        if TableHasRoom env.tableMax s.tableNum
            ((List.range' lo n).flatMap (madeAt env made i j chart)) then
          some (s.found ++ (List.range' lo n).flatMap (madeAt env made i j chart))
        else none
  | 0, lo, chart', s, _, _ => by
      rw [List.range'_zero, List.flatMap_nil, if_pos tableHasRoom_nil, List.append_nil]
      rfl
  | n + 1, lo, chart', s, hmatrix, hwall => by
      rw [List.range'_succ, List.foldlM_cons, List.flatMap_cons, mergeAt_eq hmade,
        madeAt_congr hmatrix (hwall lo le_rfl)]
      by_cases hfirst : TableHasRoom env.tableMax s.tableNum (madeAt env made i j chart lo)
      · rw [if_pos hfirst, if_congr (tableHasRoom_append.trans (and_iff_right hfirst)) rfl rfl,
          ← List.append_assoc]
        refine mergeChiCells_from hmade chart n (lo + 1) _ ⟨_, _⟩ ?_ fun k hk => ?_
        · split_ifs
          · exact hmatrix
          · exact (setChiBarrier_other (x := i + lo + 1) (by omega)).1.trans hmatrix
        · have hother : i + k ≠ i + lo := by omega
          split_ifs
          · exact hwall k (by omega)
          · exact (setChiBarrier_other hother).2.trans (hwall k (by omega))
      · rw [if_neg hfirst, if_neg fun hroom => hfirst (tableHasRoom_append.mp hroom).1]
        rfl

end Cell

/-- The phrases of a cell: for each way to cut it, each pair of phrases that may be put
together and each of their entries, the phrases of the entry's directions that the
grammar and the root probability allow, as long as the table has room for all of
them. What the entries give that `EntryMissed` names is left open. -/
theorem mergeChiCells_found (env : ChiEnv) (i j : Nat) (chart : ChiChart) (tableNum : Nat) :
    ∃ made : Nat → Cky → Cky → Nat → List ChiPhrase,
      (∀ k left right index, ¬ EntryMissed env i j k left right index →
        made k left right index = expectedPhrases env i j k left right index) ∧
      (mergeChiCells env i j chart tableNum).map (fun r => r.2.found) =
        let all := (List.range (j - i)).flatMap (madeAt env made i j chart)
        if TableHasRoom env.tableMax tableNum all then some all else none := by
  choose made hfills hmade using fun k left right index =>
    addEntry_fills env i j k left right index
  refine ⟨made, hmade, ?_⟩
  rw [List.range_eq_range']
  exact mergeChiCells_from hfills chart (j - i) 0 chart ⟨tableNum, []⟩ rfl fun _ _ => rfl

/-- A noun and a verb, neither of which has a probability to head the sentence. -/
def rootless : ChiEnv where
  bnstNum := 2
  optParaFix := false
  optNbest := false
  optBeam := 0
  dpndMatrix := fun _ _ => some 'O'
  quoteMatrix := fun _ _ => true
  maskMatrix := fun _ _ => 1
  paraNum := fun _ => none
  paraMatrix := fun _ _ _ => false
  yogen := fun _ => false
  renyo := fun _ => false
  mukaku := fun _ => none
  barrierFp := fun _ => false
  barrierMatch := fun _ _ => false
  preference := fun _ => -1
  score := fun _ => 0
  optChiPos := false
  count := fun _ _ => 1
  direction := fun _ _ _ => 'B'
  leftPosIndex := fun _ _ _ => 0
  rightPosIndex := fun _ _ _ => 0
  rootProb := fun _ => 0
  wordPos := fun _ => .other
  pos := fun b => if b = 0 then .NN else .VV
  goi := fun _ => ""
  feature := fun _ _ => false
  npStart := fun _ _ => none
  npEnd := fun _ _ => none
  quoteStart := fun _ _ => none
  quoteEnd := fun _ _ => none
  tableMax := 1000000

def rootlessChart : ChiChart where
  matrix := fun a _ => [⟨.leaf a, 0⟩]
  depCheck := fun _ => -1

/-- The grammar allows the verb as the head of the noun, but the cell stays empty. -/
theorem rootless_allowed_not_added :
    checkChiDpndPossibility rootless 0 1 0 (.leaf 0) (.leaf 1) 'R' 0 = true ∧
      (mergeChiCells rootless 0 1 rootlessChart 2).map (fun r => r.2.found) = some [] := by
  decide +kernel

end Knp
