import Knp.FilledSlots
import Knp.MrphDpnd

/-!
# Zero anaphora (`ellipsis_analysis`)

The target cases are gone through one after the other. If the first slot of a case is
free, the search goes on with each entity that may fill it and once without any; the
slots and entities of the branch are marked in arrays that all calls share, and a call
restores the arrays before it returns.

A mark outside `filled_element` is undefined, and the model then has no result. An
entity is the number of its cell in the table; the arrays are functions of their index.
-/

namespace Knp

/-- The cases of `ELLIPSIS_CASE_LIST_VERB` and `ELLIPSIS_CASE_LIST_NOUN`. -/
inductive EllipsisCase
  | ga
  | wo
  | ni
  | ga2
  | no
  | noQ
deriving DecidableEq

/-- `pp_kstr_to_code`; `ノ？` is not a case of the table. -/
def EllipsisCase.code : EllipsisCase → Int
  | .ga => ppGa
  | .wo => 2
  | .ni => 3
  | .ga2 => ppGa2
  | .no => ppNo
  | .noQ => END_M

/-- `ELLIPSIS_CASE_LIST` -/
def ellipsisCaseList : CfType → List EllipsisCase
  | .pred => [.ga, .wo, .ni, .ga2]
  | .noun => [.no, .no, .noQ]

/-- The tag of an element or of an entity's first mention: whether it is coordinated, and the
entities of its parent's children. -/
structure TagPlace where
  f : List String
  sentNum : Nat
  paraNormal : Bool
  coordinated : List Nat

/-- What the search reads of `ENTITY`; `salient` is that `salience_score` is not 0. -/
structure AnaEntity where
  num : Nat
  hypotheticalFlag : Nat
  salient : Bool
  tmpSalienceFlag : Bool
  skipFlag : Nat
  candidate : Bool
  first : TagPlace

/-- A child of the parent of the tag that is analysed. -/
structure ParaChild where
  isTag : Bool
  f : List String
  paraNormal : Bool
  dpndType : Char
  entityNum : Nat

/-- The parent of the tag; the entity is that of its substance. -/
structure ParentTag where
  f : List String
  entityNum : Nat
  paraTop : Bool
  children : List ParaChild

/-- The tag, the entity table, and the result of the case analysis. -/
structure EllipsisEnv where
  cfType : CfType
  /-- `check_analyze_tag` -/
  analyzeTag : CfType
  sentNum : Nat
  entityNum : Nat
  paraNormal : Bool
  parent : Option ParentTag
  /-- `OptAnaphora & OPT_UNNAMED_ENTITY` -/
  unnamedEntity : Bool
  num : Nat
  entity : Nat → AnaEntity
  caseResultNum : Nat
  elemB : Nat → TagPlace

/-- A slot and the entity that fills it, in the order in which they are given. -/
abbrev Completion := List (Nat × Nat)

/-- `pp[e][0]` of the frame and `CF_TAG_MGR`, and the completions scored so far. -/
structure EllipsisState where
  pp : Nat → Int
  filledElement : Nat → Bool
  filledEntity : Nat → Bool
  cfElementNum : Nat → Nat
  entityNum : Nat → Nat
  type : Nat → Char
  resultNum : Nat
  scored : List Completion

/-- The first `r` entries. -/
def EllipsisState.branch (st : EllipsisState) (r : Nat) : Completion :=
  (List.range r).map fun j => (st.cfElementNum j, st.entityNum j)

section Ellipsis

variable (env : EllipsisEnv) (cf : CaseFrame)

/-! ## Marks -/

/-- 並列要素: the entities coordinated with the `j`th one, which is `k`. -/
def coordinatedWith (j k : Nat) : List Nat :=
  if j < env.caseResultNum && hasFeature (env.elemB j).f "体言" && (env.elemB j).paraNormal then
    (env.elemB j).coordinated
  else if env.unnamedEntity && (env.entity k).hypotheticalFlag = 0 &&
      (env.entity k).first.sentNum = env.sentNum && (env.entity k).first.paraNormal then
    (env.entity k).first.coordinated
  else []

/-- The entity of a parent that is not a noun. -/
def governing : List Nat :=
  match env.parent with
  | some p => if hasFeature p.f "体言" then [] else [p.entityNum]
  | none => []

/-- 自分と並列な要素 (橋渡し指示の場合) -/
def ownCoordinated : List Nat :=
  match env.parent with
  | some p =>
    if env.analyzeTag = .noun && env.paraNormal && p.paraTop then
      (p.children.filter fun c =>
        !c.isTag && hasFeature c.f "体言" && c.paraNormal && c.dpndType = 'P').map ParaChild.entityNum
    else []
  | none => []

/-- The entities that are blocked when those of `entities` are used. -/
def blockedEntities (entities : List Nat) : List Nat :=
  (entities.zipIdx.flatMap fun p => p.1 :: coordinatedWith env p.2 p.1) ++ [env.entityNum] ++
    governing env ++ ownCoordinated env

/-- The marks of the slots are set within the array. -/
def MarksInRange (slots : List Nat) : Prop := ∀ x ∈ filledIndices cf slots, 0 ≤ x ∧ x < CF_ELEMENT_MAX

instance (slots : List Nat) : Decidable (MarksInRange cf slots) :=
  inferInstanceAs (Decidable (∀ x ∈ filledIndices cf slots, _))

/-- すでに埋まっている格フレームの格をチェック -/
def setMarks (r : Nat) (st : EllipsisState) : EllipsisState :=
  { st with
    filledElement := filledElement cf ((st.branch r).map Prod.fst)
    filledEntity := fun k => (blockedEntities env ((st.branch r).map Prod.snd)).contains k }

def markBranch (r : Nat) (st : EllipsisState) : Option EllipsisState :=
  if MarksInRange cf ((st.branch r).map Prod.fst) then some (setMarks env cf r st) else none

/-! ## A case -/

/-- The first slot of the `i`th target case; for a noun it is the `i`th slot. -/
def firstSlot (pp : Nat → Int) (c : EllipsisCase) (i : Nat) : Option Nat :=
  (List.range cf.elementNum).find? fun e =>
    match env.cfType with
    | .noun => e = i && c = .no
    | .pred => pp e = c.code

/-- The slots of a noun's frame are renamed as they are looked at. -/
def renameSlots (slot : Option Nat) (pp : Nat → Int) : Nat → Int := fun e =>
  match env.cfType with
  | .noun => if e < (slot.map Nat.succ).getD cf.elementNum then ppNo else pp e
  | .pred => pp e

/-- The entity `k` may fill a slot, whatever else is filled. -/
def passes (k : Nat) : Bool :=
  let e := env.entity k
  let governs := match env.parent with
    | some p => p.entityNum = e.num
    | none => false
  (e.hypotheticalFlag ≠ 0 ||
      ((e.salient || governs || (env.cfType = .noun && e.tmpSalienceFlag)) &&
        !hasFeature e.first.f "疑問詞")) &&
    (env.unnamedEntity || e.hypotheticalFlag ≠ 1) && e.skipFlag ≠ 1 && e.candidate

/-- 対応付け結果を記録 -/
def give (e k r : Nat) (st : EllipsisState) : EllipsisState :=
  { st with
    cfElementNum := Function.update st.cfElementNum r e
    entityNum := Function.update st.entityNum r k }

/-- すべてのチェックが終了した場合 -/
def scoreCompletion (r : Nat) (st : EllipsisState) : EllipsisState :=
  { st with
    resultNum := r
    type := fun j =>
      if env.caseResultNum ≤ j ∧ j < r then
        if env.unnamedEntity && (env.entity (st.entityNum j)).hypotheticalFlag = 1 then 'E' else 'O'
      else st.type j
    scored := st.scored ++ [st.branch r] }

/-- filled_element, filled_entityを元に戻す -/
def restore (pre st : EllipsisState) : EllipsisState :=
  { st with filledElement := pre.filledElement, filledEntity := pre.filledEntity }

section Call

variable (next : Nat → EllipsisState → Option EllipsisState)

/-- An entity for the slot `e`; `next` is the call for the next case. -/
def tryEntity (e r : Nat) (st : EllipsisState) (k : Nat) : Option EllipsisState :=
  if passes env k && !st.filledEntity k then next (r + 1) (give e k r st) else some st

/-- The `i`th target case, when the branch is marked. -/
def fillCase (c : EllipsisCase) (i r : Nat) (marked : EllipsisState) : Option EllipsisState :=
  let slot := firstSlot env cf marked.pp c i
  let named := { marked with pp := renameSlots env cf slot marked.pp }
  match slot with
  | none => next r named
  | some e =>
    if named.filledElement e then next r named
    -- 埋めないで次の格へ, when all entities are tried
    else (List.range env.num).foldlM (tryEntity env next e r) named >>= next r

end Call

/-- `ellipsis_analysis`, for the target cases from the `i`th on. -/
def ellipsisAnalysis : List EllipsisCase → Nat → Nat → EllipsisState → Option EllipsisState
  | [], _, r, st => do
    let marked ← markBranch env cf r st
    some (restore st (scoreCompletion env r marked))
  | c :: cs, i, r, st => do
    let marked ← markBranch env cf r st
    let st' ← fillCase env cf (ellipsisAnalysis cs (i + 1)) c i r marked
    some (restore st st')

/-! ## The completions -/

/-- What a branch is completed to: a case whose first slot is free is filled by any entity that
may, or left. -/
inductive Completes (pp : Nat → Int) : List EllipsisCase → Nat → Completion → Completion → Prop
  | done (i : Nat) (b : Completion) : Completes pp [] i b b
  | leave (c : EllipsisCase) {cs : List EllipsisCase} {i : Nat} {b b' : Completion} :
      Completes pp cs (i + 1) b b' → Completes pp (c :: cs) i b b'
  | give {c : EllipsisCase} {cs : List EllipsisCase} {i : Nat} {b b' : Completion} (e k : Nat) :
      firstSlot env cf pp c i = some e → filledElement cf (b.map Prod.fst) e = false →
      k < env.num → passes env k = true → k ∉ blockedEntities env (b.map Prod.snd) →
      Completes pp cs (i + 1) (b ++ [(e, k)]) b' → Completes pp (c :: cs) i b b'

end Ellipsis

end Knp
