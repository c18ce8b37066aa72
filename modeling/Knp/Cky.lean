import Knp.Loop
import Knp.MrphDpnd

/-!
# The chart of phrases (`cky.c`)

`cky` fills a triangle of cells, from left to right and from the bottom up. Cell
`(i, j)` is a list of phrases from bunsetsu `i` to `j`, each put together from
two phrases that span it. Without `OptParaFix`, coordination is decided here
too: a coordination of three or more parts is put together from two phrases that
overlap in a part of both.

`convert_to_dpnd` then writes the heads, going down one phrase of the top cell.

Only for languages other than Chinese. A phrase is a tree; its pointers to
bunsetsu are numbers. The scores are any function of the phrase, since all that
matters of them is which phrase is first.
-/

namespace Knp

/-- The direction of a link, `->` and `<-`. -/
inductive Direction
  | LtoR
  | RtoL
deriving DecidableEq

/-- `CKY`: bunsetsu `i` to `j`, put together from two phrases, or one bunsetsu. -/
inductive Cky
  | leaf (j : Nat)
  | node (i j : Nat) (left right : Cky) (dpndType : Char) (direction : Direction)
      (paraFlag : Bool)
deriving DecidableEq

namespace Cky

def i : Cky → Nat
  | leaf j => j
  | node i .. => i

def j : Cky → Nat
  | leaf j => j
  | node _ j .. => j

/-- The bunsetsu that is the head of the phrase (`b_ptr->num`). -/
def bPtr : Cky → Nat
  | leaf j => j
  | node _ _ left _ _ .RtoL _ => left.bPtr
  | node _ _ _ right _ .LtoR _ => right.bPtr

/-- `none` for 0, in a phrase of one bunsetsu. -/
def dpndType : Cky → Option Char
  | leaf _ => none
  | node _ _ _ _ dpndType .. => some dpndType

/-- `dpnd_type == 'P' || para_flag` -/
def isPara : Cky → Bool
  | leaf _ => false
  | node _ _ _ _ dpndType _ paraFlag => dpndType = 'P' || paraFlag

/-- The first part of a coordination: down to the left while there is one. -/
def firstConjunct : Cky → Cky
  | leaf j => leaf j
  | node i j left right dpndType direction paraFlag =>
      if dpndType = 'P' || paraFlag then left.firstConjunct
      else node i j left right dpndType direction paraFlag

/-- The last part of a coordination. -/
def lastConjunct : Cky → Cky
  | leaf j => leaf j
  | node i j left right dpndType direction paraFlag =>
      if dpndType = 'P' || paraFlag then right.lastConjunct
      else node i j left right dpndType direction paraFlag

/-- Wherever a coordination is put together from two that overlap, the part they
share is the same phrase. -/
def Agrees : Cky → Prop
  | leaf _ => True
  | node _ _ left right _ _ paraFlag =>
      (paraFlag = true → left.lastConjunct = right.firstConjunct) ∧ left.Agrees ∧ right.Agrees

end Cky

/-- What the parser reads of the sentence and of the options. -/
structure CkyEnv where
  bnstNum : Nat
  optParaFix : Bool
  optNbest : Bool
  optBeam : Nat
  /-- `none` for 0 -/
  dpndMatrix : Nat → Nat → Option Char
  quoteMatrix : Nat → Nat → Bool
  maskMatrix : Nat → Nat → Nat
  /-- `none` for -1 -/
  paraNum : Nat → Option Nat
  /-- `Para_matrix[..] >= PARA_THRESHOLD` -/
  paraMatrix : Nat → Nat → Nat → Bool
  /-- The features 用言, 係:連用, and the number in 係:無格従属. -/
  yogen : Nat → Bool
  renyo : Nat → Bool
  mukaku : Nat → Option Int
  /-- The dependency rule: whether it has a barrier, what matches it. -/
  barrierFp : Nat → Bool
  barrierMatch : Nat → Nat → Bool
  preference : Nat → Int
  score : Cky → Int

/-- `cky_matrix` and `dep_check` -/
structure Chart where
  matrix : Nat → Nat → List Cky
  depCheck : Nat → Int

section Parser

variable (env : CkyEnv)

def checkDpndPossibility (dep gov start : Nat) (relaxFlag : Bool) : Option Char :=
  if (!env.optParaFix && (env.paraNum dep).any fun p => env.paraMatrix p start gov) ||
      (env.optParaFix && env.maskMatrix dep gov = 2) then some 'P'
  else if env.optParaFix && env.maskMatrix dep gov = 3 then some 'I'
  else if (env.dpndMatrix dep gov).isSome && env.quoteMatrix dep gov &&
      (!env.optParaFix || env.maskMatrix dep gov = 1) then env.dpndMatrix dep gov
  else if env.dpndMatrix dep gov = some 'R' || relaxFlag then some 'R'
  else none

/-- 並列の左側に壁があるなら、右側までOKとする -/
def relaxBarrierForP (dep : Nat) (depCheck : Nat → Int) : Cky → Bool
  | .leaf _ => false
  | .node _ _ left right dpndType _ paraFlag =>
      dpndType = 'P' && ((left.j : Int) ≤ depCheck dep ||
        (paraFlag && relaxBarrierForP dep depCheck left)) ||
      relaxBarrierForP dep depCheck right

/-- The phrase of `left` and `right`, if the one may depend on the other. -/
def phrase (chart : Chart) (i j k : Nat) (left right : Cky) : Option Cky :=
  let wall := chart.depCheck (i + k)
  match checkDpndPossibility env left.bPtr right.bPtr i (j + 1 = env.bnstNum && wall = -1) with
  | some dpndType =>
      if (dpndType = 'P' && (env.optParaFix || right.dpndType != some 'P')) ||
          (dpndType != 'P' && (wall ≤ 0 || (j : Int) ≤ wall ||
            (!env.optParaFix && relaxBarrierForP (i + k) chart.depCheck right))) then
        some (.node i j left right dpndType
          (if env.dpndMatrix left.bPtr right.bPtr = some 'L' then .RtoL else .LtoR) false)
      else none
  | none => none

/-- The front of a list up to the first element with `stop`. -/
def takeUntil {α : Type*} (stop : α → Bool) : List α → List α
  | [] => []
  | a :: l => if stop a then [a] else a :: takeUntil stop l

/-- merge (i .. i+k) and (i+k+1 .. j) -/
def phrases (chart : Chart) (i j k : Nat) : List Cky :=
  let single := !env.optNbest && env.optParaFix
  (takeUntil (fun left => single && (!env.yogen left.bPtr || env.renyo left.bPtr))
      (chart.matrix i (i + k))).flatMap fun left =>
    (takeUntil (fun right => single && !env.yogen right.bPtr)
        (chart.matrix (i + k + 1) j)).filterMap fun right =>
      phrase env chart i j k left right

/-- barrier handling -/
def setBarrier (dep j : Nat) (chart : Chart) : Chart :=
  let fixed := env.optParaFix || (env.dpndMatrix dep j).isSome
  if j + 1 = env.bnstNum then chart
  else if fixed && env.barrierFp dep && env.barrierMatch dep j then
    { chart with depCheck := Function.update chart.depCheck dep j }
  else if chart.depCheck dep = -1 then
    { chart with
      depCheck := Function.update chart.depCheck dep
        (if fixed && env.preference dep != -1 && !env.barrierFp dep then j else 0) }
  else chart

/-- coordination that consists of more than 2 phrases -/
def paraPhrases (chart : Chart) (i j : Nat) : List Cky :=
  (List.range (j - i - 1)).flatMap fun k =>
    (chart.matrix (i + k + 1) j).flatMap fun right =>
      if right.isPara then
        ((chart.matrix i right.firstConjunct.j).filter (·.dpndType = some 'P')).map fun left =>
          .node i j left right 'P' .LtoR true
      else []

/-- The first one of the highest score, and the others. -/
def removeBest : List Cky → Option (Cky × List Cky)
  | [] => none
  | c :: l => match removeBest l with
      | none => some (c, [])
      | some (best, others) =>
          if env.score best ≤ env.score c then some (c, l) else some (best, c :: others)

/-- `sort_cky_ptrs` -/
def sortCkyPtrs : Nat → List Cky → List Cky
  | 0, l => l
  | beam + 1, l => match removeBest env l with
      | none => []
      | some (best, others) => best :: sortCkyPtrs beam others

/-- leave the best candidates within the beam -/
def prune (i j : Nat) (l : List Cky) : List Cky :=
  if env.optBeam ≠ 0 ∧ ¬ (i = 0 ∧ j + 1 = env.bnstNum) then
    (sortCkyPtrs env env.optBeam l).take env.optBeam
  else sortCkyPtrs env 1 l

/-- The phrases of two parts, for each way to cut (i .. j). -/
def mergeCells (i j : Nat) (chart : Chart) : Chart × List Cky :=
  Loop.upTo 0 (j - i) (fun k s =>
    let found := phrases env s.1 i j k
    (if found.isEmpty then s.1 else setBarrier env (i + k) j s.1, s.2 ++ found)) (chart, [])

/-- iからjまでの要素をまとめる処理 -/
def fillCell (i j : Nat) (chart : Chart) : Chart :=
  let (chart, l) := if i = j then (chart, [.leaf j])
    else
      let (chart, l) := mergeCells env i j chart
      (chart, prune env i j (l ++ if env.optParaFix then [] else paraPhrases chart i j))
  { chart with matrix := Function.update chart.matrix i (Function.update (chart.matrix i) j l) }

/-- `cky`, up to the choice of a phrase of cell `(0, bnstNum - 1)`: left to right,
bottom to top. -/
def cky : Chart :=
  Loop.upTo 0 env.bnstNum
    (fun j chart => Loop.upTo 0 (j + 1) (fun d chart => fillCell env (j - d) j chart) chart)
    ⟨fun _ _ => [], fun _ => -1⟩

end Parser

/-! ## The heads -/

def Dpnd.set (b : Nat) (head : Int) (type : Char) (d : Dpnd) : Dpnd :=
  ⟨Function.update d.head b head, Function.update d.type b type⟩

/-- The head of a phrase of two parts: Pでないので、D for 係:無格従属, whose head is
found later. -/
def setLink (env : CkyEnv) (left right : Cky) (dpndType : Char) (direction : Direction)
    (d : Dpnd) : Dpnd :=
  match if dpndType = 'P' then none else env.mukaku left.bPtr with
  | some v => d.set left.bPtr v 'D'
  | none => match direction with
      | .RtoL => d.set right.bPtr left.bPtr dpndType
      | .LtoR => d.set left.bPtr right.bPtr dpndType

/-- `convert_to_dpnd`, without the case analysis. -/
def convertToDpnd (env : CkyEnv) : Cky → Dpnd → Dpnd
  | .leaf _, d => d
  | .node _ _ left right dpndType direction paraFlag, d =>
      let d := if paraFlag then d else setLink env left right dpndType direction d
      convertToDpnd env right (convertToDpnd env left d)

/-- 無格従属: 前の文節の係り受けに従う場合. An impossible link is relaxed to the
sentence end. -/
def followHead (bnstNum i : Nat) (d : Dpnd) : Dpnd :=
  if d.head i < 0 then
    let head := d.head ((i : Int) + d.head i).toNat
    { d with head := Function.update d.head i (if head ≤ i then (bnstNum : Int) - 1 else head) }
  else d

/-- The part of `after_cky` that fills `Best_mgr->dpnd` for a phrase. -/
def afterCky (env : CkyEnv) (c : Cky) (d : Dpnd) : Dpnd :=
  let d := { d with head := Function.update d.head c.bPtr (-1) }
  Loop.upTo 0 (env.bnstNum - 1) (followHead env.bnstNum) (convertToDpnd env c d)

end Knp
