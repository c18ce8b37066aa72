import Knp.FilledSlots
import Knp.MrphDpnd

/-!
# Case analysis for anaphora (`case_analysis_for_anaphora`)

The elements of a predicate are given to the slots of a case frame one after the other,
each to a slot of one of its possible cases or to none. A call marks the slots of the
branch in `filled_element`, which all calls share, and the marks are not put back when
a deeper call returns: the later tests of the element are made with the marks of the
last correspondence that was scored.

The reference search has the same rules, but asks for the slots of the branch itself.
Both are `search`, for different marks. The arrays are functions of their index.
-/

namespace Knp

/-- `pp_kstr_to_code("＊")` -/
def ppStar : Int := -2

/-- `ガ`, `ヲ`, `ニ` and `ガ２` -/
def ellipsisCodes : List Int := [ppGa, 2, 3, ppGa2]

/-- An index of the arrays of `TAG_CASE_FRAME`, with its tag. -/
structure TcfArg where
  bPtr : Nat
  bNum : Int
  f : List String
  entityNum : Nat
  /-- `elem_b_ptr[i] == tag_ptr` -/
  isPred : Bool
  /-- `map_tcf_elem_to_cf` -/
  toCf : Nat
  /-- `map_tcf_elem_to_cf_elem` -/
  toCfElem : Nat
  /-- the row that the two maps lead to -/
  cases : List Int
  /-- the row of `cf` -/
  ownCases : List Int

/-- The predicate: its arguments, and the entities and cases of its mentions. -/
structure AnaphoraPred where
  cfType : CfType
  elems : List TcfArg
  mentions : List (Nat × Int)
  /-- `OptReadFeature & OPT_CASE_ANALYSIS` -/
  readCaseAnalysis : Bool

/-- What is recorded for an element that has a slot. -/
structure CaseAssign where
  elemBPtr : Nat
  cfElementNum : Nat
  tcfElementNumFunctional : Nat
  tcfElementNum : Nat
  type : Char
  entityNum : Nat
deriving DecidableEq

/-- A complete correspondence as it is scored. -/
structure Correspondence where
  given : List CaseAssign
  nonMatch : List Nat
deriving DecidableEq

/-- A test whether a slot that suits an element is free. -/
structure SlotTest where
  /-- the slots given to the elements before -/
  branch : List Nat
  slot : Nat
  /-- `filled_element` -/
  marked : Bool
  /-- the element was left without a slot already -/
  skipped : Bool
  /-- a slot of this case was given to the element already -/
  caseTaken : Bool
  /-- 非格要素 -/
  nonCase : Bool

/-- What the calls share: `pp[e][0]` of the frame and the arrays of `CF_TAG_MGR`, and
besides the correspondences scored and the tests made so far. -/
structure CtmState where
  pp : Nat → Int
  filled : Nat → Bool
  given : Nat → CaseAssign
  nonMatch : Nat → Nat
  scored : List Correspondence
  tests : List SlotTest

/-- The variables of one call. -/
structure CallState where
  st : CtmState
  assignedFlag : Bool
  skipFlag : Bool
  assignedCase : List Int

section Search

variable (pred : AnaphoraPred) (cf : CaseFrame)
-- which slots count as filled, for the shared state and the slots of the branch
variable (marks : CtmState → List Nat → Nat → Bool)

/-- すでに埋まっている格フレームの格をチェック -/
def refill (r : Nat) (st : CtmState) : CtmState :=
  { st with filled := filledElement cf ((List.range r).map fun j => (st.given j).cfElementNum) }

/-- スコアを計算: the first `r` of the `i` elements that have slots, and the others. -/
def scoreCorrespondence (i r : Nat) (st : CtmState) : CtmState :=
  { st with
    scored := st.scored ++
      [⟨(List.range r).map st.given, (List.range (i - r)).map st.nonMatch⟩] }

/-- `analysed_case_flag` -/
def analysedCase (el : TcfArg) (c : Int) : Bool :=
  pred.mentions.any fun m => el.entityNum = m.1 && c = m.2

/-- Whether the case `c` of the element suits a slot of the case `slot`. -/
def suits (el : TcfArg) (c slot : Int) : Bool :=
  (el.toCf ≠ 0 && c ∈ ellipsisCodes && slot ∈ ellipsisCodes) ||
    (c = slot && (pred.cfType ≠ .noun || hasFeature el.f "係:ノ格"))

/-- `type`: 'O' for an argument of a functional tag. -/
def assignType (el : TcfArg) : Char :=
  if el.toCf > 0 then 'O' else if el.bNum = -1 then 'N' else 'C'

section Call

/-! One call: the element `i`, when `r` elements have slots, those of `branch`; `child` is the
call for the next element. -/

variable (el : TcfArg) (i r : Nat) (branch : List Nat)
variable (child : Nat → List Nat → CtmState → CtmState)

/-- The element is left without a slot, once. -/
def skipElement (ns : CallState) : CallState :=
  if ns.skipFlag then ns
  else { ns with
    st := child r branch { ns.st with nonMatch := Function.update ns.st.nonMatch (i - r) i }
    assignedFlag := true
    skipFlag := true }

/-- 対応付け結果を記録 -/
def assignSlot (e : Nat) (ns : CallState) : CallState :=
  -- a slot of a noun's frame is renamed for good
  let pp := if pred.cfType = .noun then Function.update ns.st.pp e ppNo else ns.st.pp
  { ns with
    assignedFlag := true
    assignedCase := pp e :: ns.assignedCase
    st := child (r + 1) (branch ++ [e]) { ns.st with
      pp
      given := Function.update ns.st.given r
        ⟨el.bPtr, e, el.toCfElem, i, assignType el, el.entityNum⟩ } }

/-- The test of a slot that suits the element. -/
def slotTest (ns : CallState) (e : Nat) : SlotTest where
  branch := branch
  slot := e
  marked := ns.st.filled e
  skipped := ns.skipFlag
  caseTaken := ns.st.pp e ∈ ns.assignedCase
  nonCase := hasFeature el.f "非格要素"

def noteTest (t : SlotTest) (ns : CallState) : CallState :=
  { ns with st := { ns.st with tests := ns.st.tests ++ [t] } }

/-- A slot that suits the element: given to it, or the element skipped, or neither. -/
def trySuited (ns : CallState) (e : Nat) : CallState :=
  if marks ns.st branch e then skipElement i r branch child ns
  else if ns.st.pp e ∈ ns.assignedCase then ns
  else if hasFeature el.f "非格要素" then skipElement i r branch child ns
  else assignSlot pred el i r branch child e ns

/-- One turn of the loop over the slots. -/
def trySlotFor (c : Int) (ns : CallState) (e : Nat) : CallState :=
  if pred.readCaseAnalysis && !analysedCase pred el c then ns
  else if suits pred el c (ns.st.pp e) then
    trySuited pred marks el i r branch child (noteTest (slotTest el branch ns e) ns) e
  else ns

/-- One turn of the loop over the possible cases; `rest` are the elements behind. -/
def tryCaseOf (rest : List TcfArg) (ns : CallState) (c : Int) : CallState :=
  let ns := if c = ppStar ∨ el.toCf > 0 then skipElement i r branch child ns else ns
  -- 自分以外にも同じ格を埋める可能性がある候補がある場合
  let ns := if rest.any fun k => k.ownCases.any fun c' => c = c' then skipElement i r branch child ns
    else ns
  (List.range cf.elementNum).foldl (trySlotFor pred marks el i r branch child c) ns

/-- An element that is not checked yet. -/
def tryElement (rest : List TcfArg) (st : CtmState) : CtmState :=
  let ns : CallState := ⟨st, false, false, []⟩
  if el.isPred then (skipElement i r branch child ns).st
  else
    let ns := el.cases.foldl (tryCaseOf pred cf marks el i r branch child rest) ns
    -- 割り当てる対象がなかった場合
    if !ns.assignedFlag && !ns.skipFlag then (skipElement i r branch child ns).st else ns.st

end Call

/-- The recursion, for the elements from the `i`th on. -/
def search : List TcfArg → Nat → Nat → List Nat → CtmState → CtmState
  | [], i, r, _, st => scoreCorrespondence i r (refill cf r st)
  | el :: rest, i, r, branch, st =>
    tryElement pred cf marks el i r branch (search rest (i + 1)) rest (refill cf r st)

end Search

/-- Nothing is scored yet. -/
def CtmState.start (st : CtmState) : CtmState := { st with scored := [], tests := [] }

/-- `case_analysis_for_anaphora`: the marks are those of the shared array. -/
def caseAnalysisForAnaphora (pred : AnaphoraPred) (cf : CaseFrame) (st : CtmState) : CtmState :=
  search pred cf (fun st _ e => st.filled e) pred.elems 0 0 [] st.start

/-- The reference: a slot is filled if it was given to an element before. -/
def referenceSearch (pred : AnaphoraPred) (cf : CaseFrame) (st : CtmState) : CtmState :=
  search pred cf (fun _ branch e => branch.contains e) pred.elems 0 0 [] st.start

end Knp
