import Knp.CcString
import Knp.CfCache
import Knp.ConditionalCase
import Knp.TreeConv

/-!
# Collecting the elements of a predicate (`case_data.c`)

`make_data_cframe` fills the arrays of `CF_PRED_MGR` with the arguments of a predicate:
what it modifies, its parent in a compound, its children, its own tag, the arguments of
the coordination, and the ノ格 in front of the closest element.

> No element is written behind the arrays unless there are `CF_ELEMENT_MAX - 1` arguments
> before the predicate's own tag becomes one, and then the coordination or the ノ格 adds
> another one.

A child that fills the arrays sets the number back to 0, but the predicate's own tag may
fill them without a test.
-/

namespace Knp

open Feature

/-- `TAG_DATA`; pointers are numbers. -/
structure ArgTag where
  num : Nat
  inum : Nat
  f : List String
  paraType : ParaType
  paraTopP : Bool
  dpndType : Char
  parent : Option Nat
  child : List Nat

/-- The sentence with its tree, in which `tag n` is `tag_data[n]` or a node for a coordination, the
predicate, and the options. -/
structure ArgInput where
  tag : Nat → ArgTag
  pred : Nat
  cfType : CfType
  optAnaphora : Bool
  /-- `OptCaseFlag & OPT_CASE_NO` -/
  optCaseNo : Bool
  useNtt : Bool
  /-- `SM_code[0] == '\0'` -/
  noSmCode : Nat → Bool
  /-- `cf_match_element(cpm_ptr->cf.sm[..], "主体", FALSE)`, for the tag of the element -/
  isSubject : Nat → Bool
  /-- `check_cc_relation(b_ptr->cpm_ptr, cpm_ptr->pred_b_ptr, "外の関係")` -/
  ccRelation : Nat → Bool
  /-- how many tags and nodes there are -/
  size : Nat

/-- The arrays of `CF_PRED_MGR` that are read again, with the indices written so far; `tooMany`
is whether a test has found that there are too many arguments. -/
structure ArgState where
  elementNum : Nat
  elemBPtr : Nat → Nat
  elemBNum : Nat → Int
  pp : Nat → Int
  written : List Nat
  tooMany : Bool

/-- The end of `make_data_cframe` before its last line: the value, or `none` for `exit`. -/
abbrev Stop : Type := ArgState × Option Int

namespace ArgState

/-- An array is written at `element_num`. -/
def touch (s : ArgState) : ArgState := { s with written := s.written ++ [s.elementNum] }

/-- `oblig[element_num]`, and the cases at `pp[element_num]` if there are any. -/
def setPp (s : ArgState) : List Int → ArgState
  | [] => s.touch
  | cc :: _ => { s.touch with pp := Function.update s.pp s.elementNum cc }

/-- `_make_data_cframe_sm`, `_make_data_cframe_ex` and the pointers of the element. -/
def setElem (s : ArgState) (elem : Nat) (elemBNum : Int) : ArgState :=
  { s.touch with
    elemBPtr := Function.update s.elemBPtr s.elementNum elem
    elemBNum := Function.update s.elemBNum s.elementNum elemBNum }

def next (s : ArgState) : ArgState := { s with elementNum := s.elementNum + 1 }

/-- `cpm_ptr->cf.element_num = 0` -/
def reset (s : ArgState) : ArgState := { s with elementNum := 0, tooMany := true }

end ArgState

namespace ArgInput

variable (inp : ArgInput)

def predTag : ArgTag := inp.tag inp.pred

def has (t : Nat) (fname : String) : Bool := hasFeature (inp.tag t).f fname

/-! ## The cases of an argument -/

/-- What a feature does: `exit`, `FALSE`, or the cases with those that were there. -/
inductive PpStep
  | exit
  | stop
  | go (pp : List Int)

/-- `c_ptr->pp[c_ptr->element_num][(*pp_num)++] = cc` -/
def pushPp (pp : List Int) : Option Int → PpStep
  | none => .exit
  | some cc => if PP_ELEMENT_MAX ≤ pp.length + 1 then .exit else .go (pp ++ [cc])

/-- `_make_data_from_feature_to_pp` -/
def makeDataFromFeatureToPp (b : Nat) (pp : List Int) (fcp : String) : PpStep :=
  match inp.cfType with
  | .pred =>
      if "Ｔ解析格-".toList.isPrefixOf fcp.toList then
        if !inp.optAnaphora && fcp = "Ｔ解析格-＊" then .go pp
        else pushPp pp (ppKstrToCode (utf8 (textAfter 5 fcp)))
      else if fcp = "Ｔ用言同文節" then
        if inp.predTag.num ≠ (inp.tag b).num then .stop else .go pp
      else .go pp
  | .noun =>
      if fcp = "Ｔ名詞項" ∧ (inp.tag b).dpndType ≠ 'A' ∧
          (!inp.has b "係:連格" || inp.ccRelation b) then .go (pp ++ [0])
      else .go pp

/-- `while (fp)`: featureから格へ -/
def featuresToPp (b : Nat) : List Int → List String → PpStep
  | pp, [] => .go pp
  | pp, fcp :: fp =>
      match inp.makeDataFromFeatureToPp b pp fcp with
      | .go pp' => featuresToPp b pp' fp
      | r => r

/-- What `_make_data_cframe_pp` returns: nothing is written, nothing is returned, or the tag and
its cases. -/
inductive PpResult
  | barred
  | exit
  | null
  | made (elem : Nat) (pp : List Int)
deriving DecidableEq

/-- `_make_data_cframe_pp` with `flag == TRUE`. -/
def makeDataCframePp (b : Nat) : PpResult :=
  -- 複合辞などはひとつ前の基本句をみる
  let b := if 0 < (inp.tag b).num && inp.has b "格要素表記直前参照" then b - 1 else b
  -- 「〜のNだ。」禁止
  if inp.cfType = .pred ∧ inp.has b "係:ノ格" = true ∧ inp.has inp.pred "用言:判" = true then .barred
  else
    let rule := match chiCase inp.predTag.f (inp.tag b).f with
      | some kase => inp.makeDataFromFeatureToPp b [] (String.ofList kase)
      | none => .go []
    let fp := if inp.has b "Ｔ格直後参照" then (inp.tag (b + 1)).f else (inp.tag b).f
    let result := match rule with
      | .go pp => inp.featuresToPp b pp fp
      | r => r
    match result with
    | .exit => .exit
    | .stop => .null
    | .go [] => .null
    | .go (cc :: pp) => .made b (cc :: pp)

/-- The cases of what is modified: `Ｔ解析連格-`. -/
def rentaiFeatures : List Int → List String → Option (List Int)
  | pp, [] => some pp
  | pp, fcp :: fp =>
      if "Ｔ解析連格-".toList.isPrefixOf fcp.toList then
        match pushPp pp (ppKstrToCode (utf8 (textAfter 6 fcp))) with
        | .go pp' => rentaiFeatures pp' fp
        | _ => none
      else rentaiFeatures pp fp

/-- `_make_data_cframe_pp` with `flag == FALSE`; `none` for `exit`. -/
def makeRentaiPp (b : Nat) : Option (List Int) :=
  match inp.cfType with
  | .pred => rentaiFeatures [] (inp.tag b).f
  | .noun => some []

/-- The arrays after the cases of what is modified. -/
def setRentaiPp (b : Nat) (s : ArgState) : Except Stop ArgState :=
  match inp.makeRentaiPp b with
  | none => .error (s.touch, none)
  | some pp => .ok (if inp.cfType = .pred then s.setPp pp else s)

/-! ## What is modified -/

/-- `while (cel_b_ptr->parent->para_type == PARA_NORMAL)` -/
def paraTop : Nat → Nat → Nat
  | 0, b => b
  | n + 1, b =>
      match (inp.tag b).parent with
      | some p => if (inp.tag p).paraType = .normal then paraTop n p else b
      | none => b

def renkakuExceptionP : Bool := inp.has inp.pred "格要素指定:2"

/-- The parent has the property. -/
def parentIs (b : Nat) (q : ArgTag → Bool) : Bool :=
  match (inp.tag b).parent with
  | some p => q (inp.tag p)
  | none => false

/-- 用言並列なら、「Vした」と<PARA>が同じときのみ -/
def modifiesNoun : Bool :=
  (inp.has inp.pred "係:連格" &&
    (inp.predTag.paraType ≠ .normal || inp.parentIs inp.pred fun p => p.num = inp.predTag.num)) ||
  (inp.predTag.paraType = .normal && inp.has inp.pred "係:連用" &&
    inp.parentIs inp.pred fun p => p.paraTopP && inp.has (p.child.headD 0) "係:連格") ||
  inp.renkakuExceptionP

/-- 被連体修飾詞: the tag whose features give the case, and the element. -/
def rentaiElem : Option (Nat × Nat) :=
  if !inp.modifiesNoun then none
  else if inp.predTag.paraType ≠ .normal then
    match inp.predTag.parent with
    | none => none
    | some p =>
        match (inp.tag p).parent with
        | some q =>
            -- 〜のは
            if inp.renkakuExceptionP then
              if inp.has q "体言" then some (inp.pred, q) else none
            else some (inp.pred, p)
        | none => some (inp.pred, p)
  else
    let top := inp.paraTop inp.size inp.pred
    match (inp.tag top).parent with
    | none => none
    | some p => (inp.tag p).parent.map fun q => (p, q)

/-- `make_data_cframe_rentai` -/
def makeDataCframeRentai (s : ArgState) : Except Stop ArgState :=
  match inp.rentaiElem with
  | none => .ok s
  | some (b, elem) => (inp.setRentaiPp b s).map fun s => (s.setElem elem (-1)).next

/-! ## The other arguments -/

/-- 自分(用言)が複合名詞内のときの親 -/
def compoundElem : Option Nat :=
  if 0 < inp.predTag.inum ∧ inp.cfType = .pred ∧ inp.has inp.pred "係:連格" = false then
    inp.predTag.parent
  else none

def makeCompound (s : ArgState) : Except Stop ArgState :=
  match inp.compoundElem with
  | none => .ok s
  | some p =>
      (if !inp.has p "外の関係" || inp.has inp.pred "用言:形" then inp.setRentaiPp inp.pred s
        else .ok (s.setPp [ppSoto])).map fun s => (s.setElem p (-1)).next

/-- 「みかん三個を食べる」 ひとつ前の名詞を格要素とするとき -/
def childElem (elem : Nat) : Nat :=
  let front := (inp.tag elem).num - 1
  if inp.has elem "数量" && (inp.has elem "係:ガ格" || inp.has elem "係:ヲ格") &&
      0 < (inp.tag elem).num && (inp.has front "係:隣" || inp.has front "係:同格未格") &&
      !inp.has front "数量" && !inp.has front "時間" then front
  else elem

/-- 格が明示されていないことをマーク -/
def childBNum (elem i : Nat) : Int :=
  if inp.has elem "係:未格" || inp.has elem "係:ノ格" || 0 < (inp.tag elem).inum then -1 else i

/-- `make_data_cframe_child` -/
def makeDataCframeChild (child i : Nat) (s : ArgState) : Except Stop (Bool × ArgState) :=
  match inp.makeDataCframePp child with
  | .barred => .ok (false, s)
  | .exit => .error (s.touch, none)
  | .null => .ok (false, s.touch)
  | .made elem pp =>
      let s := ((s.setPp pp).setElem (inp.childElem elem) (inp.childBNum elem i)).next
      .ok (true, if CF_ELEMENT_MAX ≤ s.elementNum then s.reset else s)

/-- 子供を格要素に: `child[i - 1]`, ..., `child[0]` -/
def makeChildren : List Nat → ArgState → Except Stop ArgState
  | [], s => .ok s
  | child :: rest, s => do
      let (made, s) ← inp.makeDataCframeChild child rest.length s
      -- 子供が作れるはずなのに、作れなかった
      if made && s.elementNum = 0 then .error (s, some (-1)) else makeChildren rest s

/-- 用言文節が「（〜を）〜に」のとき -/
def makeSameBunsetsu (s : ArgState) : Except Stop ArgState :=
  if inp.has inp.pred "Ｔ用言同文節" then
    match inp.makeDataCframePp inp.pred with
    | .barred => .ok s
    | .exit => .error (s.touch, none)
    | .null => .ok s.touch
    | .made _ pp => .ok ((s.setPp pp).setElem inp.pred inp.predTag.child.length).next
  else .ok s

/-- The children of <PARA>, for a coordinated predicate. -/
def paraChildren : List Nat :=
  if inp.predTag.paraType = .normal then
    match inp.predTag.parent with
    | some p => if (inp.tag p).paraTopP then (inp.tag p).child else []
    | none => []
  else []

/-- <PARA>に係る子供 -/
def dependsOnPara (child : Nat) : Bool :=
  (inp.tag child).paraType = .nil && (inp.tag child).num < inp.predTag.num

def paraBNum (elem i : Nat) : Int :=
  if inp.has elem "係:未格" || inp.has elem "係:ノ格" then -1 else i

/-- `if (cpm_ptr->cf.element_num >= CF_ELEMENT_MAX)` -/
def checkFull (s : ArgState) : Except Stop ArgState :=
  if CF_ELEMENT_MAX ≤ s.elementNum then .error (s.reset, some (-1)) else .ok s

/-- 用言が並列のとき、格要素を expand する, from the `i`-th child on. -/
def expandPara : List Nat → Nat → ArgState → Except Stop ArgState
  | [], _, s => .ok s
  | child :: rest, i, s =>
      if inp.dependsOnPara child then
        match inp.makeDataCframePp child with
        | .barred => (checkFull s).bind (expandPara rest (i + 1))
        | .exit => .error (s.touch, none)
        | .null => (checkFull s.touch).bind (expandPara rest (i + 1))
        | .made elem pp =>
            (checkFull ((s.setPp pp).setElem elem (inp.paraBNum elem i)).next).bind
              (expandPara rest (i + 1))
      else expandPara rest (i + 1) s

/-! ## The closest element -/

/-- The loop of `get_closest_case_component`, for `k` elements from `i` on: what it returns, or the
element that is next to the predicate. -/
def closestLoop (s : ArgState) : Nat → Nat → Option Nat → Int ⊕ Option Nat
  | 0, _, best => .inr best
  | k + 1, i, best =>
      let t := inp.tag (s.elemBPtr i)
      -- 複合名詞の一部: 直前としない
      if 0 < t.inum then .inl (-1)
      -- 「〜を〜に」
      else if inp.predTag.num = t.num then .inl i
      else if s.elemBNum i > -2 ∧ t.num ≤ inp.predTag.num ∧
          (best.all fun e => (inp.tag (s.elemBPtr e)).num < t.num) = true ∧
          ¬(matchPP (s.pp i) (utf8 "φ") = true ∧ inp.has (s.elemBPtr i) "回数" = true) then
        closestLoop s k (i + 1) (some i)
      else closestLoop s k (i + 1) best

/-- `get_closest_case_component` -/
def getClosestCaseComponent (s : ArgState) : Int :=
  match inp.closestLoop s s.elementNum 0 none with
  | .inl r => r
  | .inr none => -1
  | .inr (some e) =>
      let min := (inp.tag (s.elemBPtr e)).num
      if inp.has min "指示詞" ||
          (inp.useNtt && inp.noSmCode min && matchPP (s.pp e) (utf8 "ガ")) then -2
      else if (s.pp e = -1 && (inp.predTag.num = min + 1 || (inp.predTag.num = min + 2 &&
              (inp.has (min + 1) "副詞" || inp.has (min + 1) "係:連用")))) ||
          matchPP (s.pp e) (utf8 "ヲ") || matchPP (s.pp e) (utf8 "ニ") ||
          (((0 < s.pp e && s.pp e < 9) || matchPP (s.pp e) (utf8 "マデ")) &&
            !inp.isSubject (s.elemBPtr e)) then e
      else -1

/-- A ノ格 stands in front of the tag. -/
def noInFront (t : Nat) : Bool :=
  0 < (inp.tag t).num && !inp.has ((inp.tag t).num - 1) "数量" &&
    !inp.has ((inp.tag t).num - 1) "時間" && inp.has ((inp.tag t).num - 1) "係:ノ格"

/-- 直前格要素のひとつ手前のノ格 -/
def makeNo (closest : Int) (s : ArgState) : ArgState :=
  if inp.optCaseNo && (closest > -1 && inp.noInFront (s.elemBPtr closest.toNat)) then
    let front := (inp.tag (s.elemBPtr closest.toNat)).num - 1
    let s := (s.setPp [ppMi]).setElem front (-1)
    if s.elementNum < CF_ELEMENT_MAX then s.next else s
  else s

/-- The arguments before the predicate's own tag. -/
def makeArguments (s : ArgState) : Except Stop ArgState :=
  ((inp.makeDataCframeRentai s).bind inp.makeCompound).bind
    (inp.makeChildren inp.predTag.child.reverse)

/-- The arguments, the predicate's own tag and the coordination; the arrays hold `s` before. -/
def makeElements (s : ArgState) : Except Stop ArgState :=
  ((inp.makeArguments { s with elementNum := 0, written := [], tooMany := false }).bind
    inp.makeSameBunsetsu).bind (inp.expandPara inp.paraChildren 0)

/-- `make_data_cframe` -/
def makeDataCframe (s : ArgState) : Except Stop (Int × ArgState) :=
  (inp.makeElements s).map fun s =>
    (inp.getClosestCaseComponent s, inp.makeNo (inp.getClosestCaseComponent s) s)

/-- The arrays in the end, and what is returned. -/
def result (s : ArgState) : Stop :=
  match inp.makeDataCframe s with
  | .error r => r
  | .ok (closest, s) => (s, some closest)

/-! ## What is collected -/

def rentaiArgs : Option (List Nat) :=
  match inp.rentaiElem with
  | none => some []
  | some (b, elem) => (inp.makeRentaiPp b).map fun _ => [elem]

def compoundArgs : Option (List Nat) :=
  match inp.compoundElem with
  | none => some []
  | some p =>
      if !inp.has p "外の関係" || inp.has inp.pred "用言:形" then
        (inp.makeRentaiPp inp.pred).map fun _ => [p]
      else some [p]

def childArgs : List Nat → Option (List Nat)
  | [] => some []
  | child :: rest =>
      match inp.makeDataCframePp child with
      | .exit => none
      | .made elem _ => (childArgs rest).map fun args => inp.childElem elem :: args
      | _ => childArgs rest

/-- The arguments before the predicate's own tag, unless a case is unknown. -/
def arguments : Option (List Nat) :=
  (inp.rentaiArgs.bind fun args => inp.compoundArgs.map fun new => args ++ new).bind fun args =>
    (inp.childArgs inp.predTag.child.reverse).map fun new => args ++ new

/-- The predicate's own tag is an argument. -/
def ownTag : Bool :=
  inp.has inp.pred "Ｔ用言同文節" &&
    match inp.makeDataCframePp inp.pred with
    | .made _ _ => true
    | _ => false

/-- Part of a compound, or of the predicate's own tag. -/
def endsSearch (t : Nat) : Bool := 0 < (inp.tag t).inum || inp.predTag.num = (inp.tag t).num

/-- The closest element is in the predicate's own tag. -/
def ownTagClosest (args : List Nat) : Bool :=
  ((args ++ [inp.pred]).find? inp.endsSearch).all fun t => (inp.tag t).inum = 0

/-- An argument of the coordination or a ノ格 is added behind the predicate's own tag. -/
def addsMore (args : List Nat) : Bool :=
  match inp.paraChildren.find? inp.dependsOnPara with
  | some child => inp.makeDataCframePp child ≠ .barred
  | none => inp.optCaseNo && (inp.ownTagClosest args && inp.noInFront inp.pred)

/-- The law: no index reaches the bound, and who gives up says so. -/
structure CollectLaw (s : ArgState) : Prop where
  below : ∀ k ∈ (inp.result s).1.written, k < CF_ELEMENT_MAX
  gaveUp : (inp.result s).1.tooMany = true →
    (inp.result s).1.elementNum = 0 ∧ (inp.result s).2 = some (-1)

/-- Nothing is added when the predicate's own tag has filled the arrays. -/
def Roomy : Prop :=
  ∀ args, inp.arguments = some args → args.length = CF_ELEMENT_MAX - 1 → inp.ownTag = true →
    inp.addsMore args = false

end ArgInput

end Knp
