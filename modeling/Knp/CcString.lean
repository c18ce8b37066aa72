import Knp.AltMrph
import Knp.CfFrame

/-!
# The text of a case analysis (`case_analysis.c`)

`record_case_analysis_result` writes what is assigned to the slots of a case
frame as one feature of the predicate: the id of the case frame, then a piece
for each slot, or several where the element is a coordination. A piece is
written by `make_cc_string`, or says that nothing is assigned.

> What is written behind the id is a colon and the pieces, with a semicolon
> between any two.

A result is `none` where the C code follows `NULL`, reads beside
`PP_str_to_code` or writes behind the end of `feature_buffer`.
-/

namespace Knp

open Scanf

def DATA_LEN : Nat := 5120

/-! ## Names of cases -/

def ppCodeToKstr (num : Int) : Option (List UInt8) :=
  if num < 0 then none else (ppStrToCode[num.toNat]?).map Prod.fst

def matchPP (n : Int) (pp : List UInt8) : Bool := n ≥ 0 && ppCodeToKstr n = some pp

/-- The case of a slot that `ppCodeToKstr` has a name for and that `ppKstrToCode` gives back. -/
def IsCase (n : Int) : Prop := 0 ≤ n ∧ n < 44

/-! ## What is written about -/

/-- `CF_PRED_MGR`: an element with the sentence it is in, if it was looked up for an omitted case. -/
structure CcElem where
  bNum : Int
  bPtr : Option Nat
  /-- `Sen_num`, and what is behind `S-ID:` in `KNPSID` -/
  sPtr : Option (Int × Option (List UInt8))

/-- A slot of the case frame; `flag` is the element that is assigned to it. -/
structure CcSlot where
  pp : Int
  oblig : Bool
  flag : Option Nat

/-- `CF_PRED_MGR` with the case frame and the assignment that were chosen. -/
structure CcResult where
  noun : Bool
  typeFlag : Bool
  cfId : List UInt8
  slots : List CcSlot
  elem : Nat → CcElem
  predBPtr : Nat

/-- A tag, or a node that stands for a coordination; pointers are numbers. -/
structure CcTag where
  num : Int
  goi2 : List UInt8
  paraNormal : Bool
  paraTop : Bool
  child : List Nat
  /-- The parent, its parent, and so on. -/
  ancestors : List Nat
  /-- 機能的基本句 -/
  kinou : Bool
  cpm : Option CcResult

structure CcOptions where
  /-- `OptDisplay == OPT_SIMPLE` -/
  simple : Bool
  printAllSlot : Bool
  postprocessPa : Bool

/-! ## Pieces -/

/-- What `make_cc_string` is called with. -/
structure CcComponent where
  word : List UInt8
  tagN : Int
  ppStr : List UInt8
  ccType : Int
  dist : Int
  sid : List UInt8

/-- 省略, 照応, 'N', 'C' -/
def ccFlag (ccType : Int) : UInt8 :=
  if ccType = -2 then 79 else if ccType = -3 then 68 else if ccType = -1 then 78 else 67

def makeCcString (simple : Bool) (c : CcComponent) : List UInt8 :=
  if c.tagN < 0 then -- 後処理により併合された基本句
    c.ppStr ++ if simple then utf8 "/-" else utf8 "/U/-/-/-/-"
  else if simple then c.ppStr ++ 47 :: c.word
  else c.ppStr ++ 47 :: ccFlag c.ccType :: 47 :: (c.word ++ 47 :: (putInt c.tagN ++
    47 :: (putInt c.dist ++ 47 :: c.sid)))

inductive CcPiece
  | unassigned (caseStr : List UInt8)
  /-- 不特定-人 -/
  | unspecified (caseStr : List UInt8)
  | component (c : CcComponent)

def CcPiece.text (simple : Bool) : CcPiece → List UInt8
  | .unassigned caseStr => caseStr ++ if simple then utf8 "/-" else utf8 "/U/-/-/-/-"
  | .unspecified caseStr =>
      caseStr ++ if simple then utf8 "/不特定:人" else utf8 "/E/不特定:人/-/-/-"
  | .component c => makeCcString simple c

section Record

variable (opts : CcOptions) (tag : Nat → CcTag)

/-- 併合された先の基本句 -/
def mergedInto : Nat → Nat
  | 0 => 0
  | p + 1 => if (tag (p + 1)).num < 0 then mergedInto p else p + 1

section Predicate

variable (senNum : Int) (sid : Option (List UInt8)) (cpm : CcResult)

def ppCodeToKstrInContext (num : Int) : Option (List UInt8) :=
  if cpm.typeFlag && matchPP num (utf8 "φ") || cpm.noun then some (utf8 "ノ") else ppCodeToKstr num

/-- `cat_case_analysis_result_parallel_child`. The branch for an element below the node of the
coordination is never taken: `!cpm_ptr->cf.type == CF_NOUN` compares 0 or 1 with 2. -/
def parallelChildren (b : Nat) (bNum dist : Int) (sid caseStr : List UInt8) : List CcPiece :=
  if (tag b).paraTop then
    ((tag b).child.tail.filter fun c => (tag c).paraNormal &&
      ((tag b).num < (tag cpm.predBPtr).num || (tag cpm.predBPtr).num < (tag c).num)).map fun c =>
        .component ⟨(tag c).goi2, (tag c).num, caseStr, bNum, dist, sid⟩
  else []

/-- The element of a slot with the case, unless it is the predicate itself. -/
def retrieveSlot (predNum target : Int) (parent : CcResult) (caseStr : List UInt8) :
    List CcSlot → Option (Option CcComponent)
  | [] => some none
  | slot :: slots =>
      match (if slot.pp = target then slot.flag else none) with
      | none => retrieveSlot predNum target parent caseStr slots
      | some num => match (parent.elem num).bPtr with
          | none => none
          | some b =>
              if (tag b).num = predNum then retrieveSlot predNum target parent caseStr slots
              else some (some ⟨(tag b).goi2, (tag b).num, caseStr, (parent.elem num).bNum, 0,
                sid.getD (utf8 "?")⟩)

/-- `_retrieve_parent_case_component` from the nodes above the predicate. -/
def retrieveFrom (predNum target : Int) (caseStr : List UInt8) :
    List Nat → Option (Option CcComponent)
  | [] => some none
  | p :: ps =>
      if (tag p).kinou then
        match (tag p).cpm with
        | none => retrieveFrom predNum target caseStr ps
        | some parent =>
            match retrieveSlot tag sid predNum target parent caseStr parent.slots with
            | none => none
            | some (some c) => some (some c)
            | some none => retrieveFrom predNum target caseStr ps
      else some none

/-- `retrieve_parent_case_component`: 「ガ」のときはまず「ガ２」を探しにいく -/
def retrieveParent (pred : Nat) (target : Int) (caseStr : List UInt8) :
    Option (Option CcComponent) :=
  match (if matchPP target (utf8 "ガ") then
      retrieveFrom tag sid (tag pred).num 42 caseStr (tag pred).ancestors else some none) with
  | none => none
  | some (some c) => some (some c)
  | some none => retrieveFrom tag sid (tag pred).num target caseStr (tag pred).ancestors

/-- `find_aligned_case`; `none` for `END_M`. -/
def findAlignedCase (cfAlign : List (Int × Option Int)) (srcCase : Int) : Option Int :=
  (cfAlign.lookup srcCase).getD (some srcCase)

/-- 割り当てなし: the parent's component, where it is asked for and there is one. -/
def unassignedPieces (caseNum : Int) (caseStr : List UInt8) : Option (List CcPiece) :=
  let pred := mergedInto tag cpm.predBPtr
  match (if opts.postprocessPa && !(tag pred).kinou then
      retrieveParent tag sid pred caseNum caseStr else some none) with
  | none => none
  | some (some c) => some [.component c]
  | some none => some [.unassigned caseStr]

/-- 省略の場合: the sentence of the element; 同文内: this one. -/
def elemSentence (e : CcElem) : Int × Option (List UInt8) :=
  if e.bNum ≤ -2 then e.sPtr.getD (senNum, sid) else (senNum, sid)

/-- 後処理により併合された基本句: the number of what it was merged into, unless that is not before the
predicate. -/
def printedNum (b : Nat) : Int :=
  if (tag b).num < 0 ∧ (tag (mergedInto tag b)).num ≥ (tag (mergedInto tag cpm.predBPtr)).num then -1
  else (tag (mergedInto tag b)).num

/-- 割り当てあり: 例外タグ; or the parallel children, with the slot's own case, and the element. -/
def assignedPieces (e : CcElem) (slotStr caseStr : List UInt8) : Option (List CcPiece) :=
  if e.bNum ≤ -2 ∧ e.sPtr = none then some [.unspecified caseStr]
  else e.bPtr.map fun b =>
    let sent := elemSentence senNum sid e
    let dist := senNum - sent.1
    parallelChildren tag cpm b e.bNum dist (sent.2.getD (utf8 "?")) slotStr ++
      [.component ⟨(tag (mergedInto tag b)).goi2, printedNum tag cpm b, caseStr, e.bNum, dist,
        sent.2.getD (utf8 "?")⟩]

/-- The pieces for one slot. -/
def slotPieces (cfAlign : Option (List (Int × Option Int))) (slot : CcSlot) :
    Option (List CcPiece) :=
  match (match cfAlign with
      | none => some slot.pp
      | some cfAlign => findAlignedCase cfAlign slot.pp) with
  | none => some []
  | some caseNum =>
      (ppCodeToKstrInContext cpm caseNum).bind fun caseStr => match slot.flag with
        | some num => (ppCodeToKstrInContext cpm slot.pp).bind fun slotStr =>
            assignedPieces tag senNum sid cpm (cpm.elem num) slotStr caseStr
        | none =>
            if cfAlign.isNone && (opts.printAllSlot || slot.oblig &&
                !matchPP slot.pp (utf8 "修飾") && !matchPP slot.pp (utf8 "外の関係")) then
              unassignedPieces opts tag sid cpm caseNum caseStr
            else some []

/-- The separator and the pieces of a slot; the flag says that nothing is written yet. -/
def appendPieces (st : List UInt8 × Bool) : List CcPiece → List UInt8 × Bool
  | [] => st
  | p :: ps => (st.1 ++ (if st.2 then 58 else 59) :: (p.text opts.simple ++
      ps.flatMap fun q => 59 :: q.text opts.simple), false)

/-- The pieces for all slots. -/
def casePieces (cfAlign : Option (List (Int × Option Int))) : Option (List CcPiece) :=
  (cpm.slots.mapM (slotPieces opts tag senNum sid cpm cfAlign)).map List.flatten

/-- `record_case_analysis_result`: the text of the feature. -/
def recordCaseAnalysisResult (featureHead : List UInt8)
    (cfAlign : Option (List UInt8 × List (Int × Option Int))) : Option (List UInt8) :=
  let head := featureHead ++ if opts.simple then [] else
    58 :: (match cfAlign with | none => cpm.cfId | some a => a.1)
  (cpm.slots.mapM (slotPieces opts tag senNum sid cpm (cfAlign.map Prod.snd))).bind fun pieces =>
    let text := (pieces.foldl (appendPieces opts) (head, true)).1
    if text.length < DATA_LEN then some text else none

end Predicate

end Record

/-! ## Separators -/

/-- Pieces with a semicolon between any two. -/
def joinPieces (simple : Bool) : List CcPiece → List UInt8
  | [] => []
  | p :: ps => p.text simple ++ ps.flatMap fun q => 59 :: q.text simple

theorem appendPieces_append (opts : CcOptions) (st : List UInt8 × Bool) (ps qs : List CcPiece) :
    appendPieces opts (appendPieces opts st ps) qs = appendPieces opts st (ps ++ qs) := by
  cases ps with
  | nil => rfl
  | cons p ps =>
      cases qs with
      | nil => simp [appendPieces]
      | cons q qs => simp [appendPieces]

theorem foldl_appendPieces (opts : CcOptions) : ∀ (pieces : List (List CcPiece))
    (st : List UInt8 × Bool), pieces.foldl (appendPieces opts) st = appendPieces opts st pieces.flatten
  | [], _ => rfl
  | ps :: pieces, st => by
      rw [List.foldl_cons, foldl_appendPieces opts pieces, appendPieces_append, List.flatten_cons]

theorem appendPieces_of_ne_nil (opts : CcOptions) (head : List UInt8) {ps : List CcPiece}
    (h : ps ≠ []) : (appendPieces opts (head, true) ps).1 = head ++ 58 :: joinPieces opts.simple ps := by
  obtain ⟨p, ps, rfl⟩ := List.exists_cons_of_ne_nil h
  rfl

end Knp
