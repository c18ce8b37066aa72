import Mathlib.Data.Fin.VecNotation
import Mathlib.Data.List.GetD
import Mathlib.Logic.Function.Basic
import Knp.Loop

/-!
# Relations between coordinations (`para_relation.c`)

A coordination has the scope `start .. key | key + 1 .. jend`. `para_location`
classifies two of them by a row (where the later one starts) and a column
(where the earlier one ends) of a table. `detect_para_relation` rejects a
sentence with a `REL_BAD` pair, gathers the `REL_PAR` chains into managers,
makes the managers a forest, and widens the managers to their children.

The arrays of the source are functions on indices, its counted lists
(`para_data_num`, `start`, `end`, `child`) are lists, and its pointers to
managers are indices of the array `para_manager`.
-/

namespace Knp

/-- `REL_NOT` … `REL_BAD`. -/
inductive ParaRel
  | not
  | bit
  | pre
  | pos
  | par
  | rev
  | in1
  | in2
  | bad
deriving DecidableEq, Repr

/-- The status of a coordination: `x` without a scope, `n` found, `s` strong. -/
inductive ParaStatus
  | x
  | n
  | s
deriving DecidableEq, Repr

/-- `PARA_DATA`: the scope of a coordination, its score and status. -/
structure ParaData where
  /-- `max_path[0]`, the start of the scope. -/
  start : Nat
  keyPos : Nat
  jendPos : Nat
  maxScore : Rat
  status : ParaStatus

/-- The coordinations of a sentence, in the order of their keys, and what
`detect_para_scope` leaves in them. -/
structure ParaSentence where
  bnstNum : Nat
  paraNum : Nat
  paraData : Nat → ParaData
  key_lt : ∀ i j, i < j → j < paraNum → (paraData i).keyPos < (paraData j).keyPos
  start_le : ∀ i < paraNum, (paraData i).status ≠ .x → (paraData i).start ≤ (paraData i).keyPos
  key_lt_jend : ∀ i < paraNum, (paraData i).status ≠ .x →
    (paraData i).keyPos < (paraData i).jendPos
  jend_lt : ∀ i < paraNum, (paraData i).status ≠ .x → (paraData i).jendPos < bnstNum

/-- The coordinations given as a list. -/
def ParaSentence.ofList (bnstNum : Nat) (l : List ParaData)
    (hkey : l.Pairwise fun a b => a.keyPos < b.keyPos)
    (hscope : ∀ d ∈ l, d.status ≠ .x →
      d.start ≤ d.keyPos ∧ d.keyPos < d.jendPos ∧ d.jendPos < bnstNum) : ParaSentence where
  bnstNum := bnstNum
  paraNum := l.length
  paraData i := l.getD i ⟨0, 0, 0, 0, .x⟩
  key_lt i j hij hj := by
    rw [List.getD_eq_getElem l _ hj, List.getD_eq_getElem l _ (hij.trans hj)]
    exact List.pairwise_iff_getElem.mp hkey i j (hij.trans hj) hj hij
  start_le i hi hx := by
    rw [List.getD_eq_getElem l _ hi] at hx ⊢
    exact (hscope _ (List.getElem_mem hi) hx).1
  key_lt_jend i hi hx := by
    rw [List.getD_eq_getElem l _ hi] at hx ⊢
    exact (hscope _ (List.getElem_mem hi) hx).2.1
  jend_lt i hi hx := by
    rw [List.getD_eq_getElem l _ hi] at hx ⊢
    exact (hscope _ (List.getElem_mem hi) hx).2.2

/-! ## Two coordinations -/

def relMatrixNormal : Fin 4 → Fin 4 → ParaRel :=
  ![![.bit, .pos, .bad, .in2],
    ![.pre, .par, .bad, .in2],
    ![.rev, .rev, .bad, .bad],
    ![.in1, .in1, .bad, .bad]]

def relMatrixStrong : Fin 4 → Fin 4 → ParaRel :=
  ![![.bad, .pos, .bad, .in2],
    ![.pre, .par, .bad, .in2],
    ![.rev, .rev, .bad, .bad],
    ![.in1, .in1, .bad, .bad]]

/-- `rel_pre`: where the later scope starts. -/
def relPre (a1 a2 b1 : Nat) : Fin 4 :=
  if a2 + 1 < b1 then 0 else if a2 + 1 = b1 then 1 else if a1 < b1 then 2 else 3

/-- `rel_pos`: where the earlier scope ends. -/
def relPos (a3 b2 b3 : Nat) : Fin 4 :=
  if a3 < b2 then 0 else if a3 = b2 then 1 else if a3 < b3 then 2 else 3

/-- The body of `para_location`, on the two records. -/
def location (a b : ParaData) : ParaRel :=
  if a.jendPos < b.start then .not
  else if b.status = .s then
    relMatrixStrong (relPre a.start a.keyPos b.start) (relPos a.jendPos b.keyPos b.jendPos)
  else
    relMatrixNormal (relPre a.start a.keyPos b.start) (relPos a.jendPos b.keyPos b.jendPos)

def paraLocation (sp : ParaSentence) (preNum posNum : Nat) : ParaRel :=
  location (sp.paraData preNum) (sp.paraData posNum)

/-- `para_brother_p`: the two conjuncts of a `REL_POS` pair are of comparable size. -/
def paraBrotherP (sp : ParaSentence) (preNum posNum : Nat) : Bool :=
  let preLength := (sp.paraData preNum).jendPos - (sp.paraData preNum).keyPos
  let posLength := (sp.paraData posNum).keyPos - (sp.paraData posNum).start + 1
  preLength * 3 ≤ posLength * 4

/-! ## The relation matrix -/

/-- `para_rel_matrix` -/
abbrev RelMatrix := Nat → Nat → ParaRel

def ParaSentence.live (sp : ParaSentence) (i : Nat) : Bool := (sp.paraData i).status ≠ .x

/-- The pairs `i < j` of two nested loops, in their order. -/
def orderedPairs (n : Nat) : List (Nat × Nat) :=
  (List.range n).flatMap fun i => (List.range' (i + 1) (n - (i + 1))).map fun j => (i, j)

/-- The pair at which the first pass stops, the first `REL_BAD` one. -/
def badPair (sp : ParaSentence) : Option (Nat × Nat) :=
  (orderedPairs sp.paraNum).find? fun (i, j) =>
    sp.live i && sp.live j && paraLocation sp i j = .bad

/-- 位置関係の決定 -/
def locatePass (sp : ParaSentence) (rel : RelMatrix) : RelMatrix := fun i j =>
  if i < j ∧ j < sp.paraNum ∧ sp.live i ∧ sp.live j then paraLocation sp i j else rel i j

/-- REL_POSで重なりの割合が大きい場合REL_PARに変更 -/
def brotherPass (sp : ParaSentence) (rel : RelMatrix) : RelMatrix := fun i j =>
  if i < sp.paraNum ∧ j < sp.paraNum ∧ sp.live i ∧ sp.live j ∧ rel i j = .pos ∧ paraBrotherP sp i j
  then .par else rel i j

def setRel (rel : RelMatrix) (j k : Nat) (r : ParaRel) : RelMatrix := fun a b =>
  if a = j ∧ b = k then r else rel a b

/-- 左にREL_POS，右にREL_PREの場合，その間をREL_REVに変更 -/
def revPass (sp : ParaSentence) (rel : RelMatrix) : RelMatrix :=
  Loop.upTo 1 (sp.paraNum - 1) (fun i rel =>
    if sp.live i then
      Loop.upTo 0 i (fun j rel =>
        if sp.live j ∧ rel j i = .pos then
          Loop.upTo (i + 1) sp.paraNum (fun k rel =>
            if sp.live k ∧ rel i k = .pre then setRel rel j k .rev else rel) rel
        else rel) rel
    else rel) rel

/-! ## Managers -/

/-- The status of a manager: `w` weak, `s` strong. -/
inductive ManagerStatus
  | w
  | s
deriving DecidableEq, Repr

/-- `PARA_MANAGER` -/
structure ParaManager where
  paraDataNum : List Nat
  startPos : List Nat
  endPos : List Nat
  parent : Option Nat
  child : List Nat
  status : ManagerStatus

def PARA_PART_MAX : Nat := 32

/-- What `init_para_manager` makes of a manager. -/
def emptyManager : ParaManager := ⟨[], [], [], none, [], .w⟩

/-- The state of `detect_para_relation`. -/
structure ParaState where
  rel : RelMatrix
  manager : Nat → ParaManager
  paraMNum : Nat
  managerPtr : Nat → Option Nat

/-- `init_para_manager` -/
def initParaManager (rel : RelMatrix) : ParaState := ⟨rel, fun _ => emptyManager, 0, fun _ => none⟩

def ParaState.setManager (st : ParaState) (m : Nat) (mgr : ParaManager) : ParaState :=
  { st with manager := Function.update st.manager m mgr }

/-- A new manager with the two parts of coordination `i`. -/
def openManager (sp : ParaSentence) (i : Nat) (st : ParaState) : Option ParaState :=
  let m := st.paraMNum
  let mgr := st.manager m
  let paraDataNum := mgr.paraDataNum ++ [i]
  if PARA_PART_MAX ≤ paraDataNum.length then none
  else some
    { st with
      paraMNum := m + 1
      managerPtr := Function.update st.managerPtr i (some m)
      manager := Function.update st.manager m
        { mgr with
          paraDataNum := paraDataNum
          startPos := mgr.startPos ++ [(sp.paraData i).start, (sp.paraData i).keyPos + 1]
          endPos := mgr.endPos ++ [(sp.paraData i).keyPos, (sp.paraData i).jendPos] } }

/-- Coordination `j` continues manager `m` by one part. -/
def addMember (sp : ParaSentence) (m j : Nat) (st : ParaState) : Option ParaState :=
  let mgr := st.manager m
  let paraDataNum := mgr.paraDataNum ++ [j]
  if PARA_PART_MAX ≤ paraDataNum.length then none
  else some
    { st with
      managerPtr := Function.update st.managerPtr j (some m)
      manager := Function.update st.manager m
        { mgr with
          paraDataNum := paraDataNum
          startPos := mgr.startPos ++ [(sp.paraData j).keyPos + 1]
          endPos := mgr.endPos ++ [(sp.paraData j).jendPos] } }

/-- The manager of coordination `i`, opened if need be. -/
def managerOf (sp : ParaSentence) (i : Nat) (st : ParaState) : Option (Nat × ParaState) :=
  match st.managerPtr i with
  | some m => some (m, st)
  | none => (openManager sp i st).map fun st' => (st.paraMNum, st')

/-- 兄弟関係のまとめ，MANAGERによる管理: one turn of the outer loop. -/
def groupStep (sp : ParaSentence) (i : Nat) (st : ParaState) : Option ParaState :=
  if sp.live i then
    (managerOf sp i st).bind fun (m, st) =>
      Loop.upTo? (i + 1) sp.paraNum (fun j st =>
        if sp.live j ∧ st.rel i j = .par then addMember sp m j st else some st) st
  else some st

def groupPass (sp : ParaSentence) (st : ParaState) : Option ParaState :=
  Loop.upTo? 0 sp.paraNum (groupStep sp) st

/-! ## Parents and children -/

/-- Coordination `i` belongs below coordination `j`. -/
def childRel (rel : RelMatrix) (i j : Nat) : Bool :=
  (i < j && (rel i j = .bit || rel i j = .pre || rel i j = .rev || rel i j = .in1)) ||
    (j < i && (rel j i = .pos || rel j i = .in2))

/-- The scan of two managers for the first related pair: `false` where the old
parent is below the new one, `true` where the new parent is below the old one. -/
def newIsBelow (rel : RelMatrix) (old new : List Nat) : Option Bool :=
  (old.flatMap fun i => new.map fun j => (i, j)).findSome? fun (i, j) =>
    if childRel rel i j then some false else if childRel rel j i then some true else none

/-- `delete_child` -/
def deleteChild (parent child : Nat) (st : ParaState) : ParaState :=
  st.setManager parent
    { st.manager parent with child := (st.manager parent).child.erase child }

/-- The child gets its parent, the parent its child. -/
def attach (parent child : Nat) (st : ParaState) : Option ParaState :=
  let st := st.setManager child { st.manager child with parent := some parent }
  let children := (st.manager parent).child ++ [child]
  if PARA_PART_MAX ≤ children.length then none
  else some (st.setManager parent { st.manager parent with child := children })

/-- `set_parent` -/
def setParent (parent child : Nat) (st : ParaState) : Option ParaState :=
  match (st.manager child).parent with
  | none => attach parent child st
  | some old =>
      if old = parent then some st
      else match newIsBelow st.rel (st.manager old).paraDataNum (st.manager parent).paraDataNum with
        | some true => attach parent child (deleteChild old child st)
        | _ => some st

/-- 親子関係のまとめ: one pair. A live coordination always has a manager. -/
def linkStep (sp : ParaSentence) (i j : Nat) (st : ParaState) : Option ParaState :=
  if sp.live i ∧ sp.live j ∧ childRel st.rel i j then
    (st.managerPtr i).bind fun m1 => (st.managerPtr j).bind fun m2 => setParent m2 m1 st
  else some st

def linkPass (sp : ParaSentence) (st : ParaState) : Option ParaState :=
  Loop.upTo? 0 sp.paraNum (fun i => Loop.upTo? 0 sp.paraNum (linkStep sp i)) st

/-! ## The scopes of the managers -/

def ParaManager.firstStart (m : ParaManager) : Nat := m.startPos.headD 0

def ParaManager.lastEnd (m : ParaManager) : Nat := m.endPos.getLastD 0

/-- The two corrections of a manager by its first and its last child. -/
def widen (mgr : Nat → ParaManager) (m first last : Nat) : Nat → ParaManager :=
  let mgr := if (mgr first).firstStart < (mgr m).firstStart then
      Function.update mgr m { mgr m with startPos := (mgr m).startPos.set 0 (mgr first).firstStart }
    else mgr
  if (mgr m).lastEnd < (mgr last).lastEnd then
    Function.update mgr m
      { mgr m with
        endPos := (mgr m).endPos.set ((mgr m).endPos.length - 1) (mgr last).lastEnd }
  else mgr

/-- `para_revise_scope`, to a given depth of recursion. -/
def paraReviseScope : Nat → Nat → (Nat → ParaManager) → Option (Nat → ParaManager)
  | 0, _, _ => none
  | depth + 1, m, mgr =>
      match (mgr m).child with
      | [] => some mgr
      | c :: cs =>
          ((c :: cs).foldlM (fun mgr c => paraReviseScope depth c mgr) mgr).map fun mgr =>
            widen mgr m c ((c :: cs).getLast (List.cons_ne_nil c cs))

/-- 範囲の修正: from all managers without a parent. -/
def revisePass (depth : Nat) (st : ParaState) : Option ParaState :=
  (Loop.upTo? 0 st.paraMNum (fun i mgr =>
    if (mgr i).parent = none then paraReviseScope depth i mgr else some mgr) st.manager).map
    fun mgr => { st with manager := mgr }

/-- 強並列のマーク -/
def markPass (sp : ParaSentence) (st : ParaState) : ParaState :=
  { st with
    manager := fun m =>
      if m < st.paraMNum then
        { st.manager m with
          status := if (st.manager m).paraDataNum.all fun j => (sp.paraData j).status = .s
            then .s else .w }
      else st.manager m }

/-! ## The whole analysis -/

/-- Why `detect_para_relation` returns `FALSE`. -/
inductive ParaFailure
  | relBad (pre pos : Nat)
  | tooManyPara
deriving DecidableEq, Repr

/-- `detect_para_relation` up to the scope revision. `rel` is what an earlier
sentence left in the matrix. -/
def detectManagers (sp : ParaSentence) (rel : RelMatrix) : Except ParaFailure ParaState :=
  match badPair sp with
  | some (i, j) => .error (.relBad i j)
  | none =>
      let rel := revPass sp (brotherPass sp (locatePass sp rel))
      match (groupPass sp (initParaManager rel)).bind (linkPass sp) with
      | none => .error .tooManyPara
      | some st => .ok st

/-- `detect_para_relation`; the recursion of the scope revision never goes
deeper than the number of managers. -/
def detectParaRelation (sp : ParaSentence) (rel : RelMatrix) : Except ParaFailure ParaState :=
  match detectManagers sp rel with
  | .error e => .error e
  | .ok st =>
      match revisePass st.paraMNum st with
      | none => .error .tooManyPara
      | some st => .ok (markPass sp st)

/-! ## What the tables refuse -/

theorem relMatrixStrong_eq_bad_iff (r c : Fin 4) :
    relMatrixStrong r c = .bad ↔ relMatrixNormal r c = .bad ∨ (r = 0 ∧ c = 0) := by
  revert r c
  decide

theorem relMatrixNormal_bad_col (r c : Fin 4) (h : relMatrixNormal r c = .bad) :
    c = 2 ∨ c = 3 := by
  revert r c
  decide

theorem relPre_eq_zero_iff {a1 a2 b1 : Nat} : relPre a1 a2 b1 = 0 ↔ a2 + 1 < b1 := by
  unfold relPre
  split_ifs <;> simp_all

theorem relPos_eq_zero_iff {a3 b2 b3 : Nat} : relPos a3 b2 b3 = 0 ↔ a3 < b2 := by
  unfold relPos
  split_ifs <;> simp_all

theorem relPos_eq_one_iff {a3 b2 b3 : Nat} : relPos a3 b2 b3 = 1 ↔ a3 = b2 := by
  unfold relPos
  split_ifs <;> simp_all
  omega

theorem relPos_beyond_iff {a3 b2 b3 : Nat} :
    (relPos a3 b2 b3 = 2 ∨ relPos a3 b2 b3 = 3) ↔ b2 < a3 := by
  unfold relPos
  split_ifs <;> simp_all
  all_goals omega

theorem location_eq_bad_iff (a b : ParaData) :
    location a b = .bad ↔ b.start ≤ a.jendPos ∧
      (relMatrixNormal (relPre a.start a.keyPos b.start) (relPos a.jendPos b.keyPos b.jendPos) = .bad ∨
        (b.status = .s ∧ a.keyPos + 1 < b.start ∧ a.jendPos < b.keyPos)) := by
  unfold location
  by_cases hnot : a.jendPos < b.start
  · simp [hnot]
  · by_cases hs : b.status = .s
    · simp only [hnot, hs, if_false, if_true, relMatrixStrong_eq_bad_iff, relPre_eq_zero_iff,
        relPos_eq_zero_iff]
      simp [not_lt.mp hnot]
    · simp [hnot, hs, not_lt.mp hnot]

end Knp
