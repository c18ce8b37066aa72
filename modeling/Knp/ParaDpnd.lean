import Knp.ParaRevision

/-!
# The dependencies inside the coordinations (`para_dpnd.c`)

`check_dpnd_in_para` visits the managers, children first. In each part of a
manager every bunsetsu must find a head; then the part is masked off. Where a
head is missing, `revise_para_kakari` (`para_revision.c`) forbids scopes of one
coordination of the manager. For Chinese the scopes are adjusted before and
tested once more after the check.

`check_feature`, the quotation matrix and the diagonals of the Chinese matrices
are functions of an environment, the other matrices are in the state. The
global `Revised_para_num` is only written here: a check returns the value it
assigns last, if any. `none` in place of a result means that the source reads
or writes outside its arrays.
-/

namespace Knp

/-- `JAPANESE`, `CHINESE`, `ENGLISH`. -/
inductive Lang
  | japanese
  | chinese
  | english
deriving DecidableEq, Repr

/-- `PARA_KEY_O` … `PARA_KEY_A`. -/
inductive ParaKey
  | o
  | n
  | p
  | i
  | a
deriving DecidableEq, Repr

/-- What the check reads. An index below 0 reads what lies before the array. -/
structure CheckEnv where
  bnstNum : Nat
  language : Lang
  optParaFix : Bool
  feature : Int → String → Bool
  quote : Nat → Nat → Bool
  /-- `Chi_np_start_matrix[i][i]` -/
  chiNpStart : Int → Int
  chiNpEnd : Int → Int
  chiQuoteStart : Int → Int
  chiQuoteEnd : Int → Int

/-- What the check changes. -/
structure CheckState where
  mask : Nat → Nat → Nat
  dpnd : Nat → Nat → Nat
  dCheck : Nat → Bool
  dFound : Nat → Bool
  restrict : RestrictMatrix
  keyType : Int → ParaKey
  manager : Nat → ParaManager

namespace ParaManager

def partNum (m : ParaManager) : Nat := m.startPos.length

def start (m : ParaManager) (k : Nat) : Nat := m.startPos.getD k 0

def stop (m : ParaManager) (k : Nat) : Nat := m.endPos.getD k 0

def setStart (m : ParaManager) (k v : Nat) : ParaManager := { m with startPos := m.startPos.set k v }

def setStop (m : ParaManager) (k v : Nat) : ParaManager := { m with endPos := m.endPos.set k v }

/-- The last part. -/
def last (m : ParaManager) : Nat := m.partNum - 1

end ParaManager

/-! ## One range of bunsetsu -/

def checkStopExtend (env : CheckEnv) (num : Nat) : Bool :=
  (env.feature num "読点" && !env.feature num "係:同格連体") ||
    env.feature num "提題" ||
    (env.feature num "係:デ格" && env.feature num "ハ")

/-- 並列構造前部を延長する基準 : 強並列 or 用言を含む -/
def paraExtendP (env : CheckEnv) (sp : ParaSentence) (m : ParaManager) : Bool :=
  (sp.paraData (m.paraDataNum.headD 0)).status = .s ||
    (List.range' (m.start 0) (m.stop 0 + 1 - m.start 0)).any fun i => env.feature i "用言"

/-- 親の並列構造がある場合の範囲延長の制限 -/
def parentRange (s : CheckState) (m : ParaManager) : Nat :=
  match m.parent with
  | none => 0
  | some p => (((s.manager p).startPos.drop 1).reverse.find? (· ≤ m.start 0)).getD 0

/-- The nearest head of bunsetsu `i` up to `stop` that is not behind a crossing. -/
def findHead (env : CheckEnv) (s : CheckState) (hikousa : Nat → Bool) (i stop : Nat) : Option Nat :=
  (List.range' (i + 1) (stop - i)).find? fun j =>
    s.mask i j ≠ 0 && env.quote i j && s.dpnd i j ≠ 0 && hikousa j

/-- The two arrays of `_check_para_d_struct` and its result so far. -/
structure RangeState where
  dFound : Nat → Bool
  hikousa : Nat → Bool
  success : Bool

/-- `hikousa_array[k] = 0` for `lo <= k < hi`. -/
def coverRange (hikousa : Nat → Bool) (lo hi : Nat) : Nat → Bool := fun k =>
  if lo ≤ k ∧ k < hi then false else hikousa k

def headStep (env : CheckEnv) (s : CheckState) (stop i : Nat) (r : RangeState) : RangeState :=
  if s.dCheck i then { r with dFound := Function.update r.dFound i true }
  else match findHead env s r.hikousa i stop with
    | some j =>
        { r with
          dFound := Function.update r.dFound i true
          hikousa := coverRange r.hikousa (i + 1) j }
    | none =>
        { dFound := Function.update r.dFound i false
          hikousa := coverRange r.hikousa (i + 1) (stop + 1)
          success := false }

/-- 並列構造前部の延長可能範囲を調べる: from bunsetsu `n - 1` downwards. -/
def extendFront (env : CheckEnv) (s : CheckState) (stop limit : Nat) :
    Nat → RangeState → (Nat → Bool) × Nat
  | 0, r => (r.dFound, 0)
  | i + 1, r =>
      if i < limit || checkStopExtend env i then (r.dFound, i + 1)
      else if s.dCheck i then
        extendFront env s stop limit i { r with dFound := Function.update r.dFound i true }
      else match findHead env s r.hikousa i stop with
        | some j =>
            extendFront env s stop limit i
              { r with
                dFound := Function.update r.dFound i true
                hikousa := coverRange r.hikousa (i + 1) j }
        | none => (r.dFound, i + 1)

/-- `_check_para_d_struct`: success, `D_found_array` and `*s_p`. -/
def checkParaDStructRange (env : CheckEnv) (s : CheckState) (str stop : Nat) (extendP : Bool)
    (limit startPos : Nat) : Bool × (Nat → Bool) × Nat :=
  let r := (List.range' str (stop - str)).reverse.foldl (fun r i => headStep env s stop i r)
    ⟨Function.update s.dFound stop true, fun _ => true, true⟩
  if extendP && r.success then
    let (dFound, startPos) := extendFront env s stop limit str r
    (r.success, dFound, startPos)
  else (r.success, r.dFound, startPos)

/-- `check_error_state`; `none` for -1. -/
def checkErrorState (m : ParaManager) (error : List Bool) : Option Nat :=
  if m.partNum = 2 then some (m.paraDataNum.headD 0)
  else if error.headD false then
    if (error.drop 1).any id then none else some (m.paraDataNum.headD 0)
  else if error.getLastD false then
    if error.dropLast.any id then none else some (m.paraDataNum.getLastD 0)
  else none

/-- 前部の制限: the scopes begin behind the last bunsetsu without a head. -/
def restrictFront (env : CheckEnv) (keyPos : Nat) (s : CheckState) : CheckState :=
  let (ok, dFound, _) := checkParaDStructRange env s 0 keyPos false 0 0
  let s := { s with dFound := dFound }
  if ok then s
  else match (List.range (keyPos + 1)).reverse.find? fun k => !s.dFound k with
    | none => s
    | some k => { s with restrict := fun i j =>
        if i ≤ k ∧ keyPos + 1 ≤ j ∧ j < env.bnstNum then 0 else s.restrict i j }

/-- 後部の制限: no scope ends at `j` if a bunsetsu up to there has no head. -/
def restrictBack (env : CheckEnv) (keyPos j : Nat) (s : CheckState) : CheckState :=
  let (ok, dFound, _) := checkParaDStructRange env s (keyPos + 1) j false 0 0
  let s := { s with dFound := dFound }
  if ok then s
  else { s with restrict := fun i j' => if i ≤ keyPos ∧ j' = j then 0 else s.restrict i j' }

/-- `revise_para_kakari` of `para_revision.c`, with the coordination it revises. -/
def reviseParaKakari (env : CheckEnv) (sp : ParaSentence) (num : Nat) (s : CheckState) :
    Option Nat × CheckState :=
  let keyPos := (sp.paraData num).keyPos
  let s := { s with restrict := fun i j =>
    if i < j ∧ j < env.bnstNum then 1 else s.restrict i j }
  (some num, Loop.upTo (keyPos + 2) env.bnstNum (restrictBack env keyPos)
    (restrictFront env keyPos s))

/-! ## The scopes of Chinese coordinations -/

namespace Chinese

def hasAny (env : CheckEnv) (i : Int) (names : List String) : Bool := names.any (env.feature i)

/-- `exist_chi` of `cky.c`, for a kind of word given by its features. -/
def existChi (env : CheckEnv) (i j : Nat) (names : List String) : Option Nat :=
  (List.range' i (j + 1 - i)).find? fun k => hasAny env k names

def verb : List String := ["VV", "VA"]

/-- Is the first word of every part a verb? Then the nouns of the key are verbs. -/
def verbKey (env : CheckEnv) (m : ParaManager) : List Nat → ParaKey → ParaKey
  | [], key => key
  | k :: ks, _ =>
      if hasAny env (m.start k) ["VV", "VA", "VC", "VE"] then verbKey env m ks .p else .n

/-- The last word of a noun coordination is a noun. -/
def shrinkEnd (env : CheckEnv) (m : ParaManager) : ParaManager :=
  match (List.range' (m.start m.last) (m.stop m.last + 1 - m.start m.last)).reverse.find?
      fun k : Nat => hasAny env k ["NN", "NR", "NT", "M", "PN"] with
  | some k => m.setStop m.last k
  | none => m

/-- The first word of a noun coordination is no verb, preposition or DEC. -/
def shrinkStart (env : CheckEnv) (m : ParaManager) : ParaManager :=
  match (List.range' (m.start 0) (m.stop 0 + 1 - m.start 0)).find?
      fun k : Nat => !hasAny env k ["VV", "VC", "VE", "VA", "P", "DEC"] with
  | some k => m.setStart 0 k
  | none => m

/-- A verb in the first part, and no DEC: the part begins behind the verb. -/
def dropVerb (env : CheckEnv) (m : ParaManager) : ParaManager :=
  match existChi env (m.start 0) (m.stop 0) verb with
  | some k =>
      if existChi env (m.start 0) (m.stop 0) ["DEC"] = none then m.setStart 0 (k + 1) else m
  | none => m

/-- A first word DEG: the scope is enlarged. -/
def enlargeDeg (env : CheckEnv) (m : ParaManager) : Option ParaManager :=
  if env.feature (m.start 0) "DEG" then
    let before : Int := m.start 0 - 1
    if env.chiNpStart before ≠ -1 then some (m.setStart 0 (env.chiNpStart before).toNat)
    else if hasAny env before ["NN", "NR", "PN"] then
      if m.start 0 = 0 then none else some (m.setStart 0 (m.start 0 - 1))
    else some (m.setStart 0 (m.start 0 + 1))
  else some m

/-- A phrase over the start of part `k` begins before the part. -/
def leftConflict (phraseStart phraseEnd : Int → Int) (m : ParaManager) (k : Nat) : Bool :=
  let s := m.start k
  (phraseStart s ≠ -1 && phraseStart s < s) &&
    (phraseEnd s ≠ -1 && phraseEnd s ≥ s && phraseEnd s ≤ m.stop k)

/-- A phrase over the end of part `k` ends behind the part. -/
def rightConflict (phraseStart phraseEnd : Int → Int) (m : ParaManager) (k : Nat) : Bool :=
  let e := m.stop k
  (phraseStart e ≠ -1 && phraseStart e ≥ m.start k) && (phraseEnd e ≠ -1 && phraseEnd e > e)

/-- The first and the last part are enlarged to the phrases they conflict with. -/
def enlargePhrase (phraseStart phraseEnd : Int → Int) (k : Nat) (m : ParaManager) : ParaManager :=
  if leftConflict phraseStart phraseEnd m k then
    if k = 0 then m.setStart k (phraseStart (m.start k)).toNat else m
  else if rightConflict phraseStart phraseEnd m k then
    if k = m.partNum - 1 then m.setStop k (phraseEnd (m.stop k)).toNat else m
  else m

/-- A proper noun before a first noun belongs to the coordination. -/
def enlargeName (env : CheckEnv) (m : ParaManager) : ParaManager :=
  if env.feature (m.start 0) "NN" && m.start 0 ≠ 0 && env.feature (m.start 0 - 1) "NR" then
    m.setStart 0 (m.start 0 - 1)
  else m

def enlargePart (env : CheckEnv) (k : Nat) (m : ParaManager) : ParaManager :=
  enlargePhrase env.chiQuoteStart env.chiQuoteEnd k
    (enlargePhrase env.chiNpStart env.chiNpEnd k (enlargeName env m))

/-- [V][CC V] becomes [V CC][V]. -/
def moveConjunction (k : Nat) (m : ParaManager) : ParaManager :=
  (m.setStop k (m.start (k + 1))).setStart (k + 1) (m.start (k + 1) + 1)

/-- A change of scope for the coordinations with a key of one type. -/
def whenKey (keyType : Int → ParaKey) (type : ParaKey) (change : ParaManager → ParaManager)
    (m : ParaManager) : ParaManager :=
  if keyType (m.stop 0) = type then change m else m

/-- The scope of a noun coordination. -/
def nounScope (env : CheckEnv) (keyType : Int → ParaKey) (m : ParaManager) : Option ParaManager :=
  let m := whenKey keyType .n (shrinkEnd env) m
  let m := whenKey keyType .n (shrinkStart env) m
  let m := whenKey keyType .n (dropVerb env) m
  if keyType (m.stop 0) = .n then enlargeDeg env m else some m

/-- The scope and the key type of a manager before its check. -/
def adjust (env : CheckEnv) (m : ParaManager) (keyType : Int → ParaKey) :
    Option (ParaManager × (Int → ParaKey)) :=
  let key : Int := m.stop 0
  let keyType :=
    if keyType key = .n then
      Function.update keyType key (verbKey env m (List.range m.paraDataNum.length) .n)
    else keyType
  (nounScope env keyType m).map fun m =>
    let m := Loop.upTo 0 m.partNum (enlargePart env) m
    (whenKey keyType .p (fun m => Loop.upTo 0 (m.partNum - 1) moveConjunction m) m, keyType)

/-- The rejections after the check: a noun coordination that begins with a
preposition, and a part in conflict with a base NP or a quote. -/
def rejects (env : CheckEnv) (m : ParaManager) (keyType : Int → ParaKey) : Bool :=
  (keyType (m.stop 0) = .n && env.feature (m.start 0) "P" &&
      !hasAny env (m.start 0 + 1) ["NN", "NR", "NT", "PN"]) ||
    (List.range m.partNum).any fun k =>
      leftConflict env.chiNpStart env.chiNpEnd m k ||
        rightConflict env.chiNpStart env.chiNpEnd m k ||
        leftConflict env.chiQuoteStart env.chiQuoteEnd m k ||
        rightConflict env.chiQuoteStart env.chiQuoteEnd m k

end Chinese

/-! ## The masks of a checked manager -/

/-- `Mask_matrix[i][j] = v` where `p i j`. -/
def fillMask (p : Nat → Nat → Bool) (v : Nat) (mask : Nat → Nat → Nat) : Nat → Nat → Nat :=
  fun i j => if p i j then v else mask i j

/-- The masks of a manager for all languages but Chinese. -/
def maskManager (env : CheckEnv) (sp : ParaSentence) (m : ParaManager) (startPos : Nat)
    (invalid : Bool) (dFound : Nat → Bool) (mask : Nat → Nat → Nat) : Nat → Nat → Nat :=
  let bn := env.bnstNum
  let z := m.last
  -- 先頭のconjunctのマスク
  let mask := fillMask (fun i j => i < startPos && m.start 0 ≤ j && j ≤ m.stop 0) 0 mask
  let mask := fillMask
    (fun i j => m.start 0 ≤ i && i ≤ m.stop 0 && m.stop 0 < j && j < bn) 0 mask
  let mask :=
    if (sp.paraData (m.paraDataNum.headD 0)).status = .s then
      fillMask (fun i j => i < m.start 0 && j = m.stop 0) 0 mask
    else mask
  -- 内部のconjunctのマスク
  let mask := Loop.upTo 1 z (fun k mask =>
    let mask := fillMask (fun i j => i < m.start k && m.start k ≤ j && j ≤ m.stop k) 0 mask
    fillMask (fun i j => m.start k ≤ i && i ≤ m.stop k && m.stop k < j && j < bn) 0 mask) mask
  -- 末尾のconjunctのマスク
  let mask := fillMask (fun i j => i < m.start z && m.start z ≤ j && j < m.stop z) 0 mask
  let mask := fillMask
    (fun i j => m.start z ≤ i && i < m.stop z && m.stop z < j && j < bn) 0 mask
  -- 並列の係り先
  let mask := Loop.upTo 0 z (fun k mask =>
    fillMask (fun i j => i = m.stop k && j = m.stop (k + 1)) 2 mask) mask
  if invalid then
    Loop.upTo 0 m.partNum (fun k mask =>
      fillMask (fun i j => m.start k ≤ i && i ≤ m.stop k && !dFound i &&
        (j = m.stop k || j = m.stop z)) 3 mask) mask
  else mask

/-- The masks of a Chinese manager: `'V'` and `'N'` mark its parts. -/
def maskChinese (env : CheckEnv) (m : ParaManager) (keyType : Int → ParaKey)
    (mask : Nat → Nat → Nat) : Nat → Nat → Nat :=
  let bn := env.bnstNum
  let z := m.last
  if keyType (m.stop 0 - 1) = .p then
    let mask :=
      if env.optParaFix then
        let mask := fillMask (fun i j => i < m.start 0 && m.start 1 + 1 ≤ j && j ≤ m.stop z) 0 mask
        fillMask (fun i j => m.start 1 + 1 ≤ i && i ≤ m.stop z && m.stop z < j && j < bn) 0 mask
      else mask
    Loop.upTo 0 m.partNum (fun k mask =>
      let mask := fillMask (fun i j => i = m.start k && j = m.stop k) 'V'.toNat mask
      if k < z then
        fillMask (fun i j => m.start k + 1 ≤ i && i < m.stop (z - 1) && j = m.stop k) 0 mask
      else mask) mask
  else if keyType (m.stop 0) = .n then
    let mask :=
      if env.optParaFix then
        let mask := fillMask (fun i j => i < m.start 0 && m.start 0 ≤ j && j < m.start z) 0 mask
        fillMask (fun i j => m.start 0 ≤ i && i < m.start z && m.stop z < j && j < bn) 0 mask
      else mask
    Loop.upTo 0 m.partNum (fun k mask =>
      let mask := fillMask (fun i j => i = m.start k && j = m.stop k) 'N'.toNat mask
      if 0 < k then
        fillMask (fun i j => i = m.start k && m.start k + 1 ≤ j && j < m.stop z) 0 mask
      else mask) mask
  else mask

/-! ## One manager -/

/-- 体言文節の働きが曖昧なものが，並列構造解析で明確になる場合の処理 -/
def overwriteDpnd (env : CheckEnv) (m : ParaManager) (dpnd : Nat → Nat → Nat) : Nat → Nat → Nat :=
  let z := m.stop m.last
  if m.status = .s && (List.range m.partNum).all fun k => env.feature (m.stop k) "体言" then
    Loop.upTo 0 m.last (fun k dpnd =>
      Loop.upTo (m.start k) (m.stop k) (fun i dpnd =>
        if i = m.stop k - 1 ∧ dpnd i (m.stop k) = dpnd (z - 1) z then dpnd
        else fillMask (fun i' j => i' = i && j = m.stop k) (dpnd i z) dpnd) dpnd) dpnd
  else dpnd

/-- The checks of all parts: `D_found_array`, `start_pos` and `error_check`. -/
def checkParts (env : CheckEnv) (sp : ParaSentence) (m : ParaManager) (s : CheckState) :
    (Nat → Bool) × Nat × List Bool :=
  (List.range m.partNum).foldl
    (fun (dFound, startPos, error) k =>
      let (ok, dFound, startPos) := checkParaDStructRange env { s with dFound := dFound }
        (m.start k) (m.stop k) (k = 0 && paraExtendP env sp m)
        (if k = 0 then parentRange s m else 0) startPos
      (dFound, startPos, error ++ [!ok]))
    (s.dFound, m.start 0, [])

/-- The check of one part after the parts before it. -/
def checkPart (env : CheckEnv) (sp : ParaSentence) (m : ParaManager) (s : CheckState)
    (r : (Nat → Bool) × Nat × List Bool) (k : Nat) : (Nat → Bool) × Nat × List Bool :=
  let c := checkParaDStructRange env { s with dFound := r.1 } (m.start k) (m.stop k)
    (k = 0 && paraExtendP env sp m) (if k = 0 then parentRange s m else 0) r.2.1
  (c.2.1, c.2.2, r.2.2 ++ [!c.1])

theorem checkParts_eq (env : CheckEnv) (sp : ParaSentence) (m : ParaManager) (s : CheckState) :
    checkParts env sp m s =
      (List.range m.partNum).foldl (checkPart env sp m s) (s.dFound, m.start 0, []) := rfl

/-- From bunsetsu `n - 1` down to the next one without a head; one more than
its number, or `start`. -/
def nextError (start : Nat) (dFound : Nat → Bool) : Nat → Nat
  | 0 => 0
  | i + 1 => if start ≤ i ∧ dFound i then nextError start dFound i else i + 1

/-- The other parts: has each one an error where the first part has one? -/
def matchErrors (dFound : Nat → Bool) (noMore : Bool) : Bool → List (Nat × Nat) → Option (List Nat)
  | _, [] => some []
  | noMoreHere, (start, pos) :: rest =>
      let e := nextError start dFound pos
      let noMoreHere := noMoreHere || e = start
      if noMore ≠ noMoreHere then none
      else (matchErrors dFound noMore noMoreHere rest).map (e :: ·)

/-- Whether the errors of the parts correspond (部分並列). The errors of the
first part only go down, so `fuel` above its end is enough. -/
def partialPara (dFound : Nat → Bool) (startPos : Nat) (starts : List Nat) :
    Nat → Nat → List Nat → Option Bool
  | 0, _, _ => none
  | fuel + 1, pos, others =>
      let e := nextError startPos dFound pos
      let noMore := e = startPos
      match matchErrors dFound noMore false (starts.zip others) with
      | none => some false
      | some es =>
          if noMore then some true
          else if e = 0 ∨ 0 ∈ es then none
          else partialPara dFound startPos starts fuel (e - 1) (es.map (· - 1))

/-- What is done about a missing head: nothing (`none`), or a revision. -/
def errorToRevise (m : ParaManager) (dFound : Nat → Bool) (startPos : Nat) (error : List Bool) :
    Option (Option Nat) :=
  if !error.any id then some none
  else if m.status ≠ .s then some (checkErrorState m error)
  else (partialPara dFound startPos (m.startPos.drop 1) (m.stop 0 + 1) (m.stop 0)
    (m.endPos.drop 1)).map fun corresponds =>
      if corresponds then none else checkErrorState m error

/-- The scope of manager `m` and the dependencies in it before the check. -/
def enterManager (env : CheckEnv) (m : Nat) (s : CheckState) : Option CheckState :=
  (if env.language = .chinese then Chinese.adjust env (s.manager m) s.keyType
    else some (s.manager m, s.keyType)).map fun (mgr, keyType) =>
      { s with
        manager := Function.update s.manager m mgr
        keyType := keyType
        dpnd := overwriteDpnd env mgr s.dpnd }

/-- 依存構造解析可能性のチェック: the coordination to revise, if any, with
`D_found_array`, `start_pos` and `invalid_flag`. -/
def checkHeads (env : CheckEnv) (sp : ParaSentence) (m : Nat) (s : CheckState) :
    Option (Option Nat × (Nat → Bool) × Nat × Bool) :=
  let (dFound, startPos, error) := checkParts env sp (s.manager m) s
  (errorToRevise (s.manager m) dFound startPos error).map fun num =>
    (num, dFound, startPos, error.any id)

/-- The end of the check: `cannnot_revise`. -/
def closeManager (env : CheckEnv) (sp : ParaSentence) (m startPos : Nat) (invalid : Bool)
    (s : CheckState) : Bool × CheckState :=
  let mgr := s.manager m
  -- チェック済みの印
  let s := { s with
    dCheck := fun k => if startPos ≤ k ∧ k < mgr.stop mgr.last then true else s.dCheck k }
  if env.language = .chinese then
    if Chinese.rejects env mgr s.keyType then (false, s)
    else (true, { s with mask := maskChinese env mgr s.keyType s.mask })
  else (true, { s with mask := maskManager env sp mgr startPos invalid s.dFound s.mask })

/-- `check_para_d_struct` after its recursion: the result, the value assigned to
`Revised_para_num`, and the state. -/
def checkManager (env : CheckEnv) (sp : ParaSentence) (m : Nat) (s : CheckState) :
    Option (Bool × Option Nat × CheckState) :=
  (enterManager env m s).bind fun s =>
    (checkHeads env sp m s).map fun (num, dFound, startPos, invalid) =>
      let s := { s with dFound := dFound }
      match num with
      | some num => (false, reviseParaKakari env sp num s)
      | none =>
          let (ok, s) := closeManager env sp m startPos invalid s
          (ok, none, s)

/-! ## All managers -/

/-- A loop over managers that ends at the first failure that is not to be
passed over. The value assigned last is kept. -/
def checkEach (check : Nat → CheckState → Option (Bool × Option Nat × CheckState))
    (passOver : Nat → List Nat → Bool) :
    List Nat → Option Nat → CheckState → Option (Bool × Option Nat × CheckState)
  | [], revised, s => some (true, revised, s)
  | m :: ms, revised, s => do
      let (ok, revised', s) ← check m s
      let revised := revised' <|> revised
      if ok || passOver m ms then checkEach check passOver ms revised s
      else return (false, revised, s)

/-- For Chinese the failure of a child counts if it is the last one. -/
def passChild (env : CheckEnv) (_ : Nat) (rest : List Nat) : Bool :=
  env.language = .chinese && !rest.isEmpty

/-- `check_para_d_struct`, to a given depth of recursion. -/
def checkParaDStruct (env : CheckEnv) (sp : ParaSentence) :
    Nat → Nat → CheckState → Option (Bool × Option Nat × CheckState)
  | 0, _, _ => none
  | depth + 1, m, s => do
      let (ok, revised, s) ← checkEach (checkParaDStruct env sp depth) (passChild env)
        (s.manager m).child none s
      if ok then
        let (ok, revised', s) ← checkManager env sp m s
        return (ok, revised' <|> revised, s)
      else return (false, revised, s)

/-- For Chinese the failure of a manager counts if it is the last of the array. -/
def passRoot (env : CheckEnv) (st : ParaState) (m : Nat) (_ : List Nat) : Bool :=
  env.language = .chinese && m + 1 ≠ st.paraMNum

/-- 初期化 of `check_dpnd_in_para`, with the managers of `st`. -/
def initCheck (env : CheckEnv) (st : ParaState) (s : CheckState) : CheckState :=
  { s with
    mask := fun i j => if i < env.bnstNum ∧ j < env.bnstNum then 1 else s.mask i j
    dCheck := fun i => if i < env.bnstNum then false else s.dCheck i
    manager := st.manager }

/-- The managers without a parent. -/
def ParaState.roots (st : ParaState) : List Nat :=
  (List.range st.paraMNum).filter fun m => (st.manager m).parent = none

/-- `check_dpnd_in_para` -/
def checkDpndInPara (env : CheckEnv) (sp : ParaSentence) (st : ParaState) (s : CheckState) :
    Option (Bool × Option Nat × CheckState) :=
  checkEach (checkParaDStruct env sp st.paraMNum) (passRoot env st) st.roots none
    (initCheck env st s)

end Knp
