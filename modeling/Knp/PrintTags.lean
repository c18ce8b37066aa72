import Knp.Layout
import Knp.TreeConv
import Mathlib.Logic.Function.Basic

/-!
# The printed parse (`lib_print.c`)

`print_tags` goes through the tags twice. The first pass numbers the lines: the
nodes that are inserted before a bunsetsu for persons that are not expressed, the
two parts of a tag that is split before its copula, and the tags themselves. The
second pass prints them, with the heads in the new numbers.

> Both passes give a tag the same line.

The tables are not initialised, and index -1, of a tag or a bunsetsu that was
merged into the one before it, lies in front of them.
-/

namespace Knp

/-- A tag as `print_tags` sees it. -/
structure PrintTag where
  /-- -1: 後処理でマージされたタグ -/
  num : Int
  /-- The number of the bunsetsu that starts here, or -1. -/
  bnum : Int
  bPtr : Nat
  dpndHead : Int
  /-- Ｔ基本句分解 -/
  bunkai : Bool
  /-- The number of morphemes before the one with 後処理-基本句始. -/
  independent : Nat
  /-- 連体修飾, 係:隣 or 係:文節内 -/
  rentai : Bool
  paraNil : Bool
  /-- The number of `search_nearest_para_child` of the parent. -/
  nearestParaChild : Option Int
deriving Inhabited

/-- A bunsetsu, with the number of its last tag and how many features 格要素-..:＃ that has. -/
structure PrintBnst where
  num : Int
  dpndHead : Int
  headNum : Int
  recovered : Nat

structure PrintInput where
  optRecoverPerson : Bool
  optCopula : Bool
  tags : List PrintTag
  bnst : Nat → PrintBnst

/-- What is in `t_table` and `b_table` before they are written. -/
structure PrintMemory where
  tTable : Int → Int
  bTable : Int → Int

inductive PrintedLine
  /-- 文節行 -/
  | star (head : Int)
  /-- A `+` line, with the number of the tag if it is not an additional one. -/
  | plus (head : Int) (num : Option Int)
deriving DecidableEq

/-- The tags that were not merged. -/
def PrintInput.kept (inp : PrintInput) : List PrintTag := inp.tags.filter (·.num ≠ -1)

/-- 追加ノード: how many are inserted before a tag; `preBp` is the bunsetsu of the tag before. -/
def PrintInput.nodesBefore (inp : PrintInput) (preBp : Option Nat) (t : PrintTag) : Nat :=
  if inp.optRecoverPerson && preBp ≠ some t.bPtr then (inp.bnst t.bPtr).recovered else 0

/-! ## The first pass -/

/-- The tables; `t_copula_table` up to `count`. -/
structure PrintTables where
  tTable : Int → Int
  bTable : Int → Int
  copula : List Bool
  bCount : Nat
  preBp : Option Nat

def numberTag (inp : PrintInput) (st : PrintTables) (t : PrintTag) : PrintTables :=
  let k := inp.nodesBefore st.preBp t
  -- 新しいテーブルにおける基本句分解の位置を記録
  let copula := st.copula ++ List.replicate k false ++ if t.bunkai then [false] else []
  { tTable := Function.update st.tTable t.num copula.length
    copula := copula ++ [t.bunkai]
    bTable := if 0 ≤ t.bnum then Function.update st.bTable t.bnum (st.bCount + k : Nat) else st.bTable
    bCount := st.bCount + k + if 0 ≤ t.bnum then 1 else 0
    preBp := some t.bPtr }

/-- ノードの挿入を考慮しながら、基本句、文節の変換テーブルを作成 -/
def numberTags (inp : PrintInput) (mem : PrintMemory) : PrintTables :=
  inp.kept.foldl (numberTag inp) ⟨mem.tTable, mem.bTable, [], 0, none⟩

/-! ## The second pass -/

structure PrintState where
  count : Nat
  preBp : Option Nat
  /-- `t_proj_table`: 非交差条件チェック用 -/
  proj : Int → Int
  out : List PrintedLine

/-- The head of an additional node at line `count`: the last tag of the bunsetsu, or less under
非交差条件. -/
def nodeHead (tables : PrintTables) (proj : Int → Int) (b : PrintBnst) (count : Nat) : Int :=
  if proj count ≠ 0 ∧ proj count < tables.tTable b.headNum then proj count
  else tables.tTable b.headNum

/-- The head of a tag. 判定詞分解時: 連体修飾は判定詞の前の名詞に係るように修正 -/
def printedHead (inp : PrintInput) (tables : PrintTables) (proj : Int → Int) (t : PrintTag) : Int :=
  let head := if t.dpndHead = -1 then -1 else tables.tTable t.dpndHead
  let line := tables.tTable t.num
  if inp.optCopula ∧ head ≠ -1 ∧ tables.copula.getD head.toNat false ∧ line < head - 1 ∧
      (t.rentai ∧ (t.paraNil ∨ t.nearestParaChild = some t.num) ∨
        proj line ≠ 0 ∧ proj line < head) then head - 1
  else head

/-- 文節行 -/
def starLine (tables : PrintTables) (b : PrintBnst) (t : PrintTag) : List PrintedLine :=
  if 0 ≤ t.bnum then [.star (if b.dpndHead = -1 then -1 else tables.bTable b.dpndHead)] else []

/-- The lines of a tag. -/
def tagLines (inp : PrintInput) (tables : PrintTables) (st : PrintState) (t : PrintTag) :
    List PrintedLine :=
  let b := inp.bnst t.bPtr
  -- 追加ノード
  ((List.range (inp.nodesBefore st.preBp t)).flatMap fun j =>
    [.star (tables.bTable b.num), .plus (nodeHead tables st.proj b (st.count + j)) none]) ++
  -- 判定詞(-copula)の基本句を分解するとき
  (if t.bunkai then starLine tables b t ++ [.plus (tables.tTable t.num) none] else []) ++
  -- 文節行, unless morphemes were printed before the copula
  (if t.bunkai ∧ t.independent ≠ 0 then [] else starLine tables b t) ++
  [.plus (printedHead inp tables st.proj t) (some t.num)]

def printTag (inp : PrintInput) (tables : PrintTables) (st : PrintState) (t : PrintTag) :
    PrintState where
  count := st.count + inp.nodesBefore st.preBp t + (if t.bunkai then 1 else 0) + 1
  preBp := some t.bPtr
  proj := Layout.record st.proj (tables.tTable t.num) (printedHead inp tables st.proj t)
  out := st.out ++ tagLines inp tables st t

/-- `print_tags` with `flag == 1`; `none` where the tables are too short. -/
def printTags (inp : PrintInput) (mem : PrintMemory) : Option (List PrintedLine) :=
  let tables := numberTags inp mem
  if tables.copula.length ≤ TAG_MAX then
    some (inp.kept.foldl (printTag inp tables) ⟨0, none, fun _ => 0, []⟩).out
  else none

/-! ## What is printed -/

def PrintedLine.plus? : PrintedLine → Option (Int × Option Int)
  | .star _ => none
  | .plus head num => some (head, num)

def PrintedLine.star? : PrintedLine → Option Int
  | .star head => some head
  | .plus _ _ => none

/-- The `+` lines, which are numbered from 0. -/
def plusLines (out : List PrintedLine) : List (Int × Option Int) := out.filterMap PrintedLine.plus?

/-- The `*` lines, which are numbered from 0. -/
def starLines (out : List PrintedLine) : List Int := out.filterMap PrintedLine.star?

/-- The heads of the tags that are printed. -/
def PrintInput.heads (inp : PrintInput) : List Int := inp.kept.map (·.dpndHead)

/-- The printed parse is consistent with itself and with the first pass. -/
structure SelfConsistent (inp : PrintInput) (tables : PrintTables) (out : List PrintedLine) :
    Prop where
  total : (plusLines out).length = tables.copula.length
  numbered : ∀ (c : Nat) h x, (plusLines out)[c]? = some (h, some x) → tables.tTable x = c
  plusHead : ∀ (c : Nat) h x, (plusLines out)[c]? = some (h, x) →
    h = -1 ∨ (c : Int) < h ∧ h < (plusLines out).length
  starHead : ∀ (c : Nat) h, (starLines out)[c]? = some h →
    h = -1 ∨ (c : Int) < h ∧ h < (starLines out).length
  arcs : Layout.RightHeaded inp.heads → Layout.NonCrossing inp.heads →
    Layout.RightHeaded ((plusLines out).map Prod.fst) ∧
      Layout.NonCrossing ((plusLines out).map Prod.fst)

end Knp
