import Mathlib.Algebra.BigOperators.Intervals
import Mathlib.Algebra.Order.Ring.Int
import Knp.FirstBest
import Knp.ParaDpnd

/-!
# The scores of scopes (`dp_search_scope` of `para_analysis.c`)

For a key and the end of a scope, a dynamic program fills the columns from the
end down to the one behind the key. A cell of a column takes over the cell of
the same row beside it, or the best cell below it, with what the similarity of
the two bunsetsu gives and what the steps cost. Only the bottom row has a start
in the last column; the other rows start with `- PENA_MAX` there, and without a
back-pointer.

> The scores are the greatest sums of the row paths. The back-pointers lead along
> the first of the best paths; they end at `START_HERE` in the last column as long
> as that path does not come from one of the other rows.
-/

namespace Knp

/-- What the analysis of coordinations reads of a sentence. -/
structure ParaText where
  bnstNum : Nat
  language : Lang
  /-- `check_feature` of a bunsetsu -/
  feature : Nat → String → Option String
  spLevel : Nat → Int
  /-- `match_matrix` -/
  matchScore : Nat → Nat → Int
  /-- `quote_data`: the brackets by their first and last bunsetsu -/
  quoteData : List (Nat × Nat)
  /-- `OptInput & OPT_INPUT_PARSED` -/
  optInputParsed : Bool
  /-- `dpnd_head` of a key, where the input is parsed -/
  dpndHead : Nat → Nat

/-! The constants of the file. -/

def PENALTY : Int := 1

def BONUS : Int := 2

def MINUS : Int := 7

def PENA_MAX : Int := 1000

def START_HERE : Int := -1

namespace ParaText

def has (t : ParaText) (i : Nat) (name : String) : Bool := (t.feature i name).isSome

end ParaText

/-! ## Penalties -/

/-- パスのスコア計算において区切りペナルティをcancelする条件 -/
def bnstMatch (t : ParaText) (pos1 pos2 : Nat) : Bool :=
  match t.feature pos1 "係", t.feature pos2 "係" with
  | some cp1, some cp2 =>
      cp1 == cp2 && t.has pos1 "用言" == t.has pos2 "用言" &&
        (!t.has pos1 "用言" ||
          match t.feature pos1 "ID", t.feature pos2 "ID" with
          | some id1, some id2 => id1 == id2
          | _, _ => false) &&
        t.has pos1 "読点" == t.has pos2 "読点"
  | _, _ => false

def calcStaticLevelPenalty (t : ParaText) (keyPos pos : Nat) : Int :=
  let level1 := t.spLevel keyPos
  let level2 := t.spLevel pos
  if level1 ≤ level2 then MINUS * (level2 - level1 + 1) else 0

/-- `penalty_table`, as `detect_para_scope` fills it. -/
def penaltyTableOf (t : ParaText) (keyPos : Nat) : Nat → Int := fun k =>
  if k = keyPos then 0 else calcStaticLevelPenalty t keyPos k

def calcDynamicLevelPenalty (t : ParaText) (penaltyTable : Nat → Int) (keyPos pos1 pos2 : Nat) :
    Int :=
  if t.spLevel pos1 = t.spLevel pos2 ∧ bnstMatch t pos1 pos2 = true ∧
      bnstMatch t pos1 keyPos = false then 0
  else if t.has pos1 "提題" && t.has pos2 "提題" then 0
  else penaltyTable pos1 + penaltyTable pos2

/-! ## The dynamic program -/

/-- `score_matrix`, `prepos_matrix`, `maxpos_array` and `maxsco_array`. -/
structure DpState where
  score : Nat → Nat → Int
  prepos : Nat → Nat → Int
  maxpos : Nat → Nat
  maxsco : Nat → Int

def setEntry (m : Nat → Nat → Int) (i j : Nat) (v : Int) : Nat → Nat → Int := fun i' j' =>
  if i' = i ∧ j' = j then v else m i' j'

/-- 最右列の処理 -/
def lastColumn (t : ParaText) (iendPos jendPos : Nat) (s : DpState) : DpState :=
  Loop.down 0 iendPos (fun i s => { s with score := setEntry s.score i jendPos (-PENA_MAX) })
    { s with
      score := setEntry s.score iendPos jendPos (t.matchScore iendPos jendPos)
      prepos := setEntry s.prepos iendPos jendPos START_HERE }

def scoreUpward (t : ParaText) (penaltyTable : Nat → Int) (keyPos i j : Nat) (s : DpState) : Int :=
  if t.language = .chinese then t.matchScore i j + s.maxsco (i + 1)
  else t.matchScore i j + s.maxsco (i + 1) - calcDynamicLevelPenalty t penaltyTable keyPos i j

def scoreSideway (t : ParaText) (penaltyTable : Nat → Int) (i j : Nat) (s : DpState) : Int :=
  if t.language = .chinese then s.score i (j + 1) - PENALTY
  else s.score i (j + 1) - PENALTY - penaltyTable j

/-- 中国語で並列のキーが後部の先頭の場合の例外処理 -/
def keyColumn (t : ParaText) (j : Nat) : Bool :=
  t.language = .chinese && (t.has j "CC" || t.has j "PU")

/-- 他の行の処理:下からと左からのスコアを比較 -/
def scoreCell (t : ParaText) (penaltyTable : Nat → Int) (keyPos j i : Nat) (s : DpState) :
    DpState :=
  if keyColumn t j then
    { s with
      score := setEntry s.score i j (scoreSideway t penaltyTable i j s)
      prepos := setEntry s.prepos i j i }
  else if scoreSideway t penaltyTable i j s ≤ scoreUpward t penaltyTable keyPos i j s then
    { s with
      score := setEntry s.score i j (scoreUpward t penaltyTable keyPos i j s)
      prepos := setEntry s.prepos i j (s.maxpos (i + 1)) }
  else
    { s with
      score := setEntry s.score i j (scoreSideway t penaltyTable i j s)
      prepos := setEntry s.prepos i j i }

/-- A column further left, from the bottom row on. -/
def innerColumn (t : ParaText) (penaltyTable : Nat → Int) (keyPos iendPos j : Nat) (s : DpState) :
    DpState :=
  Loop.down 0 iendPos (scoreCell t penaltyTable keyPos j)
    { s with
      score := setEntry s.score iendPos j (s.score iendPos (j + 1) - PENALTY - penaltyTable j)
      prepos := setEntry s.prepos iendPos j iendPos }

/-- What a row that is passed costs. -/
def rowCost (t : ParaText) (penaltyTable : Nat → Int) (i : Nat) : Int :=
  if t.language = .chinese then PENALTY else PENALTY + penaltyTable i

/-- A row of the loop for the next column, with `current_max`. -/
def maxRow (t : ParaText) (penaltyTable : Nat → Int) (j i : Nat) (x : Int × DpState) :
    Int × DpState :=
  let currentMax := x.1 - rowCost t penaltyTable i
  if currentMax ≤ x.2.score i j then
    (x.2.score i j,
      { x.2 with
        maxpos := Function.update x.2.maxpos i i
        maxsco := Function.update x.2.maxsco i (x.2.score i j) })
  else
    (currentMax,
      { x.2 with
        maxpos := Function.update x.2.maxpos i (x.2.maxpos (i + 1))
        maxsco := Function.update x.2.maxsco i currentMax })

/-- 次の列のために最大値，最大位置を計算 -/
def columnMax (t : ParaText) (penaltyTable : Nat → Int) (iendPos j : Nat) (s : DpState) :
    DpState :=
  (Loop.down 0 iendPos (maxRow t penaltyTable j)
    (s.score iendPos j,
      { s with
        maxpos := Function.update s.maxpos iendPos iendPos
        maxsco := Function.update s.maxsco iendPos (s.score iendPos j) })).2

def dpColumn (t : ParaText) (penaltyTable : Nat → Int) (keyPos iendPos jendPos j : Nat)
    (s : DpState) : DpState :=
  columnMax t penaltyTable iendPos j
    (if j = jendPos then lastColumn t iendPos jendPos s
    else innerColumn t penaltyTable keyPos iendPos j s)

/-- ＤＰマッチング -/
def dpSearchScope (t : ParaText) (penaltyTable : Nat → Int) (keyPos iendPos jendPos : Nat)
    (s : DpState) : DpState :=
  Loop.down (keyPos + 1) (jendPos + 1) (dpColumn t penaltyTable keyPos iendPos jendPos) s

/-- The loop of `_detect_para_scope` along the back-pointers, from row `row` of
column `col` through at most `n` columns: the rows, and the column of
`START_HERE`. `none` means that it leaves the matrix. -/
def tracePath (prepos : Nat → Nat → Int) : Nat → Nat → Nat → Option (List Nat × Nat)
  | 0, _, _ => none
  | n + 1, row, col =>
      if prepos row col = START_HERE then some ([row], col)
      else if prepos row col < 0 then none
      else (tracePath prepos n (prepos row col).toNat (col + 1)).map fun x => (row :: x.1, x.2)

/-! ## The sums of row paths -/

/-- From row `r` of column `j` a path goes on in the same row, or further down. -/
def Moves (t : ParaText) (iendPos j r r' : Nat) : Prop :=
  r' ≤ iendPos ∧ (r' = r ∨ r < r' ∧ keyColumn t j = false)

/-- What passing the rows from `lo` to `hi` costs. -/
def passCost (t : ParaText) (penaltyTable : Nat → Int) (lo hi : Nat) : Int :=
  ∑ k ∈ Finset.Ico lo hi, rowCost t penaltyTable k

/-- What the step from row `r` of column `j` to row `r'` of the next one gives. -/
def gain (t : ParaText) (penaltyTable : Nat → Int) (keyPos iendPos j r r' : Nat) : Int :=
  if r' = r then
    -PENALTY - (if t.language = .chinese ∧ r ≠ iendPos then 0 else penaltyTable j)
  else
    t.matchScore r j -
      (if t.language = .chinese then 0 else calcDynamicLevelPenalty t penaltyTable keyPos r j) -
      passCost t penaltyTable (r + 1) r'

/-- What a row starts with in the last column. -/
def startSum (t : ParaText) (iendPos jendPos r : Nat) : Int :=
  if r = iendPos then t.matchScore iendPos jendPos else -PENA_MAX

/-- From row `r` a path to row `a` is preferred to one as good to row `b`:
downwards before sidewards, and to the next row first. -/
def Prefers (r a b : Nat) : Prop := r < a ∧ (b = r ∨ a < b)

theorem Prefers.asymm (r a b : Nat) (h : Prefers r a b) : ¬ Prefers r b a := by
  unfold Prefers at *
  omega

/-- The row paths from column `j` to the end. -/
abbrev RowPath (t : ParaText) (iendPos jendPos j : Nat) (path : List Nat) : Prop :=
  FirstBest.IsPath (· ≤ iendPos) (Moves t iendPos) jendPos j path

abbrev rowSum (t : ParaText) (penaltyTable : Nat → Int) (keyPos iendPos jendPos j : Nat)
    (path : List Nat) : Int :=
  FirstBest.pathSum (startSum t iendPos jendPos) (gain t penaltyTable keyPos iendPos) j path

/-- The path is the first of the best ones from its cell. -/
abbrev FirstPath (t : ParaText) (penaltyTable : Nat → Int) (keyPos iendPos jendPos j : Nat)
    (path : List Nat) : Prop :=
  FirstBest.First (· ≤ iendPos) (Moves t iendPos) Prefers (startSum t iendPos jendPos)
    (gain t penaltyTable keyPos iendPos) jendPos j path

end Knp
