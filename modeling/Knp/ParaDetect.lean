import Mathlib.Algebra.Order.Field.Rat
import Knp.ParaPath

/-!
# The scope of a coordination (`detect_para_scope` of `para_analysis.c`)

For each end of the scope in turn the best row of the scores is sought; what is
found is recorded in the coordination if it passes the threshold and is better
than what is there.

> The coordination is left without a scope if and only if no end passes. Else it
> has the best of the ends that pass, the first one of several; its recorded end
> is what the back-pointers lead to.

The arithmetic of `float` is only rounded and compared: it is a parameter.
-/

namespace Knp

/-- The values of type `float`, and the operations on them. -/
structure ScoreArith (F : Type*) [LinearOrder F] where
  /-- A literal, or a number that is read from a rule. -/
  ofRat : Rat → F
  /-- `(float)score / norm` -/
  div : Int → Rat → F
  /-- `+` with a bonus -/
  add : F → Int → F
  ofRat_lt : ∀ {p q : Rat}, p < q → ofRat p < ofRat q
  /-- A bonus is not lost by rounding. -/
  lt_add : ∀ x, x < add x BONUS

/-- Exact arithmetic. -/
def ratArith : ScoreArith Rat where
  ofRat := id
  div score norm := score / norm
  add x b := x + b
  ofRat_lt h := h
  lt_add x := by
    have : (0 : Rat) < (BONUS : Int) := by decide
    exact lt_add_of_pos_right x this

def ENOUGH_MINUS : Rat := -100

def STRONG_PARA_TH : Rat := 39 / 10

/-- The table `norm`. -/
def norm : List Rat :=
  [1, 1, 1.59, 2.08, 2.52, 2.92, 3.30, 3.66, 4.00, 4.33,
    4.64, 4.95, 5.24, 5.53, 5.81, 6.08, 6.35, 6.61, 6.87, 7.12,
    7.37, 7.61, 7.85, 8.09, 8.32, 8.55, 8.78, 9.00, 9.22, 9.44,
    9.65, 9.87, 10.08, 10.29, 10.50, 10.70, 10.90, 11.10, 11.30, 11.50,
    11.70, 11.89, 12.08, 12.27, 12.46, 12.65, 12.84, 13.02, 13.21, 13.39]

/-- An entry of `norm`; outside the table it is what lies there. -/
def normAt (beyond : Int → Rat) (k : Int) : Rat :=
  if 0 ≤ k then norm.getD k.toNat (beyond k) else beyond k

/-- A condition for the end of the scope (`f_pattern`). -/
structure ScopePattern (F : Type*) where
  /-- `feature_AND_match` for an end of the scope -/
  andMatch : Nat → Bool
  /-- the number of `&ST:` -/
  st : Option F

/-- The key of a coordination. -/
structure ScopeKey (F : Type*) where
  keyPos : Nat
  iendPos : Nat
  type : ParaKey
  fPattern : List (ScopePattern F)

/-- What is found for a key. -/
structure ScopeData (F : Type*) where
  status : ParaStatus
  maxScore : F
  pureScore : F
  /-- `max_path[0]` -/
  start : Int
  /-- `max_path` and `jend_pos` -/
  path : Option (List Nat × Nat)

/-- The state of the analysis, with the indices into `norm` so far. -/
structure DetectState (F : Type*) where
  dp : DpState
  data : ScopeData F
  reads : List Int

/-! ## Bonus and threshold -/

def calcStartingBonusScore (t : ParaText) (istartPos : Nat) (type : ParaKey) : Int :=
  match type with
  | .n => if t.has istartPos "名並始点" then BONUS else 0
  | .p => if t.has istartPos "述並始点" then BONUS else 0
  | _ => 0

def calcEndingBonusScore (t : ParaText) (keyPos jendPos : Nat) (type : ParaKey) : Int :=
  match type with
  | .n =>
      if t.has keyPos "係:ト格" && t.has jendPos "Ｔ名並終点〜と〜と" then BONUS
      else if t.has jendPos "Ｔ名並終点" then BONUS
      else 0
  | .p => if t.has jendPos "Ｔ述並終点" then BONUS else 0
  | _ => 0

section Detect

variable {F : Type*} [LinearOrder F] (t : ParaText) (ar : ScoreArith F) (beyond : Int → Rat)
  (key : ScopeKey F)

/-- 条件があれば，マッチするものの中で最低の閾値に -/
def simThreshold (jendPos : Nat) : Option F :=
  if key.fPattern.isEmpty then some (ar.ofRat 0)
  else
    let simThreshold := key.fPattern.foldl (fun th fp =>
      if fp.andMatch jendPos then
        let newThreshold := fp.st.getD (ar.ofRat 0)
        if newThreshold < th then newThreshold else th
      else th) (ar.ofRat 100)
    if simThreshold = ar.ofRat 100 then none else some simThreshold

/-- スタート位置(jend_pos)からの解析を本当に行うかどうか: the threshold, if so. -/
def admitted (restrict : RestrictMatrix) (jendPos : Nat) : Option F :=
  if t.matchScore key.iendPos jendPos = 0 then none
  else if (List.range (key.iendPos + 1)).all fun i => restrict i jendPos = 0 then none
  else if key.keyPos + 1 = jendPos ∧ t.has jendPos "指示詞" = true then none
  else simThreshold ar key jendPos

/-- The loop over the rows: the best score so far, and the indices into `norm`. -/
structure RowState (F : Type*) where
  maxScore : F
  pureScore : F
  maxPos : Int
  reads : List Int

/-- In Chinese the column of the key is passed over. -/
def scoreColumn : Nat := if t.language = .chinese then key.keyPos + 2 else key.keyPos + 1

/-- The score of a row without the bonus. -/
def pureScoreOf (dp : DpState) (jendPos i : Nat) : F :=
  ar.div (dp.score i (scoreColumn t key)) (normAt beyond ((jendPos : Int) - i + 1))

/-- In Chinese a row with the mark of a start adds to the best score instead. -/
def chineseStart (i : Nat) : Bool :=
  t.language = .chinese && calcStartingBonusScore t i key.type ≠ 0

def currentScore (dp : DpState) (jendPos i : Nat) (maxScore : F) : F :=
  if chineseStart t key i then ar.add maxScore (calcStartingBonusScore t i key.type)
  else ar.add (ar.add (pureScoreOf t ar beyond key dp jendPos i)
    (calcStartingBonusScore t i key.type)) (calcEndingBonusScore t key.keyPos jendPos key.type)

/-- 最大パスの検出: one row. -/
def rowStep (dp : DpState) (restrict : RestrictMatrix) (jendPos i : Nat) (row : RowState F) :
    RowState F :=
  let k := (jendPos : Int) - i + 1
  let current := currentScore t ar beyond key dp jendPos i row.maxScore
  let reads := if chineseStart t key i then row.reads else k :: row.reads
  if restrict i jendPos ≠ 0 ∧ row.maxScore < current then
    { maxScore := current
      pureScore := pureScoreOf t ar beyond key dp jendPos i
      maxPos := i
      reads := k :: reads }
  else { row with reads := reads }

def selectRow (dp : DpState) (restrict : RestrictMatrix) (jendPos : Nat) : RowState F :=
  Loop.down 0 (key.iendPos + 1) (rowStep t ar beyond key dp restrict jendPos)
    ⟨ar.ofRat ENOUGH_MINUS, ar.ofRat 0, -1, []⟩

/-! ## Recording a scope -/

/-- The new status, where the row is recorded:
閾値を越えて，まだstatusが x なら n に;
閾値を越えて，statusが n なら スコア比較;
閾値を越えなくても，参考のためスコアを記憶 -/
def recordFlag (simThreshold : F) (row : RowState F) (data : ScopeData F) : Option ParaStatus :=
  if simThreshold ≤ row.pureScore ∧ data.status = .x then some .n
  else if simThreshold ≤ row.pureScore ∧ data.status = .n ∧ data.maxScore < row.maxScore then
    some data.status
  else if data.status = .x ∧ data.maxScore < row.maxScore then some data.status
  else none

def recordScope (simThreshold : F) (row : RowState F) (dp : DpState) (data : ScopeData F) :
    ScopeData F :=
  match recordFlag simThreshold row data with
  | none => data
  | some status =>
      { status := status
        maxScore := row.maxScore
        pureScore := row.pureScore
        start := row.maxPos
        path := tracePath dp.prepos (BNST_MAX - (key.keyPos + 1)) row.maxPos.toNat
          (key.keyPos + 1) }

/-- `_detect_para_scope` -/
def detectParaScopeAt (penaltyTable : Nat → Int) (restrict : RestrictMatrix) (jendPos : Nat)
    (s : DetectState F) : DetectState F :=
  match admitted t ar key restrict jendPos with
  | none => s
  | some simThreshold =>
      let dp := dpSearchScope t penaltyTable key.keyPos key.iendPos jendPos s.dp
      let row := selectRow t ar beyond key dp restrict jendPos
      { dp := dp
        data := if row.maxScore < ar.ofRat 0 then s.data
          else recordScope key simThreshold row dp s.data
        reads := row.reads ++ s.reads }

/-- One bracket of `mask_quote_scope`. -/
def maskQuote (keyPos : Nat) (quote : Nat × Nat) (restrict : RestrictMatrix) : RestrictMatrix :=
  let (start, stop) := quote
  if keyPos < start then
    fun i j => if i < start ∧ start ≤ j ∧ j < stop then 0 else restrict i j
  else if stop ≤ keyPos then
    fun i j => if start < i ∧ i ≤ stop ∧ stop < j ∧ j < t.bnstNum then 0 else restrict i j
  else
    Loop.upTo start stop
      (fun l restrict =>
        if t.has l "係:文末" then
          fun i j => if start ≤ i ∧ i ≤ l ∧ l < j ∧ j ≤ stop then 0 else restrict i j
        else restrict)
      (fun i j =>
        if i ≤ stop ∧ start ≤ j ∧ j < t.bnstNum ∧ (i < start ∨ stop < j) then 0
        else restrict i j)

/-- 括弧がある場合に並列構造の範囲に制限を設ける -/
def maskQuoteScope (keyPos : Nat) (restrict : RestrictMatrix) : RestrictMatrix :=
  t.quoteData.foldl (fun restrict quote => maskQuote t keyPos quote restrict) restrict

def initRestrict (restrictP : Bool) (restrict : RestrictMatrix) : RestrictMatrix :=
  if restrictP then restrict
  else fun i j => if i < j ∧ j < t.bnstNum then 1 else restrict i j

/-- The ends of scopes that are tried. -/
def scopeEnds : List Nat :=
  if t.optInputParsed then [t.dpndHead key.keyPos]
  else List.range' (key.keyPos + 1) (t.bnstNum - (key.keyPos + 1))

def initScope (data : ScopeData F) : ScopeData F :=
  { data with
    status := .x
    maxScore := ar.ofRat ENOUGH_MINUS
    pureScore := ar.ofRat ENOUGH_MINUS }

/-- 強並列 -/
def markStrong (data : ScopeData F) : ScopeData F :=
  if data.status = .n ∧ ar.ofRat STRONG_PARA_TH ≤ data.pureScore then
    { data with status := .s }
  else data

/-- The loop of `detect_para_scope`. -/
def detectEnds (restrict : RestrictMatrix) (ends : List Nat) (s : DetectState F) :
    DetectState F :=
  ends.foldl (fun s j =>
    detectParaScopeAt t ar beyond key (penaltyTableOf t key.keyPos) restrict j s) s

/-- `detect_para_scope`: the restrictions that it leaves, and its state. -/
def detectParaScope (restrictP : Bool) (restrict : RestrictMatrix) (s : DetectState F) :
    RestrictMatrix × DetectState F :=
  let restrict := maskQuoteScope t key.keyPos (initRestrict t restrictP restrict)
  let s := detectEnds t ar beyond key restrict (scopeEnds t key)
    { s with data := initScope ar s.data }
  (restrict, { s with data := markStrong ar s.data })

/-! ## The best row -/

variable {t ar beyond key} {dp dp' : DpState} {restrict : RestrictMatrix} {jendPos : Nat}

theorem selectRow_congr
    (h : ∀ i ≤ key.iendPos, dp.score i (scoreColumn t key) = dp'.score i (scoreColumn t key)) :
    selectRow t ar beyond key dp restrict jendPos =
      selectRow t ar beyond key dp' restrict jendPos := by
  refine Loop.down_congr fun i row _ hi => ?_
  unfold rowStep currentScore pureScoreOf
  rw [h i (Nat.lt_succ_iff.mp hi)]

/-- A row is recorded in the loop, or nothing is. -/
theorem selectRow_maxPos (t : ParaText) (ar : ScoreArith F) (beyond : Int → Rat) (key : ScopeKey F)
    (dp : DpState) (restrict : RestrictMatrix) (jendPos : Nat) :
    (∃ i ≤ key.iendPos, (selectRow t ar beyond key dp restrict jendPos).maxPos = i) ∨
      (selectRow t ar beyond key dp restrict jendPos).maxScore = ar.ofRat ENOUGH_MINUS := by
  unfold selectRow
  refine Loop.down_induction _ (fun _ (row : RowState F) =>
    (∃ i ≤ key.iendPos, row.maxPos = i) ∨ row.maxScore = ar.ofRat ENOUGH_MINUS) (Nat.zero_le _)
    (fun i row _ hi hrow => ?_) (.inr rfl)
  unfold rowStep
  dsimp only
  split
  · exact .inl ⟨i, Nat.lt_succ_iff.mp hi, rfl⟩
  · exact hrow

/-- `score / norm` with both bonuses. -/
def rowScore (t : ParaText) (ar : ScoreArith F) (beyond : Int → Rat) (key : ScopeKey F)
    (dp : DpState) (jendPos i : Nat) : F :=
  ar.add (ar.add (pureScoreOf t ar beyond key dp jendPos i)
    (calcStartingBonusScore t i key.type)) (calcEndingBonusScore t key.keyPos jendPos key.type)

/-- The row is the best of those from `lo` on that are not forbidden, and the
lowest of several. -/
structure BestRow (t : ParaText) (ar : ScoreArith F) (beyond : Int → Rat) (key : ScopeKey F)
    (dp : DpState) (restrict : RestrictMatrix) (jendPos lo i : Nat) (row : RowState F) :
    Prop where
  ge : lo ≤ i
  le : i ≤ key.iendPos
  allowed : restrict i jendPos ≠ 0
  maxPos : row.maxPos = i
  maxScore : row.maxScore = rowScore t ar beyond key dp jendPos i
  pureScore : row.pureScore = pureScoreOf t ar beyond key dp jendPos i
  lowest : ∀ k, lo ≤ k → k ≤ key.iendPos → restrict k jendPos ≠ 0 →
    rowScore t ar beyond key dp jendPos k = row.maxScore → k ≤ i

variable (ar beyond key dp restrict jendPos) in
theorem selectRow_best (hlang : t.language ≠ .chinese) :
    ((selectRow t ar beyond key dp restrict jendPos).maxScore = ar.ofRat ENOUGH_MINUS ∨
      ∃ i, BestRow t ar beyond key dp restrict jendPos 0 i
        (selectRow t ar beyond key dp restrict jendPos)) ∧
    ∀ i ≤ key.iendPos, restrict i jendPos ≠ 0 → rowScore t ar beyond key dp jendPos i ≤
      (selectRow t ar beyond key dp restrict jendPos).maxScore := by
  have hloop := Loop.down_induction (rowStep t ar beyond key dp restrict jendPos)
    (fun lo (row : RowState F) => (row.maxScore = ar.ofRat ENOUGH_MINUS ∨
      ∃ i, BestRow t ar beyond key dp restrict jendPos lo i row) ∧
      ∀ i, lo ≤ i → i ≤ key.iendPos → restrict i jendPos ≠ 0 →
        rowScore t ar beyond key dp jendPos i ≤ row.maxScore)
    (Nat.zero_le (key.iendPos + 1)) (s := ⟨ar.ofRat ENOUGH_MINUS, ar.ofRat 0, -1, []⟩)
    (fun i row _ hi ⟨hfound, hle⟩ => ?_) ⟨.inl rfl, fun i hi hle => by omega⟩
  · exact ⟨hloop.1, fun i hi => hloop.2 i (Nat.zero_le i) hi⟩
  have hcurrent : currentScore t ar beyond key dp jendPos i row.maxScore =
      rowScore t ar beyond key dp jendPos i := by
    unfold currentScore chineseStart rowScore
    simp [hlang]
  unfold rowStep
  rw [hcurrent]
  dsimp only
  by_cases hin : restrict i jendPos ≠ 0 ∧ row.maxScore < rowScore t ar beyond key dp jendPos i
  · rw [if_pos hin]
    refine ⟨.inr ⟨i, Nat.le_refl i, Nat.lt_succ_iff.mp hi, hin.1, rfl, rfl, rfl,
      fun k hk hkle hkr heq => ?_⟩, fun k hk hkle hkr => ?_⟩
    · by_contra hlt
      exact absurd heq ((hle k (by omega) hkle hkr).trans_lt hin.2).ne
    · rcases Nat.lt_or_eq_of_le hk with hlt | heq
      · exact (hle k hlt hkle hkr).trans hin.2.le
      · rw [heq]
  · rw [if_neg hin]
    have hnot := fun hr => not_lt.mp fun hlt => hin ⟨hr, hlt⟩
    refine ⟨?_, fun k hk hkle hkr => ?_⟩
    · rcases hfound with heq | ⟨j, hj⟩
      · exact .inl heq
      · refine .inr ⟨j, { hj with ge := (Nat.le_succ i).trans hj.ge, lowest := ?_ }⟩
        intro k hk hkle hkr heq
        rcases Nat.lt_or_eq_of_le hk with hlt | rfl
        · exact hj.lowest k hlt hkle hkr heq
        · exact (Nat.le_succ i).trans hj.ge
    · rcases Nat.lt_or_eq_of_le hk with hlt | rfl
      · exact hle k hlt hkle hkr
      · exact hnot hkr

end Detect

end Knp
