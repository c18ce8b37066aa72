import Mathlib.Data.Finset.Card
import Mathlib.Order.Interval.Finset.Nat
import Knp.BracketPairs
import Knp.Loop

/-!
# Parentheses as sentences of their own (`quote.c`)

`process_input_paren` marks the morphemes of each group in parentheses in a table and then
moves them to sentences of their own; the rest of the sentence is moved together in its
array. The level counts also brackets that have no partner.

> Each morpheme ends in one place, and where every outermost group opens at level 0 the
> sentences are just these groups.

The strings have room for what is appended to them.
-/

namespace Knp.Paren

open Loop BracketPairs

def PAREN_B : String := "（"
def PAREN_E : String := "）"
def PAREN_COMMENT_TEMPLATE : String := "括弧始:（ 括弧終:） 括弧位置:"
def PAREN_MAX : Nat := 100

/-- `f` is empty for `NULL`; the other fields are `rest`. -/
structure MrphData (ρ : Type*) where
  goi : String
  goi2 : String
  num : Nat
  f : List String
  rest : ρ

structure SentenceData (ρ : Type*) where
  mrph : List (MrphData ρ)
  mrphNum : Nat
  knpsid : String
  comment : Option String

variable {ρ : Type*}

/-! ## The check -/

/-- The marks `'B'`, `'I'` and `'E'`. -/
inductive ParenMark
  | b
  | i
  | e
deriving DecidableEq

/-- `paren_start` is set before it is read. -/
structure ParenCheck where
  level : Int
  start : Nat
  table : Nat → Option ParenMark
  mrphNum : Nat
  num : Nat

def setMark (table : Nat → Option ParenMark) (i : Nat) (x : ParenMark) : Nat → Option ParenMark :=
  Function.update table i (some x)

/-- One turn of 括弧チェック. -/
def parenTurn (goi : String) (i : Nat) (s : ParenCheck) : ParenCheck :=
  if goi = PAREN_B then
    { s with start := if s.level = 0 then i else s.start, level := s.level + 1 }
  else if goi = PAREN_E then
    let s := { s with level := s.level - 1 }
    -- （）のような中身がない場合は除く
    if s.level = 0 ∧ i ≠ s.start + 1 then
      let s := { s with
        table := setMark (setMark s.table s.start .b) i .e
        mrphNum := s.mrphNum + 2 }
      -- 括弧部分の形態素数
      let s := upTo (s.start + 1) i (fun j s =>
        { s with table := setMark s.table j .i, mrphNum := s.mrphNum + 1 }) s
      { s with num := s.num + 1 }
    else s
  else s

def goiAt (mrph : List (MrphData ρ)) (i : Nat) : String := (mrph[i]?.map (·.goi)).getD ""

def checkParen (sp : SentenceData ρ) : ParenCheck :=
  upTo 0 sp.mrphNum (fun i => parenTurn (goiAt sp.mrph i) i) ⟨0, 0, fun _ => none, 0, 0⟩

/-! ## The separation -/

structure Separation (ρ : Type*) where
  mrph : List (MrphData ρ)
  j : Nat
  parens : List (SentenceData ρ)
  count : Int
  charPos : Nat

def clearF (m : MrphData ρ) : MrphData ρ := { m with f := [] }

/-- One turn of 本文と括弧文を分離. -/
def separateTurn (table : Nat → Option ParenMark) (i : Nat) (s : Separation ρ) : Separation ρ :=
  match s.mrph[i]? with
  | none => s
  | some m =>
      let s : Separation ρ := match table i with
        | none =>
            -- 括弧ではない部分
            { s with
              mrph := if i ≠ s.j then (s.mrph.set s.j { m with num := s.j }).modify i clearF
                else s.mrph
              j := s.j + 1 }
        | some .b =>
            { s with
              count := s.count + 1
              parens := s.parens.modify (s.count + 1).toNat fun q =>
                { q with comment := q.comment.map (· ++ toString s.charPos) } }
        | some .i =>
            { s with
              parens := s.parens.modify s.count.toNat fun q =>
                { q with mrph := q.mrph ++ [{ m with num := q.mrphNum }], mrphNum := q.mrphNum + 1 }
              mrph := s.mrph.modify i clearF }
        | some .e => s
      { s with charPos := s.charPos + m.goi2.length }

/-- `%02d` -/
def twoDigits (n : Nat) : String := if n < 10 then "0" ++ toString n else toString n

/-- 括弧文のIDは-02から -/
def newParen (sp : SentenceData ρ) (i : Nat) : SentenceData ρ :=
  ⟨[], 0, sp.knpsid ++ "-" ++ twoDigits (i + 2), some PAREN_COMMENT_TEMPLATE⟩

def addComment (sp : SentenceData ρ) (addString : String) : SentenceData ρ :=
  { sp with comment := match sp.comment with
      -- 既存のコメントと結合
      | some comment => some (comment ++ " " ++ addString)
      | none => some addString }

/-- 全体が括弧の時は対象外 -/
def skipsParen (sp : SentenceData ρ) (c : ParenCheck) : Prop :=
  c.num = 0 ∨ PAREN_MAX ≤ c.num ∨
    (c.table 0 = some .b ∧ c.table (sp.mrphNum - 1) = some .e)

instance {sp : SentenceData ρ} {c : ParenCheck} : Decidable (skipsParen sp c) :=
  inferInstanceAs (Decidable (_ ∨ _ ∨ _))

/-- `process_input_paren`: the number, the sentence and the extracted sentences. -/
def processInputParen (sp : SentenceData ρ) : Nat × SentenceData ρ × List (SentenceData ρ) :=
  let c := checkParen sp
  if skipsParen sp c then (0, sp, [])
  else
    let parens := (List.range c.num).map (newParen sp)
    let sp := addComment { sp with knpsid := sp.knpsid ++ "-01" } "括弧削除"
    let s := upTo 0 sp.mrphNum (separateTurn c.table) ⟨sp.mrph, 0, parens, -1, 0⟩
    (c.num, { sp with mrph := s.mrph, mrphNum := sp.mrphNum - c.mrphNum }, s.parens)

/-! ## The groups -/

/-- The letters of the sentence. -/
def weight (mrph : List (MrphData ρ)) (i : Nat) : Int :=
  if goiAt mrph i = PAREN_B then 1 else if goiAt mrph i = PAREN_E then -1 else 0

/-- A group that opens at level 0 and is not empty. -/
structure ZeroGroup (w : Nat → Int) (s e : Nat) : Prop where
  pair : Pair w s e
  zero : levelAt w s = 0
  inside : s + 1 < e

/-- The mark of position `p` for the group `g`. -/
def Marks (g : Nat × Nat) (p : Nat) : ParenMark → Prop
  | .b => p = g.1
  | .i => g.1 < p ∧ p < g.2
  | .e => p = g.2

/-- The state of the check in front of position `i` of `n`. -/
structure Checked (w : Nat → Int) (n i : Nat) (s : ParenCheck) (groups : List (Nat × Nat)) :
    Prop where
  level : s.level = levelAt w i
  start : 0 < s.level → s.start < i ∧ w s.start = 1 ∧ levelAt w s.start = 0 ∧
    ∀ k, s.start < k → k ≤ i → 0 < levelAt w k
  sorted : groups.Pairwise fun g h => g.2 < h.1
  mem : ∀ g, g ∈ groups ↔ ZeroGroup w g.1 g.2 ∧ g.2 < i
  table : ∀ p x, s.table p = some x ↔ ∃ g ∈ groups, Marks g p x
  mrphNum : s.mrphNum = ((Finset.range n).filter fun p => s.table p ≠ none).card
  num : s.num = groups.length

section Check

variable {w : Nat → Int} {n i j : Nat} {s : ParenCheck} {groups : List (Nat × Nat)} {goi : String}

theorem markInside (hle : s.start + 1 ≤ i) : upTo (s.start + 1) i (fun j (s : ParenCheck) =>
      { s with table := setMark s.table j .i, mrphNum := s.mrphNum + 1 }) s =
    { s with
      table := fun p => if s.start < p ∧ p < i then some .i else s.table p
      mrphNum := s.mrphNum + (i - (s.start + 1)) } := by
  refine upTo_induction _ (fun k t => t = { s with
      table := fun p => if s.start < p ∧ p < k then some .i else s.table p
      mrphNum := s.mrphNum + (k - (s.start + 1)) }) hle ?_ ?_
  · rintro k t hlo hhi rfl
    have htable : setMark (fun p => if s.start < p ∧ p < k then some .i else s.table p) k .i =
        fun p => if s.start < p ∧ p < k + 1 then some .i else s.table p := by
      funext p
      unfold setMark
      by_cases hp : p = k
      · subst hp
        rw [Function.update_self, if_pos ⟨by omega, by omega⟩]
      · rw [Function.update_of_ne hp]
        congr 1
        exact propext ⟨fun h => ⟨h.1, by omega⟩, fun h => ⟨h.1, by omega⟩⟩
    have hnum : s.mrphNum + (k - (s.start + 1)) + 1 = s.mrphNum + (k + 1 - (s.start + 1)) := by
      omega
    simp only [htable, hnum]
  · have htable : (fun p => if s.start < p ∧ p < s.start + 1 then some .i else s.table p) =
        s.table := funext fun p => if_neg (by omega)
    rw [htable, Nat.sub_self, Nat.add_zero]

/-- The marks of a group. -/
theorem parenTurn_group (hgoi : goi = PAREN_E) (hlevel : s.level = 1) (hlt : s.start + 1 < i) :
    parenTurn goi i s = ⟨0, s.start,
      fun p => if s.start < p ∧ p < i then some .i else if p = i then some .e
        else if p = s.start then some .b else s.table p,
      s.mrphNum + (i + 1 - s.start), s.num + 1⟩ := by
  have hne : ¬ PAREN_E = PAREN_B := by decide
  have hcond : s.level - 1 = 0 ∧ i ≠ s.start + 1 := ⟨by omega, hlt.ne'⟩
  subst hgoi
  simp only [parenTurn, if_neg hne, if_true, if_pos hcond]
  rw [markInside (s := { s with
    level := s.level - 1
    table := setMark (setMark s.table s.start .b) i .e
    mrphNum := s.mrphNum + 2 }) hlt.le]
  have hnum : s.mrphNum + 2 + (i - (s.start + 1)) = s.mrphNum + (i + 1 - s.start) := by omega
  simp only [hnum, hcond.1, ParenCheck.mk.injEq, true_and, and_true]
  funext p
  simp only [setMark, Function.update_apply]

/-- A letter that ends no group. -/
theorem Checked.skip (h : Checked w n i s groups) {s' : ParenCheck}
    (hno : ∀ a, ¬ZeroGroup w a i) (hlevel : s'.level = levelAt w (i + 1))
    (hstart : 0 < s'.level → s'.start < i + 1 ∧ w s'.start = 1 ∧
      levelAt w s'.start = 0 ∧
      ∀ k, s'.start < k → k ≤ i + 1 → 0 < levelAt w k)
    (htable : s'.table = s.table) (hmrph : s'.mrphNum = s.mrphNum) (hnum : s'.num = s.num) :
    Checked w n (i + 1) s' groups := by
  refine ⟨hlevel, hstart, h.sorted, fun g => ?_, htable ▸ h.table, ?_, hnum.trans h.num⟩
  · rw [h.mem]
    refine and_congr_right fun hg => ⟨fun hlt => by omega, fun hlt => ?_⟩
    rcases Nat.lt_succ_iff_lt_or_eq.mp hlt with hlt | heq
    · exact hlt
    · exact absurd (heq ▸ hg) (hno g.1)
  · rw [hmrph, htable, h.mrphNum]

/-- A level above 0 stays so until the next letter that takes it down. -/
theorem Checked.keepStart (h : Checked w n i s groups) (hs : 0 < s.level)
    (hnext : 0 < levelAt w (i + 1)) : s.start < i + 1 ∧ w s.start = 1 ∧
      levelAt w s.start = 0 ∧
      ∀ k, s.start < k → k ≤ i + 1 → 0 < levelAt w k := by
  obtain ⟨hlt, hw, hzero, habove⟩ := h.start hs
  refine ⟨by omega, hw, hzero, fun k hk hki => ?_⟩
  rcases Nat.lt_or_eq_of_le hki with hki | rfl
  · exact habove k hk (by omega)
  · exact hnext

theorem Checked.opening (h : Checked w n i s groups) (hw : w i = 1) :
    Checked w n (i + 1) (parenTurn PAREN_B i s) groups := by
  have hlevel : s.level + 1 = levelAt w (i + 1) := by rw [levelAt, h.level, hw]
  rw [parenTurn, if_pos rfl]
  refine h.skip (fun a ha => ?_) hlevel (fun hpos => ?_) rfl rfl rfl
  · have := ha.pair.closes
    omega
  · dsimp only at hpos ⊢
    split_ifs with hzero
    · refine ⟨by omega, hw, h.level ▸ hzero, fun k hk hki => ?_⟩
      obtain rfl : k = i + 1 := by omega
      omega
    · exact h.keepStart (by omega) (by omega)

theorem Checked.other (h : Checked w n i s groups) (hb : goi ≠ PAREN_B) (he : goi ≠ PAREN_E)
    (hw : w i = 0) : Checked w n (i + 1) (parenTurn goi i s) groups := by
  have hlevel : s.level = levelAt w (i + 1) := by rw [levelAt, h.level, hw, add_zero]
  rw [parenTurn, if_neg hb, if_neg he]
  refine h.skip (fun a ha => ?_) hlevel (fun hpos => h.keepStart hpos (hlevel ▸ hpos)) rfl rfl rfl
  have := ha.pair.closes
  omega

/-- The bracket that takes the level back to 0 closes the one at `paren_start`. -/
theorem Checked.closes (h : Checked w n i s groups) (hone : s.level = 1) (hw : w i = -1) :
    Pair w s.start i ∧ levelAt w s.start = 0 ∧ ∀ a, ZeroGroup w a i → a = s.start := by
  obtain ⟨hlt, hopen, hzero, habove⟩ := h.start (by omega)
  have hback : levelAt w (i + 1) = levelAt w s.start := by
    rw [levelAt, ← h.level, hone, hw, hzero]
    rfl
  refine ⟨⟨hopen, hw, hlt, hback, fun k hk hki => hzero ▸ habove k hk hki⟩, hzero, fun a ha => ?_⟩
  have halt := ha.pair.lt
  have hazero := ha.zero
  rcases Nat.lt_trichotomy a s.start with hbefore | heq | hbehind
  · have := ha.pair.above s.start hbefore hlt.le
    omega
  · exact heq
  · have := habove a hbehind halt.le
    omega

/-- What has been marked stands in front of the group that is open. -/
theorem Checked.before (h : Checked w n i s groups) (hone : s.level = 1) (hw : w i = -1) :
    ∀ g ∈ groups, g.2 < s.start := by
  obtain ⟨hpair, hzero, -⟩ := h.closes hone hw
  intro g hg
  obtain ⟨hgroup, hgi⟩ := (h.mem g).mp hg
  have hglt := hgroup.pair.lt
  have hgzero := hgroup.zero
  rcases Nat.lt_trichotomy g.1 s.start with hbefore | heq | hbehind
  · by_contra hle
    have := hgroup.pair.above s.start hbefore (by omega)
    omega
  · have hsame : Pair w s.start g.2 := heq ▸ hgroup.pair
    exact absurd (hsame.end_unique hpair) hgi.ne
  · have := hpair.above g.1 hbehind (by omega)
    omega

theorem Checked.start_free (h : Checked w n i s groups) (hone : s.level = 1) (hw : w i = -1) :
    ∀ p, s.start ≤ p → s.table p = none := by
  intro p hp
  cases hx : s.table p with
  | none => rfl
  | some x =>
      obtain ⟨g, hg, hmark⟩ := (h.table p x).mp hx
      have := h.before hone hw g hg
      have := ((h.mem g).mp hg).1.pair.lt
      cases x <;> simp only [Marks] at hmark <;> omega

/-- The table with the marks of one more group. -/
theorem Checked.table_group (h : Checked w n i s groups) (hone : s.level = 1) (hw : w i = -1)
    (hinside : s.start + 1 < i) (p : Nat) (x : ParenMark) :
    (if s.start < p ∧ p < i then some ParenMark.i else if p = i then some .e
      else if p = s.start then some .b else s.table p) = some x ↔
      ∃ g ∈ groups ++ [(s.start, i)], Marks g p x := by
  have hsplit : (∃ g ∈ groups ++ [(s.start, i)], Marks g p x) ↔
      s.table p = some x ∨ Marks (s.start, i) p x := by
    rw [h.table]
    constructor
    · rintro ⟨g, hg, hmark⟩
      rcases List.mem_append.mp hg with hg | hg
      · exact .inl ⟨g, hg, hmark⟩
      · exact .inr (List.mem_singleton.mp hg ▸ hmark)
    · rintro (⟨g, hg, hmark⟩ | hmark)
      · exact ⟨g, List.mem_append_left _ hg, hmark⟩
      · exact ⟨_, List.mem_append_right _ List.mem_cons_self, hmark⟩
  rw [hsplit]
  have hfree := h.start_free hone hw p
  by_cases hp : s.start ≤ p ∧ p ≤ i
  · rw [hfree hp.1]
    cases x <;> simp only [Marks] <;> split_ifs <;> simp <;> omega
  · rw [if_neg (by omega), if_neg (by omega), if_neg (by omega)]
    refine ⟨.inl, fun hor => hor.resolve_right fun hmark => ?_⟩
    cases x <;> simp only [Marks] at hmark <;> omega

theorem Checked.mrphNum_group (h : Checked w n i s groups) (hone : s.level = 1) (hw : w i = -1)
    (hinside : s.start + 1 < i) (hi : i < n) : s.mrphNum + (i + 1 - s.start) =
      ((Finset.range n).filter fun p => (if s.start < p ∧ p < i then some ParenMark.i
        else if p = i then some .e else if p = s.start then some .b else s.table p) ≠ none).card := by
  have hfree := h.start_free hone hw
  have hunion : ((Finset.range n).filter fun p => (if s.start < p ∧ p < i then some ParenMark.i
      else if p = i then some .e else if p = s.start then some .b else s.table p) ≠ none) =
      ((Finset.range n).filter fun p => s.table p ≠ none) ∪ Finset.Icc s.start i := by
    ext p
    simp only [Finset.mem_filter, Finset.mem_range, Finset.mem_union, Finset.mem_Icc]
    by_cases hp : s.start ≤ p ∧ p ≤ i
    · rw [hfree p hp.1]
      refine ⟨fun _ => .inr hp, fun _ => ⟨by omega, ?_⟩⟩
      split_ifs <;> first | exact Option.some_ne_none _ | omega
    · rw [if_neg (by omega), if_neg (by omega), if_neg (by omega)]
      exact ⟨.inl, fun hor => hor.resolve_right hp⟩
  have hdisjoint : Disjoint ((Finset.range n).filter fun p => s.table p ≠ none)
      (Finset.Icc s.start i) := by
    refine Finset.disjoint_left.mpr fun p hp hp' => ?_
    exact (Finset.mem_filter.mp hp).2 (hfree p (Finset.mem_Icc.mp hp').1)
  rw [hunion, Finset.card_union_of_disjoint hdisjoint, Nat.card_Icc, h.mrphNum]

theorem Checked.group (h : Checked w n i s groups) (hone : s.level = 1) (hw : w i = -1)
    (hinside : s.start + 1 < i) (hi : i < n) :
    Checked w n (i + 1) (parenTurn PAREN_E i s) (groups ++ [(s.start, i)]) := by
  obtain ⟨hpair, hzero, honly⟩ := h.closes hone hw
  have hlevel : levelAt w (i + 1) = 0 := by rw [levelAt, ← h.level, hone, hw]; rfl
  rw [parenTurn_group rfl hone hinside]
  refine ⟨hlevel.symm, fun hpos => absurd hpos (lt_irrefl 0), ?_, fun g => ?_,
    h.table_group hone hw hinside, h.mrphNum_group hone hw hinside hi, ?_⟩
  · rw [List.pairwise_append]
    refine ⟨h.sorted, List.pairwise_singleton .., fun g hg g' hg' => ?_⟩
    rw [List.mem_singleton.mp hg']
    exact h.before hone hw g hg
  · rw [List.mem_append, List.mem_singleton, h.mem]
    constructor
    · rintro (⟨hg, hlt⟩ | rfl)
      · exact ⟨hg, by omega⟩
      · exact ⟨⟨hpair, hzero, hinside⟩, Nat.lt_succ_self _⟩
    · rintro ⟨hg, hlt⟩
      rcases Nat.lt_succ_iff_lt_or_eq.mp hlt with hlt | heq
      · exact .inl ⟨hg, hlt⟩
      · exact .inr (Prod.ext (honly g.1 (heq ▸ hg)) heq)
  · rw [List.length_append, h.num]
    rfl

/-- A bracket that ends no group only takes the level down. -/
theorem Checked.closing (h : Checked w n i s groups) (hw : w i = -1) (hi : i < n) :
    ∃ groups', Checked w n (i + 1) (parenTurn PAREN_E i s) groups' := by
  have hlevel : s.level - 1 = levelAt w (i + 1) := by rw [levelAt, h.level, hw]; rfl
  by_cases hgroup : s.level = 1 ∧ s.start + 1 < i
  · exact ⟨_, h.group hgroup.1 hw hgroup.2 hi⟩
  have hturn : parenTurn PAREN_E i s = { s with level := s.level - 1 } := by
    rw [parenTurn, if_neg (by decide), if_pos rfl]
    refine if_neg fun hcond => hgroup ?_
    obtain ⟨hzero, hne⟩ : s.level - 1 = 0 ∧ i ≠ s.start + 1 := hcond
    have := (h.start (by omega)).1
    exact ⟨by omega, by omega⟩
  rw [hturn]
  refine ⟨groups, h.skip (fun a ha => hgroup ?_) hlevel (fun hpos => ?_) rfl rfl rfl⟩
  · have hone : s.level = 1 := by
      have := ha.pair.back
      have := ha.zero
      omega
    obtain ⟨-, -, honly⟩ := h.closes hone hw
    exact ⟨hone, honly a ha ▸ ha.inside⟩
  · have hpos : 0 < s.level - 1 := hpos
    exact h.keepStart (by omega) (by omega)

end Check

theorem checked (sp : SentenceData ρ) :
    ∃ groups, Checked (weight sp.mrph) sp.mrphNum sp.mrphNum (checkParen sp) groups := by
  refine upTo_induction _ (fun i s => ∃ groups, Checked (weight sp.mrph) sp.mrphNum i s groups)
    (Nat.zero_le _) (fun i s _ hi => ?_) ⟨[], ?_⟩
  · rintro ⟨groups, h⟩
    by_cases hb : goiAt sp.mrph i = PAREN_B
    · rw [hb]
      exact ⟨groups, h.opening (if_pos hb)⟩
    by_cases he : goiAt sp.mrph i = PAREN_E
    · rw [he]
      exact h.closing (by rw [weight, if_neg hb, if_pos he]) hi
    · exact ⟨groups, h.other hb he (by rw [weight, if_neg hb, if_neg he])⟩
  · exact ⟨rfl, fun hpos => absurd hpos (lt_irrefl 0), .nil,
      fun g => ⟨fun hg => absurd hg List.not_mem_nil, fun hg => absurd hg.2 (Nat.not_lt_zero _)⟩,
      fun p x => by simp, by simp, rfl⟩

end Knp.Paren
