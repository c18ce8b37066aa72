import Mathlib.Data.List.Perm.Basic
import Knp.Mask
import Knp.MrphDpnd

/-!
# Quotes (`quote.c`)

The brackets of a sentence are matched with a stack of the slots of `quote_data`. A closing
bracket for which nothing is open belongs to a quote that begins with the sentence, an
opening bracket that is never closed to one that ends with it. Then the cells of
`Quote_matrix` are cleared for each quote in turn.

> The quotes are nested or disjoint, and a cell is left just if every quote permits it.

A sentence is the list of the features of its bunsetsu.
-/

namespace Knp.Quote

open Loop Mask

def QUOTE_MAX : Nat := 40

/-- Slots that are not used hold -1. -/
structure QuoteData where
  inNum : Nat → Int
  outNum : Nat → Int

def initQuote : QuoteData := ⟨fun _ => -1, fun _ => -1⟩

/-! ## The detection -/

/-- `stack` holds the slots of the open quotes, the innermost first. -/
structure QuoteState where
  data : QuoteData
  k : Nat
  stack : List Nat

/-- Where the last slot would be taken, the state is what is left behind (`CONTINUE`). -/
def openQuote (i : Nat) (s : QuoteState) : Except QuoteState QuoteState :=
  -- 最後の要素が番人なので、それを変えてはいけない
  if s.k ≥ QUOTE_MAX - 1 then .error s
  else .ok ⟨⟨Function.update s.data.inNum s.k i, s.data.outNum⟩, s.k + 1, s.k :: s.stack⟩

def closeQuote (i : Nat) (s : QuoteState) : Except QuoteState QuoteState :=
  match s.stack with
  | [] =>
      -- 括弧終が多い場合
      if s.k ≥ QUOTE_MAX - 1 then .error s
      else .ok ⟨⟨s.data.inNum, Function.update s.data.outNum s.k i⟩, s.k + 1, []⟩
  | q :: stack => .ok ⟨⟨s.data.inNum, Function.update s.data.outNum q i⟩, s.k, stack⟩

/-- The turn of the loop of `check_quote` for one bunsetsu. -/
def quoteTurn (f : List String) (i : Nat) (s : QuoteState) : Except QuoteState QuoteState := do
  let s ← if hasFeature f "括弧始" then do
      let s ← openQuote i s
      -- 「『‥ を扱うため上のことを繰り返す
      if hasFeature f "括弧始２" then openQuote i s else pure s
    else pure s
  if hasFeature f "括弧終" then do
    let s ← closeQuote i s
    -- ‥』」 を扱うため上のことを繰り返す
    if hasFeature f "括弧終２" then closeQuote i s else pure s
  else pure s

/-- 括弧が閉じていない場合は, 文頭または文末を境界に -/
def fillQuote (last : Int) (i : Nat) (d : QuoteData) : QuoteData where
  inNum := if d.inNum i = -1 then Function.update d.inNum i 0 else d.inNum
  outNum := if d.outNum i = -1 then Function.update d.outNum i last else d.outNum

/-- Whether there is a quote, and the data; or the data that are left where there are too many. -/
def checkQuote (bnst : List (List String)) : Except QuoteData (Bool × QuoteData) :=
  match bnst.zipIdx.foldlM (fun s b => quoteTurn b.1 b.2 s) ⟨initQuote, 0, []⟩ with
  | .error s => .error s.data
  | .ok s => .ok (0 < s.k, upTo 0 s.k (fillQuote ((bnst.length : Int) - 1)) s.data)

/-! ## The matrix -/

/-- `for (k = 0; quote_data.in_num[k] >= 0; k++)`, from slot `k` on. -/
def forQuotes {σ : Type*} (d : QuoteData) (body : Int → Int → σ → σ) : Nat → Nat → σ → σ
  | 0, _, s => s
  | fuel + 1, k, s =>
      if d.inNum k ≥ 0 then forQuotes d body fuel (k + 1) (body (d.inNum k) (d.outNum k) s) else s

/-- 連格,連体,ノ格,同格連体,括弧並列のみ係れるとする -/
def entersQuote (f : List String) : Bool :=
  hasFeature f "係:連格" || hasFeature f "係:連体" || hasFeature f "係:ノ格" ||
    hasFeature f "係:同格連体" || hasFeature f "係:括弧並列"

/-- The turn of the loop of `mask_quote` for one quote. -/
def maskQuoteTurn (bnst : List (List String)) (start stop : Int) (m : Nat → Nat → Bool) :
    Nat → Nat → Bool :=
  let f (i : Nat) := bnst.getD i []
  -- １文節だけの括弧は無視
  if start = stop then m
  else
    let start := start.toNat
    let stop := stop.toNat
    -- 括弧の上のマスク
    let m := upTo 0 start (fun i m =>
      let m := upTo start stop (fun j => clear i j) m
      if m i stop && entersQuote (f i) then m else clear i stop m) m
    -- 括弧の右のマスク
    let m := upTo start stop (fun i => upTo (stop + 1) bnst.length fun j => clear i j) m
    -- 括弧内の句点の右上のマスク
    upTo start stop (fun l m =>
      if hasFeature (f l) "係:文末" then
        upTo start l (fun i => upTo (l + 1) (stop + 1) fun j => clear i j) m
      else m) m

def maskQuote (bnst : List (List String)) (d : QuoteData) (m : Nat → Nat → Bool) :
    Nat → Nat → Bool :=
  forQuotes d (maskQuoteTurn bnst) QUOTE_MAX 0 m

/-! ## What a quote permits -/

/-- The bunsetsu `i` may go to `j`, as far as the quote from `start` to `stop` is concerned. -/
structure Permits (bnst : List (List String)) (start stop i j : Nat) : Prop where
  above : i < start → ¬(start ≤ j ∧ j < stop)
  last : i < start → j = stop → entersQuote (bnst.getD i []) = true
  right : start ≤ i → i < stop → ¬stop < j
  period : ∀ l, start ≤ l → l < stop → hasFeature (bnst.getD l []) "係:文末" = true →
    start ≤ i → i < l → ¬(l < j ∧ j ≤ stop)

/-- 括弧 of one bunsetsu are ignored. -/
def QuotePermits (bnst : List (List String)) (start stop i j : Nat) : Prop :=
  start ≠ stop → Permits bnst start stop i j

/-- The last bunsetsu of a quote is left to some of the bunsetsu in front of the quote. -/
theorem retains_last (enters : Nat → Bool) (stop i : Nat) :
    Retains (fun m : Nat → Nat → Bool => if m i stop && enters i then m else clear i stop m)
      fun a b => a = i → b = stop → enters i = true := fun m a b => by
  show (if (m i stop && enters i) = true then m else clear i stop m) a b = true ↔
    m a b = true ∧ (a = i → b = stop → enters i = true)
  by_cases hab : a = i ∧ b = stop
  · obtain ⟨rfl, rfl⟩ := hab
    cases hm : m a b <;> cases he : enters a <;> simp [clear, hm]
  · have hclear : clear i stop m a b = m a b := if_neg hab
    have hskip : a = i → b = stop → enters i = true := fun ha hb => absurd ⟨ha, hb⟩ hab
    split_ifs
    · exact ⟨fun hm => ⟨hm, hskip⟩, And.left⟩
    · rw [hclear]
      exact ⟨fun hm => ⟨hm, hskip⟩, And.left⟩

/-- The rows over a quote. -/
theorem retains_over (enters : Nat → Bool) (start stop : Nat) :
    Retains (upTo 0 start fun i m =>
        let m := upTo start stop (fun j => clear i j) m
        if m i stop && enters i then m else clear i stop m)
      fun i j => i < start → ¬(start ≤ j ∧ j < stop) ∧ (j = stop → enters i = true) := by
  have hrow : ∀ i : Nat, Retains (upTo start stop fun j => clear i j)
      fun a b => ¬(a = i ∧ start ≤ b ∧ b < stop) := fun i =>
    (retains_upTo fun j => retains_clear i j).congr fun a b => by
      constructor
      · rintro h ⟨rfl, hlo, hhi⟩
        exact h b hlo hhi ⟨rfl, rfl⟩
      · rintro h j hlo hhi ⟨rfl, rfl⟩
        exact h ⟨rfl, hlo, hhi⟩
  refine (retains_upTo fun i => (hrow i).comp (retains_last enters stop i)).congr fun a b => ?_
  constructor
  · intro h ha
    obtain ⟨hrow, hlast⟩ := h a (Nat.zero_le a) ha
    exact ⟨fun hb => hrow ⟨rfl, hb⟩, hlast rfl⟩
  · rintro h i - hi
    refine ⟨?_, ?_⟩
    · rintro ⟨rfl, hb⟩
      exact (h hi).1 hb
    · rintro rfl
      exact (h hi).2

theorem retains_maskQuoteTurn (bnst : List (List String)) (start stop : Nat)
    (m : Nat → Nat → Bool) (i j : Nat) (hj : j < bnst.length) :
    maskQuoteTurn bnst start stop m i j = true ↔
      m i j = true ∧ QuotePermits bnst start stop i j := by
  unfold maskQuoteTurn QuotePermits
  by_cases heq : start = stop
  · simp [heq]
  · have hperiod := @retains_upTo _ _ start stop _ _ fun l =>
      (retains_rectangle start l (l + 1) (stop + 1)).ite
        (p := hasFeature (bnst.getD l []) "係:文末" = true)
    have hall := ((retains_over (fun i => entersQuote (bnst.getD i [])) start stop).comp
      (retains_rectangle start stop (stop + 1) bnst.length)).comp hperiod
    simp only [Int.natCast_inj, heq, if_false, Int.toNat_natCast, not_false_eq_true, ne_eq,
      true_imp_iff]
    refine (hall m i j).trans (and_congr_right fun _ => ?_)
    constructor
    · rintro ⟨⟨hover, hright⟩, hperiod⟩
      exact ⟨fun hi => (hover hi).1, fun hi => (hover hi).2,
        fun hlo hhi hj' => hright ⟨⟨hlo, hhi⟩, hj', hj⟩,
        fun l hlo hhi hl hi hil hj' =>
          hperiod l hlo hhi hl ⟨⟨hi, hil⟩, hj'.1, Nat.lt_succ_of_le hj'.2⟩⟩
    · intro h
      exact ⟨⟨fun hi => ⟨h.above hi, h.last hi⟩, fun hi => h.right hi.1.1 hi.1.2 hi.2.1⟩,
        fun l hlo hhi hl hi =>
          h.period l hlo hhi hl hi.1.1 hi.1.2 ⟨hi.2.1, Nat.le_of_lt_succ hi.2.2⟩⟩

/-! ## Brackets one by one -/

inductive Bracket
  | opening
  | closing
deriving DecidableEq

/-- The brackets of a bunsetsu, in the order in which they are met. -/
def bracketsOf (f : List String) : List Bracket :=
  (if hasFeature f "括弧始" then
    .opening :: if hasFeature f "括弧始２" then [.opening] else [] else []) ++
  if hasFeature f "括弧終" then
    .closing :: if hasFeature f "括弧終２" then [.closing] else [] else []

/-- The brackets of the sentence, each with its bunsetsu. -/
def brackets (bnst : List (List String)) : List (Nat × Bracket) :=
  bnst.zipIdx.flatMap fun b => (bracketsOf b.1).map fun e => (b.2, e)

def bracketStep (s : QuoteState) (e : Nat × Bracket) : Except QuoteState QuoteState :=
  match e.2 with
  | .opening => openQuote e.1 s
  | .closing => closeQuote e.1 s

theorem quoteTurn_eq (f : List String) (i : Nat) (s : QuoteState) :
    quoteTurn f i s = ((bracketsOf f).map fun e => (i, e)).foldlM bracketStep s := by
  unfold quoteTurn bracketsOf
  cases hasFeature f "括弧始" <;> cases hasFeature f "括弧始２" <;>
    cases hasFeature f "括弧終" <;> cases hasFeature f "括弧終２" <;>
    simp [bracketStep, List.foldlM_cons]

theorem quoteLoop_eq (l : List (List String × Nat)) (s : QuoteState) :
    l.foldlM (fun s b => quoteTurn b.1 b.2 s) s =
      (l.flatMap fun b => (bracketsOf b.1).map fun e => (b.2, e)).foldlM bracketStep s := by
  induction l generalizing s with
  | nil => rfl
  | cons b l ih =>
      rw [List.foldlM_cons, List.flatMap_cons, List.foldlM_append, quoteTurn_eq]
      exact bind_congr fun s => ih s

/-- The order of the brackets: in a bunsetsu those that open come first. -/
def rank (e : Nat × Bracket) : Nat :=
  match e.2 with
  | .opening => 2 * e.1
  | .closing => 2 * e.1 + 1

theorem bracketsOf_sorted (f : List String) (i : Nat) :
    ((bracketsOf f).map fun e => (i, e)).Pairwise fun e e' => rank e ≤ rank e' := by
  unfold bracketsOf
  cases hasFeature f "括弧始" <;> cases hasFeature f "括弧始２" <;>
    cases hasFeature f "括弧終" <;> cases hasFeature f "括弧終２" <;> simp [rank]

theorem brackets_sorted (bnst : List (List String)) :
    (brackets bnst).Pairwise fun e e' => rank e ≤ rank e' := by
  refine List.pairwise_flatMap.mpr ⟨fun b _ => bracketsOf_sorted b.1 b.2, ?_⟩
  have hlt : (bnst.zipIdx.map Prod.snd).Pairwise (· < ·) := by
    rw [List.zipIdx_map_snd]
    exact List.pairwise_lt_range'
  refine (List.pairwise_map.mp hlt).imp fun {b b'} hb e he e' he' => ?_
  obtain ⟨x, -, rfl⟩ := List.mem_map.mp he
  obtain ⟨x', -, rfl⟩ := List.mem_map.mp he'
  cases x <;> cases x' <;> simp only [rank] <;> omega

theorem lt_of_mem_brackets {bnst : List (List String)} {e : Nat × Bracket}
    (h : e ∈ brackets bnst) : e.1 < bnst.length := by
  obtain ⟨b, hb, he⟩ := List.mem_flatMap.mp h
  obtain ⟨x, -, rfl⟩ := List.mem_map.mp he
  have := List.snd_lt_of_mem_zipIdx hb
  simpa using this

/-! ## Matching brackets -/

/-- The bunsetsu of the brackets of one kind. -/
def positions (x : Bracket) (done : List (Nat × Bracket)) : List Nat :=
  (done.filter fun e => e.2 = x).map Prod.fst

/-- How a slot `q` stands to a later one `q'`: it was closed in front of it, or was open and
is not closed before it; and where nothing was open, it lies in the later one. -/
def Beside (opener closer : Nat → Option Nat) (q q' : Nat) : Prop :=
  match opener q' with
  | none => ∃ b ∈ closer q, ∃ b' ∈ closer q', b ≤ b'
  | some a' => (∃ b ∈ closer q, b < a') ∨
      (∃ a ∈ opener q, a ≤ a') ∧ ∀ b ∈ closer q, ∃ b' ∈ closer q', b' ≤ b

/-- The state after the brackets `done`; `opener` and `closer` are the bunsetsu of the brackets of
each slot. -/
structure Matched (done : List (Nat × Bracket)) (k : Nat) (stack : List Nat)
    (opener closer : Nat → Option Nat) : Prop where
  lt : k < QUOTE_MAX
  fresh : ∀ q, k ≤ q → opener q = none ∧ closer q = none
  opened : ∀ q, ∀ a ∈ opener q, (a, Bracket.opening) ∈ done
  closed : ∀ q, ∀ b ∈ closer q, (b, Bracket.closing) ∈ done
  sorted : stack.Pairwise (· > ·)
  mem_stack : ∀ q, q ∈ stack ↔ q < k ∧ closer q = none
  isSome : ∀ q < k, closer q = none → (opener q).isSome
  le : ∀ q, ∀ a ∈ opener q, ∀ b ∈ closer q, a ≤ b
  beside : ∀ q q', q < q' → q' < k → Beside opener closer q q'
  opens : ((List.range k).filterMap opener).Perm (positions .opening done)
  closes : ((List.range k).filterMap closer).Perm (positions .closing done)

section Steps

variable {done : List (Nat × Bracket)} {k i q : Nat} {stack : List Nat}
  {opener closer : Nat → Option Nat}

theorem filterMap_range_update {f : Nat → Option Nat} (hq : q < k) (hf : f q = none) :
    ((List.range k).filterMap (Function.update f q (some i))).Perm
      ((List.range k).filterMap f ++ [i]) := by
  induction k with
  | zero => exact absurd hq (Nat.not_lt_zero q)
  | succ k ih =>
      rw [List.range_succ, List.filterMap_append, List.filterMap_append]
      rcases Nat.lt_succ_iff_lt_or_eq.mp hq with hlt | rfl
      · have htail : [k].filterMap (Function.update f q (some i)) = [k].filterMap f := by
          simp [List.filterMap_cons, Function.update_of_ne hlt.ne']
        rw [htail, List.append_assoc]
        exact ((ih hlt).append_right _).trans (by
          rw [List.append_assoc]
          exact List.perm_append_comm.append_left _)
      · have hfront : (List.range q).filterMap (Function.update f q (some i)) =
            (List.range q).filterMap f := List.filterMap_congr fun p hp => by
          rw [Function.update_of_ne (List.mem_range.mp hp).ne]
        rw [hfront]
        simp [hf]

theorem positions_concat (x : Bracket) (e : Nat × Bracket) :
    positions x (done ++ [e]) = positions x done ++ if e.2 = x then [e.1] else [] := by
  unfold positions
  rw [List.filter_append, List.map_append]
  by_cases h : e.2 = x <;> simp [h]

theorem filterMap_range_succ {f : Nat → Option Nat} (hf : f k = none) :
    (List.range (k + 1)).filterMap f = (List.range k).filterMap f := by
  simp [List.range_succ, hf]

theorem Beside.congr {opener' closer' : Nat → Option Nat} {q' : Nat}
    (h : Beside opener closer q q') (ho : opener' q = opener q) (ho' : opener' q' = opener q')
    (hc : closer' q = closer q) (hc' : closer' q' = closer q') : Beside opener' closer' q q' := by
  unfold Beside at h ⊢
  rwa [ho, ho', hc, hc']

/-- A slot that has not been taken. -/
theorem filterMap_range_new {f : Nat → Option Nat} (hf : f k = none) :
    ((List.range (k + 1)).filterMap (Function.update f k (some i))).Perm
      ((List.range k).filterMap f ++ [i]) := by
  rw [← filterMap_range_succ hf]
  exact filterMap_range_update (Nat.lt_succ_self k) hf

/-- The new bracket is that of the slot `p`, the others are as before. -/
theorem mem_concat_of_update {f : Nat → Option Nat} {x : Bracket} {p : Nat}
    (h : ∀ q, ∀ a ∈ f q, (a, x) ∈ done) :
    ∀ q, ∀ a ∈ Function.update f p (some i) q, (a, x) ∈ done ++ [(i, x)] := by
  intro q a ha
  by_cases hq : q = p
  · subst hq
    rw [Function.update_self] at ha
    obtain rfl := Option.some.inj ha
    simp
  · rw [Function.update_of_ne hq] at ha
    exact List.mem_append_left _ (h q a ha)

/-- An opening bracket takes the next slot. -/
theorem Matched.opening (h : Matched done k stack opener closer) (hk : k < QUOTE_MAX - 1)
    (hord : ∀ e ∈ done, rank e ≤ rank (i, .opening)) :
    Matched (done ++ [(i, .opening)]) (k + 1) (k :: stack) (Function.update opener k (some i))
      closer := by
  have hself : Function.update opener k (some i) k = some i := Function.update_self ..
  have hother : ∀ {q}, q ≠ k → Function.update opener k (some i) q = opener q :=
    fun hq => Function.update_of_ne hq ..
  have hcloser : closer k = none := (h.fresh k le_rfl).2
  constructor
  · omega
  · exact fun q hq => ⟨(hother (by omega)).trans (h.fresh q (by omega)).1, (h.fresh q (by omega)).2⟩
  · exact mem_concat_of_update h.opened
  · exact fun q b hb => List.mem_append_left _ (h.closed q b hb)
  · exact List.pairwise_cons.mpr ⟨fun q hq => ((h.mem_stack q).mp hq).1, h.sorted⟩
  · intro q
    rw [List.mem_cons, h.mem_stack]
    constructor
    · rintro (rfl | ⟨hq, hnone⟩)
      · exact ⟨Nat.lt_succ_self q, hcloser⟩
      · exact ⟨Nat.lt_succ_of_lt hq, hnone⟩
    · rintro ⟨hq, hnone⟩
      rcases Nat.lt_succ_iff_lt_or_eq.mp hq with hlt | rfl
      · exact Or.inr ⟨hlt, hnone⟩
      · exact Or.inl rfl
  · intro q hq hnone
    by_cases hqk : q = k
    · subst hqk
      rw [hself]
      rfl
    · rw [hother hqk]
      exact h.isSome q (by omega) hnone
  · intro q a ha b hb
    by_cases hq : q = k
    · subst hq
      rw [hcloser] at hb
      exact absurd hb (by simp)
    · rw [hother hq] at ha
      exact h.le q a ha b hb
  · intro q q' hqq hq'
    have hqk : q ≠ k := by omega
    by_cases hq'k : q' = k
    · subst hq'k
      unfold Beside
      rw [hself, hother hqk]
      cases hb : closer q with
      | some b =>
          have := hord _ (h.closed q b hb)
          exact Or.inl ⟨b, rfl, by simp only [rank] at this; omega⟩
      | none =>
          obtain ⟨a, ha⟩ := Option.isSome_iff_exists.mp (h.isSome q hqq hb)
          have := hord _ (h.opened q a ha)
          exact Or.inr ⟨⟨a, ha, by simp only [rank] at this; omega⟩, by simp⟩
    · exact (h.beside q q' hqq (by omega)).congr (hother hqk) (hother hq'k) rfl rfl
  · rw [positions_concat]
    exact (filterMap_range_new (h.fresh k le_rfl).1).trans (h.opens.append_right _)
  · rw [positions_concat, filterMap_range_succ hcloser]
    simpa using h.closes

/-- A closing bracket closes the innermost open slot. -/
theorem Matched.closing (h : Matched done k (q :: stack) opener closer)
    (hord : ∀ e ∈ done, rank e ≤ rank (i, .closing)) :
    Matched (done ++ [(i, .closing)]) k stack opener (Function.update closer q (some i)) := by
  have hself : Function.update closer q (some i) q = some i := Function.update_self ..
  have hother : ∀ {p}, p ≠ q → Function.update closer q (some i) p = closer p :=
    fun hp => Function.update_of_ne hp ..
  obtain ⟨hqk, hnone⟩ := (h.mem_stack q).mp List.mem_cons_self
  obtain ⟨hbelow, hsorted⟩ := List.pairwise_cons.mp h.sorted
  have hinner : ∀ p, q < p → p < k → ∃ b, closer p = some b := fun p hqp hpk => by
    cases hb : closer p with
    | some b => exact ⟨b, rfl⟩
    | none =>
        rcases List.mem_cons.mp ((h.mem_stack p).mpr ⟨hpk, hb⟩) with rfl | hmem
        · exact absurd hqp (lt_irrefl p)
        · exact absurd (hbelow p hmem) (by omega)
  constructor
  · exact h.lt
  · exact fun p hp => ⟨(h.fresh p hp).1, (hother (by omega)).trans (h.fresh p hp).2⟩
  · exact fun p a ha => List.mem_append_left _ (h.opened p a ha)
  · exact mem_concat_of_update h.closed
  · exact hsorted
  · intro p
    by_cases hp : p = q
    · subst hp
      rw [hself]
      simp only [reduceCtorEq, and_false, iff_false]
      exact fun hmem => absurd (hbelow p hmem) (lt_irrefl p)
    · rw [hother hp, ← h.mem_stack, List.mem_cons]
      exact ⟨Or.inr, fun hmem => hmem.resolve_left hp⟩
  · intro p hp hpnone
    by_cases hpq : p = q
    · subst hpq
      exact h.isSome p hp hnone
    · rw [hother hpq] at hpnone
      exact h.isSome p hp hpnone
  · intro p a ha b hb
    by_cases hp : p = q
    · subst hp
      rw [hself] at hb
      obtain rfl := Option.some.inj hb
      have := hord _ (h.opened p a ha)
      simp only [rank] at this
      omega
    · rw [hother hp] at hb
      exact h.le p a ha b hb
  · intro p p' hpp hp'
    have hold := h.beside p p' hpp hp'
    by_cases hpq : p = q
    · subst hpq
      -- the slots behind it have been closed in it
      obtain ⟨b', hb'⟩ := hinner p' hpp hp'
      have hle : b' ≤ i := by
        have := hord _ (h.closed p' b' hb')
        simp only [rank] at this
        omega
      unfold Beside at hold ⊢
      rw [hself, hother (by omega)]
      rw [hnone, hb'] at hold
      cases ha' : opener p' with
      | none => simp [ha'] at hold
      | some a' =>
          simp only [ha', Option.not_mem_none, false_and, exists_false, false_or] at hold
          exact Or.inr ⟨hold.1, fun b hb => ⟨b', hb', by
            obtain rfl := Option.some.inj hb
            exact hle⟩⟩
    · by_cases hp'q : p' = q
      · subst hp'q
        -- a slot in front of it is open as well, or was closed before it
        obtain ⟨a', ha'⟩ := Option.isSome_iff_exists.mp (h.isSome p' hqk hnone)
        unfold Beside at hold ⊢
        rw [hself, hother hpq]
        rw [ha', hnone] at hold
        rw [ha']
        rcases hold with hleft | ⟨hle, hall⟩
        · exact Or.inl hleft
        · refine Or.inr ⟨hle, fun b hb => ?_⟩
          obtain ⟨b', hb', -⟩ := hall b hb
          exact absurd hb' (by simp)
      · exact hold.congr rfl rfl (hother hpq) (hother hp'q)
  · rw [positions_concat]
    simpa using h.opens
  · rw [positions_concat]
    exact (filterMap_range_update hqk hnone).trans (h.closes.append_right _)

/-- A closing bracket for which nothing is open takes a slot of its own. -/
theorem Matched.unopened (h : Matched done k [] opener closer) (hk : k < QUOTE_MAX - 1)
    (hord : ∀ e ∈ done, rank e ≤ rank (i, .closing)) :
    Matched (done ++ [(i, .closing)]) (k + 1) [] opener (Function.update closer k (some i)) := by
  have hself : Function.update closer k (some i) k = some i := Function.update_self ..
  have hother : ∀ {q}, q ≠ k → Function.update closer k (some i) q = closer q :=
    fun hq => Function.update_of_ne hq ..
  have hopener : opener k = none := (h.fresh k le_rfl).1
  have hclosed : ∀ q < k, ∃ b, closer q = some b := fun q hq => by
    cases hb : closer q with
    | some b => exact ⟨b, rfl⟩
    | none => exact absurd ((h.mem_stack q).mpr ⟨hq, hb⟩) List.not_mem_nil
  constructor
  · omega
  · exact fun q hq => ⟨(h.fresh q (by omega)).1, (hother (by omega)).trans (h.fresh q (by omega)).2⟩
  · exact fun q a ha => List.mem_append_left _ (h.opened q a ha)
  · exact mem_concat_of_update h.closed
  · exact List.Pairwise.nil
  · intro q
    simp only [List.not_mem_nil, false_iff, not_and]
    intro hq
    by_cases hqk : q = k
    · rw [hqk, hself]
      simp
    · obtain ⟨b, hb⟩ := hclosed q (by omega)
      rw [hother hqk, hb]
      simp
  · intro q hq hnone
    by_cases hqk : q = k
    · rw [hqk, hself] at hnone
      exact absurd hnone (by simp)
    · rw [hother hqk] at hnone
      exact h.isSome q (by omega) hnone
  · intro q a ha b hb
    by_cases hq : q = k
    · subst hq
      rw [hopener] at ha
      exact absurd ha (by simp)
    · rw [hother hq] at hb
      exact h.le q a ha b hb
  · intro q q' hqq hq'
    have hqk : q ≠ k := by omega
    by_cases hq'k : q' = k
    · subst hq'k
      obtain ⟨b, hb⟩ := hclosed q hqq
      have := hord _ (h.closed q b hb)
      simp only [rank] at this
      unfold Beside
      rw [hopener, hself, hother hqk]
      exact ⟨b, hb, i, rfl, by omega⟩
    · exact (h.beside q q' hqq (by omega)).congr rfl rfl (hother hqk) (hother hq'k)
  · rw [positions_concat, filterMap_range_succ hopener]
    simpa using h.opens
  · rw [positions_concat]
    exact (filterMap_range_new (h.fresh k le_rfl).2).trans (h.closes.append_right _)

end Steps

/-! ## The run of `check_quote` -/

/-- What a slot holds for a bracket, or for none. -/
def slotNum : Option Nat → Int
  | none => -1
  | some i => i

/-- A state whose data are those of matched brackets. -/
def Sound (done : List (Nat × Bracket)) (s : QuoteState) : Prop :=
  ∃ opener closer, Matched done s.k s.stack opener closer ∧
    (∀ q, s.data.inNum q = slotNum (opener q)) ∧ ∀ q, s.data.outNum q = slotNum (closer q)

section Run

variable {done l : List (Nat × Bracket)} {s s' : QuoteState} {e : Nat × Bracket}

theorem slotNum_update {f : Nat → Int} {g : Nat → Option Nat} (h : ∀ q, f q = slotNum (g q))
    (p i : Nat) (q : Nat) :
    Function.update f p (i : Int) q = slotNum (Function.update g p (some i) q) := by
  by_cases hq : q = p
  · subst hq
    rw [Function.update_self, Function.update_self]
    rfl
  · rw [Function.update_of_ne hq, Function.update_of_ne hq, h]

theorem sound_init : Sound [] ⟨initQuote, 0, []⟩ := by
  refine ⟨fun _ => none, fun _ => none, ?_, fun _ => rfl, fun _ => rfl⟩
  constructor <;> simp [QUOTE_MAX, positions]

/-- What a bracket does: it opens a slot, it takes one without an opener, or it closes one. -/
theorem bracketStep_cases (hstep : bracketStep s e = .ok s') :
    (∃ i, e = (i, .opening) ∧ s.k < QUOTE_MAX - 1 ∧ s' =
      ⟨⟨Function.update s.data.inNum s.k i, s.data.outNum⟩, s.k + 1, s.k :: s.stack⟩) ∨
    (∃ i, e = (i, .closing) ∧ s.stack = [] ∧ s.k < QUOTE_MAX - 1 ∧ s' =
      ⟨⟨s.data.inNum, Function.update s.data.outNum s.k i⟩, s.k + 1, []⟩) ∨
    ∃ i q stack, e = (i, .closing) ∧ s.stack = q :: stack ∧ s' =
      ⟨⟨s.data.inNum, Function.update s.data.outNum q i⟩, s.k, stack⟩ := by
  obtain ⟨i, x⟩ := e
  cases x with
  | opening =>
      simp only [bracketStep, openQuote] at hstep
      split_ifs at hstep with hfull
      exact .inl ⟨i, rfl, Nat.lt_of_not_le hfull, (Except.ok.inj hstep).symm⟩
  | closing =>
      simp only [bracketStep, closeQuote] at hstep
      split at hstep
      · next hstack =>
          split_ifs at hstep with hfull
          exact .inr (.inl ⟨i, rfl, hstack, Nat.lt_of_not_le hfull, (Except.ok.inj hstep).symm⟩)
      · next q stack hstack =>
          exact .inr (.inr ⟨i, q, stack, rfl, hstack, (Except.ok.inj hstep).symm⟩)

theorem Sound.step (h : Sound done s) (hord : ∀ e' ∈ done, rank e' ≤ rank e)
    (hstep : bracketStep s e = .ok s') : Sound (done ++ [e]) s' := by
  obtain ⟨opener, closer, hm, hin, hout⟩ := h
  obtain ⟨i, rfl, hk, rfl⟩ | ⟨i, rfl, hstack, hk, rfl⟩ | ⟨i, q, stack, rfl, hstack, rfl⟩ :=
    bracketStep_cases hstep
  · exact ⟨_, closer, hm.opening (by omega) hord, slotNum_update hin _ i, hout⟩
  · rw [hstack] at hm
    exact ⟨opener, _, hm.unopened (by omega) hord, hin, slotNum_update hout _ i⟩
  · rw [hstack] at hm
    exact ⟨opener, _, hm.closing hord, hin, slotNum_update hout q i⟩

theorem Sound.run (h : Sound done s) (hsorted : (done ++ l).Pairwise fun e e' => rank e ≤ rank e')
    (hrun : l.foldlM bracketStep s = .ok s') : Sound (done ++ l) s' := by
  induction l generalizing done s with
  | nil =>
      obtain rfl := Except.ok.inj hrun
      rwa [List.append_nil]
  | cons e l ih =>
      rw [List.foldlM_cons] at hrun
      cases hstep : bracketStep s e with
      | error s₁ =>
          rw [hstep] at hrun
          cases hrun
      | ok s₁ =>
          rw [hstep] at hrun
          have hord : ∀ e' ∈ done, rank e' ≤ rank e := fun e' he' =>
            (List.pairwise_append.mp hsorted).2.2 e' he' e List.mem_cons_self
          rw [← List.singleton_append, ← List.append_assoc] at hsorted ⊢
          exact ih (h.step hord hstep) hsorted hrun

end Run

/-! ## The data that are recorded -/

/-- What the last loop of `check_quote` leaves. -/
theorem fillQuote_loop (last : Int) (k : Nat) (d : QuoteData) (q : Nat) :
    (upTo 0 k (fillQuote last) d).inNum q = (if q < k ∧ d.inNum q = -1 then 0 else d.inNum q) ∧
      (upTo 0 k (fillQuote last) d).outNum q =
        if q < k ∧ d.outNum q = -1 then last else d.outNum q := by
  refine upTo_induction (fillQuote last) (fun n d' =>
    d'.inNum q = (if q < n ∧ d.inNum q = -1 then 0 else d.inNum q) ∧
      d'.outNum q = if q < n ∧ d.outNum q = -1 then last else d.outNum q) (Nat.zero_le k) ?_ ?_
  · rintro n d' - - ⟨hin, hout⟩
    by_cases hqn : q = n
    · subst hqn
      simp only [lt_irrefl, false_and, if_false] at hin hout
      constructor
      · unfold fillQuote
        by_cases h : d.inNum q = -1 <;> simp [hin, h]
      · unfold fillQuote
        by_cases h : d.outNum q = -1 <;> simp [hout, h]
    · have hlt : q < n + 1 ↔ q < n := by omega
      simp only [hlt, ← hin, ← hout, fillQuote]
      constructor <;> split_ifs <;> simp [Function.update_of_ne hqn]
  · simp

/-- The quotes in the first `k` slots. -/
structure QuotesFound (bnst : List (List String)) (k : Nat) (d : QuoteData) : Prop where
  range : ∀ q < k, 0 ≤ d.inNum q ∧ d.inNum q ≤ d.outNum q ∧ d.outNum q < bnst.length
  /-- nested or disjoint -/
  laminar : ∀ q < k, ∀ q' < k, q ≠ q' →
    (d.outNum q < d.inNum q' ∨ d.outNum q' < d.inNum q) ∨
      (d.inNum q ≤ d.inNum q' ∧ d.outNum q' ≤ d.outNum q) ∨
      (d.inNum q' ≤ d.inNum q ∧ d.outNum q ≤ d.outNum q')
  /-- each bracket is that of one slot -/
  once : ∃ opener closer : Nat → Option Nat,
    (∀ q < k, d.inNum q = ((opener q).getD 0 : Nat)) ∧
      (∀ q < k, d.outNum q = ((closer q).getD (bnst.length - 1) : Nat)) ∧
      ((List.range k).filterMap opener).Perm (positions .opening (brackets bnst)) ∧
      ((List.range k).filterMap closer).Perm (positions .closing (brackets bnst))
  guard : d.inNum k = -1 ∧ d.outNum k = -1

theorem slotNum_eq_neg_one {o : Option Nat} : slotNum o = -1 ↔ o = none := by
  cases o with
  | none => simp [slotNum]
  | some i => simp [slotNum]

section Found

variable {bnst : List (List String)} {s : QuoteState}

/-- The bounds of two slots, where quotes that are not closed go on to the last bunsetsu. -/
theorem Matched.nested {done : List (Nat × Bracket)} {k : Nat} {stack : List Nat}
    {opener closer : Nat → Option Nat} (hm : Matched done k stack opener closer) {last : Nat}
    (hlast : ∀ q, ∀ b ∈ closer q, b ≤ last) {q q' : Nat} (hqq : q < q') (hq' : q' < k) :
    (closer q).getD last < (opener q').getD 0 ∨
      ((opener q).getD 0 ≤ (opener q').getD 0 ∧ (closer q').getD last ≤ (closer q).getD last) ∨
      ((opener q').getD 0 ≤ (opener q).getD 0 ∧ (closer q).getD last ≤ (closer q').getD last) := by
  have hbeside := hm.beside q q' hqq hq'
  unfold Beside at hbeside
  cases ha' : opener q' with
  | none =>
      rw [ha'] at hbeside
      obtain ⟨b, hb, b', hb', hle⟩ := hbeside
      exact Or.inr (Or.inr ⟨Nat.zero_le _, by rw [hb, hb']; exact hle⟩)
  | some a' =>
      rw [ha'] at hbeside
      rcases hbeside with ⟨b, hb, hlt⟩ | ⟨⟨a, ha, hle⟩, hall⟩
      · exact Or.inl (by rw [hb]; exact hlt)
      · refine Or.inr (Or.inl ⟨by rw [ha]; exact hle, ?_⟩)
        cases hb : closer q with
        | none =>
            cases hb' : closer q' with
            | none => exact le_rfl
            | some b' => exact hlast q' b' hb'
        | some b =>
            obtain ⟨b', hb', hle'⟩ := hall b hb
            rw [hb']
            exact hle'

theorem Sound.found (h : Sound (brackets bnst) s) :
    QuotesFound bnst s.k (upTo 0 s.k (fillQuote ((bnst.length : Int) - 1)) s.data) := by
  obtain ⟨opener, closer, hm, hin, hout⟩ := h
  have hopen : ∀ q, ∀ a ∈ opener q, a < bnst.length := fun q a ha =>
    lt_of_mem_brackets (hm.opened q a ha)
  have hclose : ∀ q, ∀ b ∈ closer q, b < bnst.length := fun q b hb =>
    lt_of_mem_brackets (hm.closed q b hb)
  have hpos : ∀ q < s.k, 0 < bnst.length := fun q hq => by
    cases hb : closer q with
    | some b => exact Nat.zero_lt_of_lt (hclose q b hb)
    | none =>
        obtain ⟨a, ha⟩ := Option.isSome_iff_exists.mp (hm.isSome q hq hb)
        exact Nat.zero_lt_of_lt (hopen q a ha)
  have hin' : ∀ q < s.k, (upTo 0 s.k (fillQuote ((bnst.length : Int) - 1)) s.data).inNum q =
      ((opener q).getD 0 : Nat) := fun q hq => by
    rw [(fillQuote_loop _ _ _ q).1, hin]
    simp only [slotNum_eq_neg_one]
    cases opener q <;> simp [hq, slotNum]
  have hout' : ∀ q < s.k, (upTo 0 s.k (fillQuote ((bnst.length : Int) - 1)) s.data).outNum q =
      ((closer q).getD (bnst.length - 1) : Nat) := fun q hq => by
    have hlen := hpos q hq
    rw [(fillQuote_loop _ _ _ q).2, hout]
    simp only [slotNum_eq_neg_one]
    cases closer q with
    | none =>
        simp only [hq, true_and, if_true, Option.getD_none]
        omega
    | some b => simp [slotNum]
  have hlast : ∀ q, ∀ b ∈ closer q, b ≤ bnst.length - 1 := fun q b hb => by
    have := hclose q b hb
    omega
  constructor
  · intro q hq
    have hlen := hpos q hq
    rw [hin' q hq, hout' q hq]
    refine ⟨Int.natCast_nonneg _, ?_, ?_⟩
    · rw [Int.ofNat_le]
      cases ha : opener q with
      | none => exact Nat.zero_le _
      | some a =>
          cases hb : closer q with
          | none => exact Nat.le_sub_one_of_lt (hopen q a ha)
          | some b => exact hm.le q a ha b hb
    · rw [Int.ofNat_lt]
      cases hb : closer q with
      | none => exact Nat.sub_lt hlen Nat.one_pos
      | some b => exact hclose q b hb
  · intro q hq q' hq' hne
    rw [hin' q hq, hout' q hq, hin' q' hq', hout' q' hq']
    simp only [Int.ofNat_le, Int.ofNat_lt]
    rcases Nat.lt_or_gt_of_ne hne with hlt | hgt
    · rcases hm.nested hlast hlt hq' with h | h
      · exact Or.inl (Or.inl h)
      · exact Or.inr h
    · rcases hm.nested hlast hgt hq with h | h | h
      · exact Or.inl (Or.inr h)
      · exact Or.inr (Or.inr h)
      · exact Or.inr (Or.inl h)
  · exact ⟨opener, closer, hin', hout', hm.opens, hm.closes⟩
  · rw [(fillQuote_loop _ _ _ s.k).1, (fillQuote_loop _ _ _ s.k).2, hin, hout,
      (hm.fresh s.k le_rfl).1, (hm.fresh s.k le_rfl).2]
    simp [slotNum]

end Found

/-! ## The matrix of a sentence -/

/-- The loop over the slots up to the guard. -/
theorem forQuotes_iff {d : QuoteData} {body : Int → Int → (Nat → Nat → Bool) → Nat → Nat → Bool}
    {k i j : Nat} {c : Nat → Prop} (hguard : d.inNum k = -1) (hin : ∀ q < k, 0 ≤ d.inNum q)
    (hbody : ∀ q < k, ∀ m, body (d.inNum q) (d.outNum q) m i j = true ↔ m i j = true ∧ c q) :
    ∀ {fuel p : Nat} {m : Nat → Nat → Bool}, p ≤ k → k < p + fuel →
      (forQuotes d body fuel p m i j = true ↔ m i j = true ∧ ∀ q, p ≤ q → q < k → c q)
  | 0, p, m, hp, hfuel => absurd hfuel (by omega)
  | fuel + 1, p, m, hp, hfuel => by
      unfold forQuotes
      rcases Nat.lt_or_eq_of_le hp with hlt | rfl
      · rw [if_pos (hin p hlt), forQuotes_iff hguard hin hbody hlt (by omega), hbody p hlt,
          and_assoc]
        refine and_congr_right fun _ => ⟨?_, ?_⟩
        · rintro ⟨hcp, hall⟩ q hpq hqk
          rcases Nat.lt_or_eq_of_le hpq with hlt' | rfl
          · exact hall q hlt' hqk
          · exact hcp
        · exact fun hall => ⟨hall p le_rfl hlt, fun q hpq => hall q (by omega)⟩
      · rw [if_neg (by rw [hguard]; decide)]
        have hnone : ∀ q, p ≤ q → q < p → c q := fun q hle hlt => absurd hlt (not_lt.mpr hle)
        exact ⟨fun hm => ⟨hm, hnone⟩, And.left⟩

theorem maskQuote_iff {bnst : List (List String)} {k i j : Nat} {d : QuoteData}
    (h : QuotesFound bnst k d) (hk : k < QUOTE_MAX) (hj : j < bnst.length) :
    maskQuote bnst d (fun _ _ => true) i j = true ↔
      ∀ q < k, QuotePermits bnst (d.inNum q).toNat (d.outNum q).toNat i j := by
  have hbody : ∀ q < k, ∀ m, maskQuoteTurn bnst (d.inNum q) (d.outNum q) m i j = true ↔
      m i j = true ∧ QuotePermits bnst (d.inNum q).toNat (d.outNum q).toNat i j := fun q hq m => by
    obtain ⟨hin, hle, -⟩ := h.range q hq
    obtain ⟨a, ha⟩ := Int.eq_ofNat_of_zero_le hin
    obtain ⟨b, hb⟩ := Int.eq_ofNat_of_zero_le (hin.trans hle)
    rw [ha, hb]
    exact retains_maskQuoteTurn bnst a b m i j hj
  rw [maskQuote, forQuotes_iff h.guard.1 (fun q hq => (h.range q hq).1) hbody (Nat.zero_le k)
    (by omega)]
  simp

/-- Where `check_quote` does not give up, it finds quotes, and `mask_quote` leaves the cells that
all quotes permit. -/
theorem checkQuote_found (bnst : List (List String)) (quoteP : Bool) (d : QuoteData)
    (h : checkQuote bnst = .ok (quoteP, d)) : ∃ k < QUOTE_MAX, QuotesFound bnst k d ∧
      ∀ i j, i < bnst.length → j < bnst.length →
        (maskQuote bnst d (fun _ _ => true) i j = true ↔
          ∀ q < k, QuotePermits bnst (d.inNum q).toNat (d.outNum q).toNat i j) := by
  unfold checkQuote at h
  rw [quoteLoop_eq] at h
  cases hrun : (brackets bnst).foldlM bracketStep ⟨initQuote, 0, []⟩ with
  | error s =>
      unfold brackets at hrun
      rw [hrun] at h
      cases h
  | ok s =>
      have hsound : Sound (brackets bnst) s := sound_init.run (brackets_sorted bnst) hrun
      unfold brackets at hrun
      rw [hrun] at h
      obtain ⟨rfl, rfl⟩ := Prod.mk.inj (Except.ok.inj h)
      have hk : s.k < QUOTE_MAX := by
        obtain ⟨_, _, hm, -, -⟩ := hsound
        exact hm.lt
      have hfound := hsound.found
      refine ⟨s.k, hk, hfound, fun i j _ hj => ?_⟩
      exact maskQuote_iff hfound hk hj

/-- 「『 in the first bunsetsu, 』 in the second, and 」 in the third. -/
def twoQuotes : List (List String) := [["括弧始", "括弧始２"], ["括弧終"], ["括弧終"]]

theorem twoQuotes_found : ∃ d, checkQuote twoQuotes = .ok (true, d) ∧
    ∃ k < QUOTE_MAX, QuotesFound twoQuotes k d ∧
      ∀ i j, i < 3 → j < 3 → (maskQuote twoQuotes d (fun _ _ => true) i j = true ↔
        ∀ q < k, QuotePermits twoQuotes (d.inNum q).toNat (d.outNum q).toNat i j) :=
  ⟨_, rfl, checkQuote_found twoQuotes true _ rfl⟩

end Knp.Quote
