import Knp.QuoteScope

/-!
# The relaxation (`relax_dpnd_matrix` of `dpnd_analysis.c`)

係り先がない場合の緩和: a bunsetsu without a head may depend on the last bunsetsu that the quotes
permit, but on none behind the first 係:文末 of these, and only where that one ends a sentence or a
quote.

> A bunsetsu has a head after the relaxation just if it had one, or its last possibility is
> such an end.

A bunsetsu to which the quotes leave nothing is not spoken of.
-/

namespace Knp.Quote

open Loop

/-- The entry of a dependency that is only allowed for want of another one. -/
def relaxed : Int := ('R'.toNat : Nat)

/-- The search in a row from column `j` on: whether there is a dependency, and the last
possibility. -/
def searchRow (bnst : List (List String)) (quoteRow : Nat → Bool) (dpndRow : Nat → Int) :
    Nat → Nat → Nat → Bool × Nat
  | 0, _, lastPossibility => (false, lastPossibility)
  | fuel + 1, j, lastPossibility =>
      if quoteRow j then
        if dpndRow j > 0 then (true, lastPossibility)
        else if hasFeature (bnst.getD j []) "係:文末" then (false, j)
        else searchRow bnst quoteRow dpndRow fuel (j + 1) j
      else searchRow bnst quoteRow dpndRow fuel (j + 1) lastPossibility

/-- (文末), (係:文末), (括弧終) -/
def endsClause (f : List String) : Bool :=
  hasFeature f "文末" || hasFeature f "係:文末" || hasFeature f "括弧終"

/-- The turn of the loop for the bunsetsu `i`, with the flag of the relaxation. -/
def relaxTurn (bnst : List (List String)) (quoteMatrix : Nat → Nat → Bool) (i : Nat)
    (s : (Nat → Nat → Int) × Bool) : (Nat → Nat → Int) × Bool :=
  let (okFlag, lastPossibility) :=
    searchRow bnst (quoteMatrix i) (s.1 i) (bnst.length - (i + 1)) (i + 1) i
  if okFlag then s
  else if endsClause (bnst.getD lastPossibility []) then
    (fun a b => if a = i ∧ b = lastPossibility then relaxed else s.1 a b, true)
  else s

def relaxDpndMatrix (bnst : List (List String)) (quoteMatrix : Nat → Nat → Bool)
    (dpndMatrix : Nat → Nat → Int) : (Nat → Nat → Int) × Bool :=
  upTo 0 (bnst.length - 1) (relaxTurn bnst quoteMatrix) (dpndMatrix, false)

/-! ## The search in a row -/

/-- Column `k` is looked at from `j` on, where it is permitted. -/
structure Reaches (bnst : List (List String)) (quoteRow : Nat → Bool) (j k : Nat) : Prop where
  le : j ≤ k
  lt : k < bnst.length
  permitted : quoteRow k = true
  before : ∀ l, j ≤ l → l < k → quoteRow l = true →
    hasFeature (bnst.getD l []) "係:文末" = false

section Search

variable {bnst : List (List String)} {quoteRow : Nat → Bool} {dpndRow : Nat → Int} {j k : Nat}

theorem reaches_self (hj : j < bnst.length) (hq : quoteRow j = true) :
    Reaches bnst quoteRow j j :=
  ⟨le_rfl, hj, hq, fun _ hle hlt => absurd hlt (not_lt.mpr hle)⟩

/-- The columns behind `j`, unless the search ends there. -/
theorem reaches_succ
    (h : quoteRow j = true → hasFeature (bnst.getD j []) "係:文末" = false) (hne : k ≠ j) :
    Reaches bnst quoteRow j k ↔ Reaches bnst quoteRow (j + 1) k := by
  constructor
  · intro hk
    have := hk.le
    exact ⟨by omega, hk.lt, hk.permitted, fun l hle => hk.before l (by omega)⟩
  · intro hk
    refine ⟨(Nat.le_succ j).trans hk.le, hk.lt, hk.permitted, fun l hle hlt hq => ?_⟩
    rcases Nat.eq_or_lt_of_le hle with rfl | hjl
    · exact h hq
    · exact hk.before l hjl hlt hq

theorem Reaches.eq_of_period (hk : Reaches bnst quoteRow j k) (hq : quoteRow j = true)
    (hperiod : hasFeature (bnst.getD j []) "係:文末" = true) : k = j := by
  by_contra hne
  have hlt : j < k := lt_of_le_of_ne hk.le (Ne.symm hne)
  rw [hk.before j le_rfl hlt hq] at hperiod
  cases hperiod

theorem Reaches.ne_of_not (hk : Reaches bnst quoteRow j k) (hq : ¬quoteRow j = true) : k ≠ j := by
  rintro rfl
  exact hq hk.permitted

/-- What a search from column `j` on comes to; `last` is the last possibility so far. -/
inductive Searched (bnst : List (List String)) (quoteRow : Nat → Bool) (dpndRow : Nat → Int)
    (j last : Nat) : Bool × Nat → Prop
  | found {k l : Nat} (hk : Reaches bnst quoteRow j k) (hdpnd : 0 < dpndRow k) :
      Searched bnst quoteRow dpndRow j last (true, l)
  | atEnd {k : Nat} (hk : Reaches bnst quoteRow j k)
      (hmax : ∀ l, Reaches bnst quoteRow j l → l ≤ k)
      (hnot : ∀ l, Reaches bnst quoteRow j l → ¬0 < dpndRow l) :
      Searched bnst quoteRow dpndRow j last (false, k)
  | nothing (hnone : ∀ l, ¬Reaches bnst quoteRow j l) :
      Searched bnst quoteRow dpndRow j last (false, last)

variable {last : Nat} {r : Bool × Nat}

/-- A column that is not permitted is passed over. -/
theorem Searched.skip (hq : ¬quoteRow j = true)
    (h : Searched bnst quoteRow dpndRow (j + 1) last r) :
    Searched bnst quoteRow dpndRow j last r := by
  have heq : ∀ k, Reaches bnst quoteRow j k ↔ Reaches bnst quoteRow (j + 1) k := fun k => by
    by_cases hkj : k = j
    · subst hkj
      exact ⟨fun hk => absurd rfl (hk.ne_of_not hq), fun hk => absurd hk.le (Nat.not_succ_le_self k)⟩
    · exact reaches_succ (fun h => absurd h hq) hkj
  cases h with
  | found hk hdpnd => exact .found ((heq _).mpr hk) hdpnd
  | atEnd hk hmax hnot =>
      exact .atEnd ((heq _).mpr hk) (fun l hl => hmax l ((heq l).mp hl))
        fun l hl => hnot l ((heq l).mp hl)
  | nothing hnone => exact .nothing fun l hl => hnone l ((heq l).mp hl)

/-- A permitted column without a dependency is the last possibility so far. -/
theorem Searched.pass (hj : j < bnst.length) (hq : quoteRow j = true) (hd : ¬0 < dpndRow j)
    (hperiod : hasFeature (bnst.getD j []) "係:文末" = false)
    (h : Searched bnst quoteRow dpndRow (j + 1) j r) :
    Searched bnst quoteRow dpndRow j last r := by
  have hself := reaches_self hj hq
  have hback : ∀ k, Reaches bnst quoteRow (j + 1) k → Reaches bnst quoteRow j k := fun k hk =>
    (reaches_succ (fun _ => hperiod) (Nat.lt_of_succ_le hk.le).ne').mpr hk
  have hstep : ∀ {P : Nat → Prop}, P j → (∀ l, Reaches bnst quoteRow (j + 1) l → P l) →
      ∀ l, Reaches bnst quoteRow j l → P l := fun hPj hP l hl => by
    by_cases hlj : l = j
    · exact hlj ▸ hPj
    · exact hP l ((reaches_succ (fun _ => hperiod) hlj).mp hl)
  cases h with
  | found hk hdpnd => exact .found (hback _ hk) hdpnd
  | @atEnd k hk hmax hnot =>
      exact .atEnd (hback k hk) (hstep (Nat.le_of_succ_le hk.le) hmax) (hstep hd hnot)
  | nothing hnone =>
      exact .atEnd hself (hstep le_rfl fun l hl => absurd hl (hnone l))
        (hstep hd fun l hl => absurd hl (hnone l))

variable (bnst quoteRow dpndRow last) in
theorem searchRow_spec {fuel : Nat} (hfuel : j + fuel = bnst.length) :
    Searched bnst quoteRow dpndRow j last
      (searchRow bnst quoteRow dpndRow fuel j last) := by
  induction fuel generalizing j last with
  | zero =>
      refine .nothing fun l hl => ?_
      have := hl.le
      have := hl.lt
      omega
  | succ fuel ih =>
      have hj : j < bnst.length := by omega
      have hself : quoteRow j = true → Reaches bnst quoteRow j j := reaches_self hj
      unfold searchRow
      split_ifs with hq hd hperiod
      · exact .found (hself hq) hd
      · refine .atEnd (hself hq) (fun l hl => (hl.eq_of_period hq hperiod).le) fun l hl => ?_
        rwa [hl.eq_of_period hq hperiod]
      · exact (ih j (by omega)).pass hj hq hd (by simpa using hperiod)
      · exact (ih last (by omega)).skip hq

end Search

/-! ## The rows -/

/-- A row after its turn. -/
def relaxRow (bnst : List (List String)) (quoteRow : Nat → Bool) (dpndRow : Nat → Int)
    (i j : Nat) : Int :=
  let found := searchRow bnst quoteRow dpndRow (bnst.length - (i + 1)) (i + 1) i
  if found.1 = false ∧ endsClause (bnst.getD found.2 []) = true ∧ j = found.2 then relaxed
  else dpndRow j

/-- The last bunsetsu that the search for a head of `i` comes to. -/
structure LastPossible (bnst : List (List String)) (quoteRow : Nat → Bool) (i last : Nat) :
    Prop where
  reaches : Reaches bnst quoteRow (i + 1) last
  max : ∀ k, Reaches bnst quoteRow (i + 1) k → k ≤ last

/-- Some bunsetsu behind `i` is permitted and is a head. -/
def HasHead (bnst : List (List String)) (quoteRow : Nat → Bool) (dpndRow : Nat → Int)
    (i : Nat) : Prop :=
  ∃ j, i < j ∧ j < bnst.length ∧ quoteRow j = true ∧ dpndRow j ≠ 0

/-- The row `after` differs from the one before in the last possibility at most: that is set where
it ends a sentence or a quote, and no dependency is come to. -/
structure RelaxedAt (bnst : List (List String)) (quoteRow : Nat → Bool)
    (dpndRow after : Nat → Int) (i last : Nat) : Prop where
  others : ∀ j, j ≠ last → after j = dpndRow j
  set : endsClause (bnst.getD last []) = true →
    (∀ k, Reaches bnst quoteRow (i + 1) k → ¬0 < dpndRow k) → after last = relaxed
  kept : ¬(endsClause (bnst.getD last []) = true ∧
    ∀ k, Reaches bnst quoteRow (i + 1) k → ¬0 < dpndRow k) → after last = dpndRow last

section Rows

variable {bnst : List (List String)} {i last : Nat}

theorem relaxTurn_row (quoteMatrix : Nat → Nat → Bool) (s : (Nat → Nat → Int) × Bool)
    (a : Nat) : (relaxTurn bnst quoteMatrix i s).1 a =
      if a = i then relaxRow bnst (quoteMatrix i) (s.1 i) i else s.1 a := by
  unfold relaxTurn relaxRow
  cases hfound : searchRow bnst (quoteMatrix i) (s.1 i) (bnst.length - (i + 1)) (i + 1) i with
  | mk okFlag lastPossibility =>
      cases okFlag with
      | true => by_cases ha : a = i <;> simp [ha]
      | false =>
          by_cases hends : endsClause (bnst.getD lastPossibility []) = true
          · simp only [hends, if_true, true_and]
            by_cases ha : a = i <;> simp [ha]
          · simp only [if_neg hends]
            by_cases ha : a = i <;> simp_all

/-- Each row is changed in its own turn only. -/
theorem relaxDpndMatrix_row (quoteMatrix : Nat → Nat → Bool) (dpndMatrix : Nat → Nat → Int)
    (hi : i + 1 < bnst.length) : (relaxDpndMatrix bnst quoteMatrix dpndMatrix).1 i =
      relaxRow bnst (quoteMatrix i) (dpndMatrix i) i := by
  have hloop : ∀ a, (relaxDpndMatrix bnst quoteMatrix dpndMatrix).1 a =
      if a < bnst.length - 1 then relaxRow bnst (quoteMatrix a) (dpndMatrix a) a
      else dpndMatrix a := by
    refine upTo_induction (relaxTurn bnst quoteMatrix) (fun n s => ∀ a, s.1 a =
      if a < n then relaxRow bnst (quoteMatrix a) (dpndMatrix a) a else dpndMatrix a)
      (Nat.zero_le _) ?_ fun a => by simp
    intro n s _ _ hs a
    rw [relaxTurn_row]
    rcases Nat.lt_trichotomy a n with hlt | rfl | hgt
    · rw [if_neg hlt.ne, hs, if_pos hlt, if_pos (by omega)]
    · rw [if_pos rfl, hs, if_neg (lt_irrefl a), if_pos (Nat.lt_succ_self a)]
    · rw [if_neg hgt.ne', hs, if_neg (by omega), if_neg (by omega)]
  rw [hloop, if_pos (by omega)]

theorem exists_lastPossible {quoteRow : Nat → Bool} (hi : i + 1 < bnst.length)
    (h : ∃ j, i < j ∧ j < bnst.length ∧ quoteRow j = true) :
    ∃ last, LastPossible bnst quoteRow i last := by
  classical
  obtain ⟨hlt, hlen, hq⟩ := Nat.find_spec h
  have hfirst : Reaches bnst quoteRow (i + 1) (Nat.find h) := by
    refine ⟨hlt, hlen, hq, fun l hle hl hql => ?_⟩
    exact absurd ⟨hle, hl.trans hlen, hql⟩ (Nat.find_min h hl)
  generalize hr : searchRow bnst quoteRow (fun _ => 0) (bnst.length - (i + 1)) (i + 1) i = r
  have hsearch := searchRow_spec bnst quoteRow (fun _ => 0) i
    (show i + 1 + (bnst.length - (i + 1)) = bnst.length by omega)
  rw [hr] at hsearch
  cases hsearch with
  | found hk hdpnd => exact absurd hdpnd (lt_irrefl 0)
  | atEnd hk hmax hnot => exact ⟨_, hk, hmax⟩
  | nothing hnone => exact absurd hfirst (hnone _)

variable {quoteRow : Nat → Bool} {dpndRow : Nat → Int}

theorem relaxRow_of_search {r : Bool × Nat}
    (hr : searchRow bnst quoteRow dpndRow (bnst.length - (i + 1)) (i + 1) i = r) (j : Nat) :
    relaxRow bnst quoteRow dpndRow i j =
      if r.1 = false ∧ endsClause (bnst.getD r.2 []) = true ∧ j = r.2 then relaxed
      else dpndRow j := by
  rw [← hr]
  rfl

theorem relaxRow_of_last (h : LastPossible bnst quoteRow i last) :
    RelaxedAt bnst quoteRow dpndRow (relaxRow bnst quoteRow dpndRow i) i last := by
  have hlen := h.reaches.lt
  have hle := h.reaches.le
  generalize hr : searchRow bnst quoteRow dpndRow (bnst.length - (i + 1)) (i + 1) i = r
  have hrow := relaxRow_of_search hr
  have hsearch := searchRow_spec bnst quoteRow dpndRow i
    (show i + 1 + (bnst.length - (i + 1)) = bnst.length by omega)
  rw [hr] at hsearch
  cases hsearch with
  | found hk hdpnd =>
      have hkeep : ∀ j, relaxRow bnst quoteRow dpndRow i j = dpndRow j := fun j => by
        rw [hrow]
        simp
      exact ⟨fun j _ => hkeep j, fun _ hnone => absurd hdpnd (hnone _ hk), fun _ => hkeep last⟩
  | @atEnd k hk hmax hnot =>
      obtain rfl : k = last := Nat.le_antisymm (h.max k hk) (hmax last h.reaches)
      refine ⟨fun j hj => ?_, fun hends _ => ?_, fun hnends => ?_⟩
      · rw [hrow]
        exact if_neg fun hc => hj hc.2.2
      · rw [hrow]
        exact if_pos ⟨rfl, hends, rfl⟩
      · rw [hrow]
        exact if_neg fun hc => hnends ⟨hc.2.1, hnot⟩
  | nothing hnone => exact absurd h.reaches (hnone last)

theorem RelaxedAt.hasHead_iff {after : Nat → Int} (h : LastPossible bnst quoteRow i last)
    (hafter : RelaxedAt bnst quoteRow dpndRow after i last) :
    HasHead bnst quoteRow after i ↔
      HasHead bnst quoteRow dpndRow i ∨ endsClause (bnst.getD last []) = true := by
  have hlast := h.reaches
  by_cases hset : endsClause (bnst.getD last []) = true ∧
      ∀ k, Reaches bnst quoteRow (i + 1) k → ¬0 < dpndRow k
  · have hrelaxed : after last ≠ 0 := by
      rw [hafter.set hset.1 hset.2]
      decide
    exact ⟨fun _ => Or.inr hset.1, fun _ => ⟨last, hlast.le, hlast.lt, hlast.permitted, hrelaxed⟩⟩
  · have hkeep : after = dpndRow := by
      funext j
      by_cases hj : j = last
      · rw [hj, hafter.kept hset]
      · exact hafter.others j hj
    rw [hkeep]
    refine ⟨Or.inl, fun hor => hor.elim id fun hends => ?_⟩
    have hdep : ¬∀ k, Reaches bnst quoteRow (i + 1) k → ¬0 < dpndRow k :=
      fun hnone => hset ⟨hends, hnone⟩
    push Not at hdep
    obtain ⟨k, hk, hdk⟩ := hdep
    exact ⟨k, hk.le, hk.lt, hk.permitted, hdk.ne'⟩

end Rows

/-! ## The heads of a sentence -/

/-- Where the quotes leave a bunsetsu some other one, it has a head after the relaxation just if it
had one, or its last possibility ends a sentence or a quote; and no other entry is set. -/
theorem relaxDpndMatrix_head_iff (bnst : List (List String)) (dpndMatrix : Nat → Nat → Int)
    (i : Nat) (h : ∃ j, i < j ∧ j < bnst.length ∧ (quote bnst).2.2 i j = true) :
    let quoteRow := (quote bnst).2.2 i
    let after := (relaxDpndMatrix bnst (quote bnst).2.2 dpndMatrix).1
    ∃ last, LastPossible bnst quoteRow i last ∧
      (HasHead bnst quoteRow (after i) i ↔
        HasHead bnst quoteRow (dpndMatrix i) i ∨ endsClause (bnst.getD last []) = true) ∧
      RelaxedAt bnst quoteRow (dpndMatrix i) (after i) i last ∧
      after i i = dpndMatrix i i := by
  intro quoteRow after
  have hi : i + 1 < bnst.length := by
    obtain ⟨j, hij, hj, -⟩ := h
    omega
  obtain ⟨last, hlast⟩ := exists_lastPossible hi h
  have hafter : RelaxedAt bnst quoteRow (dpndMatrix i) (after i) i last := by
    rw [show after i = _ from relaxDpndMatrix_row (quote bnst).2.2 dpndMatrix hi]
    exact relaxRow_of_last hlast
  have hne : i ≠ last := by
    have := hlast.reaches.le
    omega
  exact ⟨last, hlast, hafter.hasHead_iff hlast, hafter, hafter.others i hne⟩

/-- A quote in the middle, and nothing that can be a head: the first bunsetsu is given the last one
as its head. -/
def quoteInside : List (List String) := [[], ["括弧始"], ["括弧終"], ["文末"]]

theorem quoteInside_head :
    HasHead quoteInside ((quote quoteInside).2.2 0)
      ((relaxDpndMatrix quoteInside (quote quoteInside).2.2 fun _ _ => 0).1 0) 0 := by
  obtain ⟨last, hlast, hiff, -⟩ := relaxDpndMatrix_head_iff quoteInside (fun _ _ => 0) 0
    ⟨3, by decide, by decide, by decide⟩
  have hreach : Reaches quoteInside ((quote quoteInside).2.2 0) 1 3 := by
    refine ⟨by decide, by decide, by decide, fun l hle hlt _ => ?_⟩
    obtain rfl | rfl : l = 1 ∨ l = 2 := by omega
    · rfl
    · rfl
  have heq : last = 3 := by
    have hmax := hlast.max 3 hreach
    have hlen : last < 4 := hlast.reaches.lt
    omega
  refine hiff.mpr (Or.inr ?_)
  rw [heq]
  decide

/-- Each bunsetsu but the last one has a head, and none is its own head. -/
def HeadsAvailable (bnst : List (List String)) (quoteMatrix : Nat → Nat → Bool)
    (dpndMatrix : Nat → Nat → Int) : Prop :=
  (∀ i, i + 1 < bnst.length → HasHead bnst (quoteMatrix i) (dpndMatrix i) i) ∧
    ∀ i < bnst.length, dpndMatrix i i = 0

/-- × Ａ‥‥‥‥Ｂ「‥‥‥‥Ｃ」 -/
def quoteBehind : List (List String) := [[], [], ["括弧始"], ["括弧終", "文末"]]

/-- 「「Ａ」「Ｂ‥Ｃ」」 -/
def quotesInQuote : List (List String) :=
  [["括弧始", "括弧始２", "括弧終"], ["括弧始"], ["括弧終", "括弧終２"], ["文末"]]

theorem quoteBehind_noHead :
    ¬HeadsAvailable quoteBehind (quote quoteBehind).2.2
        (relaxDpndMatrix quoteBehind (quote quoteBehind).2.2 fun _ _ => 0).1 ∧
      ¬HeadsAvailable quotesInQuote (quote quotesInQuote).2.2
        (relaxDpndMatrix quotesInQuote (quote quotesInQuote).2.2 fun _ _ => 0).1 := by
  constructor
  · rintro ⟨hhead, -⟩
    obtain ⟨j, hlt, hlen, hq, hne⟩ := hhead 0 (by decide)
    have hlen : j < 4 := hlen
    obtain rfl | rfl | rfl : j = 1 ∨ j = 2 ∨ j = 3 := by omega
    · exact hne (by decide)
    · exact absurd hq (by decide)
    · exact absurd hq (by decide)
  · rintro ⟨-, hself⟩
    exact absurd (hself 0 (by decide)) (by decide)

end Knp.Quote
