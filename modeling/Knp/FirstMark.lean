import Mathlib.Data.List.Basic
import Mathlib.Logic.Function.Basic
import Mathlib.Tactic.Common

/-!
# Marks that stay

A table is filled by marks that come one after the other; a mark is made only where there is
none yet.

> A place that has a mark keeps it, and a place that has none gets that of the first mark for it.
-/

namespace FirstMark

variable {κ V : Type*} [DecidableEq κ] [DecidableEq V] [Zero V]

/-- `if (!t[p]) t[p] = v` -/
def mark (t : κ → V) (m : κ × V) : κ → V := if t m.1 = 0 then Function.update t m.1 m.2 else t

def marks (t : κ → V) (ms : List (κ × V)) : κ → V := ms.foldl mark t

variable {t : κ → V} {m : κ × V} {ms ms' : List (κ × V)} {p : κ}

@[simp] theorem marks_nil : marks t [] = t := rfl

theorem marks_cons : marks t (m :: ms) = marks (mark t m) ms := rfl

theorem marks_append : marks t (ms ++ ms') = marks (marks t ms) ms' := List.foldl_append

theorem mark_of_ne_zero (h : t p ≠ 0) : mark t m p = t p := by
  unfold mark
  split
  next hzero =>
    refine Function.update_of_ne (fun heq => h ?_) ..
    rw [heq, hzero]
  next => rfl

theorem mark_of_ne (h : p ≠ m.1) : mark t m p = t p := by
  unfold mark
  split
  next => exact Function.update_of_ne h ..
  next => rfl

theorem mark_self (h : t m.1 = 0) : mark t m m.1 = m.2 := by
  rw [mark, if_pos h, Function.update_self]

/-- A mark stays. -/
theorem marks_of_ne_zero (h : t p ≠ 0) : marks t ms p = t p := by
  induction ms generalizing t with
  | nil => rfl
  | cons m ms ih =>
      have hstay : mark t m p = t p := mark_of_ne_zero h
      rw [marks_cons, ih (by rw [hstay]; exact h), hstay]

/-- A place has a mark if it had one or is marked. -/
theorem marks_ne_zero_iff (h : ∀ m ∈ ms, m.2 ≠ 0) :
    marks t ms p ≠ 0 ↔ t p ≠ 0 ∨ p ∈ ms.map Prod.fst := by
  induction ms generalizing t with
  | nil => simp
  | cons m ms ih =>
      obtain ⟨hm, hms⟩ := List.forall_mem_cons.mp h
      rw [marks_cons, ih hms, List.map_cons, List.mem_cons, ← or_assoc]
      refine or_congr_left ?_
      by_cases hp : p = m.1
      · subst hp
        by_cases hzero : t m.1 = 0
        · rw [mark_self hzero]
          exact iff_of_true hm (.inr rfl)
        · rw [mark_of_ne_zero hzero]
          exact iff_of_true hzero (.inl hzero)
      · rw [mark_of_ne hp, or_iff_left hp]

/-- A mark that has been made is one of those that were to be made. -/
theorem exists_of_marks (hzero : t p = 0) (h : marks t ms p ≠ 0) :
    ∃ m ∈ ms, m.1 = p ∧ marks t ms p = m.2 := by
  induction ms generalizing t with
  | nil => exact absurd hzero h
  | cons m ms ih =>
      rw [marks_cons] at h ⊢
      by_cases hset : mark t m p = 0
      · obtain ⟨m', hm', hrest⟩ := ih hset h
        exact ⟨m', List.mem_cons_of_mem m hm', hrest⟩
      · rw [marks_of_ne_zero hset]
        have hp : p = m.1 := by
          by_contra hne
          rw [mark_of_ne hne] at hset
          exact hset hzero
        subst hp
        exact ⟨m, List.mem_cons_self, rfl, mark_self hzero⟩

/-- All marks for a place have the same value. -/
theorem marks_eq_of_forall {v : V} (hzero : t p = 0) (hp : p ∈ ms.map Prod.fst)
    (h : ∀ m ∈ ms, m.2 ≠ 0) (hv : ∀ m ∈ ms, m.1 = p → m.2 = v) : marks t ms p = v := by
  obtain ⟨m, hm, hfst, hval⟩ :=
    exists_of_marks hzero ((marks_ne_zero_iff h).mpr (.inr hp))
  rw [hval, hv m hm hfst]

/-! ## Expanding -/

section Expand

variable (place : Nat → κ) (value : Nat → V) (reach : Nat → List κ)

/-- The marks of number `i`: its own place and what it reaches. -/
def spread (i : Nat) : List (κ × V) := (place i :: reach i).map fun p => (p, value i)

/-- A number whose place has no mark yet is expanded. -/
def expandStep (t : κ → V) (i : Nat) : κ → V :=
  if t (place i) ≠ 0 then t else marks t (spread place value reach i)

/-- The numbers below `n` that are expanded: their places are not marked before, and no smaller
one that is expanded reaches them. -/
def expanded (marked : κ → Bool) : Nat → List Nat
  | 0 => []
  | i + 1 =>
      if marked (place i) || (expanded marked i).any fun e => place i ∈ reach e then
        expanded marked i
      else expanded marked i ++ [i]

variable {place value reach} {marked : κ → Bool} {n e : Nat}

theorem lt_of_mem_expanded (h : e ∈ expanded place reach marked n) : e < n := by
  induction n with
  | zero => cases h
  | succ n ih =>
      rw [expanded] at h
      split at h
      · exact Nat.lt_succ_of_lt (ih h)
      · rcases List.mem_append.mp h with h | h
        · exact Nat.lt_succ_of_lt (ih h)
        · rw [List.mem_singleton.mp h]
          exact Nat.lt_succ_self n

omit [DecidableEq V] [Zero V] in
theorem not_marked_of_mem_expanded (h : e ∈ expanded place reach marked n) :
    marked (place e) = false := by
  induction n with
  | zero => cases h
  | succ n ih =>
      rw [expanded] at h
      split at h
      next => exact ih h
      next hc =>
        rcases List.mem_append.mp h with h | h
        · exact ih h
        · rw [List.mem_singleton.mp h]
          exact (Bool.or_eq_false_iff.mp (Bool.eq_false_iff.mpr hc)).1

omit [DecidableEq V] [Zero V] in
/-- Those below a bound are expanded first. -/
theorem expanded_append {m : Nat} (h : m ≤ n) :
    ∃ rest, expanded place reach marked n = expanded place reach marked m ++ rest ∧
      ∀ e ∈ rest, m ≤ e := by
  induction n with
  | zero =>
      obtain rfl : m = 0 := by omega
      exact ⟨[], rfl, List.forall_mem_nil _⟩
  | succ n ih =>
      rcases Nat.lt_or_ge n m with hlt | hle
      · obtain rfl : m = n + 1 := by omega
        exact ⟨[], (List.append_nil _).symm, List.forall_mem_nil _⟩
      · obtain ⟨rest, heq, hrest⟩ := ih hle
        rw [expanded, heq]
        split
        · exact ⟨rest, rfl, hrest⟩
        · refine ⟨rest ++ [n], List.append_assoc _ _ _, fun e he => ?_⟩
          rcases List.mem_append.mp he with he | he
          · exact hrest e he
          · rw [List.mem_singleton.mp he]
            exact hle

variable (place reach marked) in
omit [DecidableEq V] [Zero V] in
/-- Each place is marked before, expanded or reached. -/
theorem covered_of_lt {i : Nat} (h : i < n) : marked (place i) = true ∨
    ∃ e ∈ expanded place reach marked n, place i ∈ place e :: reach e := by
  obtain ⟨rest, heq, -⟩ : ∃ rest, expanded place reach marked n =
      expanded place reach marked (i + 1) ++ rest ∧ ∀ e ∈ rest, i + 1 ≤ e :=
    expanded_append (Nat.succ_le_of_lt h)
  by_cases hc : (marked (place i) || (expanded place reach marked i).any fun e =>
      place i ∈ reach e) = true
  · rcases Bool.or_eq_true_iff.mp hc with hm | hany
    · exact .inl hm
    · obtain ⟨e, he, hreach⟩ := List.any_eq_true.mp hany
      refine .inr ⟨e, ?_, List.mem_cons_of_mem _ (of_decide_eq_true hreach)⟩
      rw [heq, expanded, if_pos hc]
      exact List.mem_append_left _ he
  · refine .inr ⟨i, ?_, List.mem_cons_self⟩
    rw [heq, expanded, if_neg hc]
    exact List.mem_append_left _ (List.mem_append_right _ (List.mem_singleton_self i))

omit [DecidableEq κ] [DecidableEq V] [Zero V] in
theorem map_fst_spread (i : Nat) :
    (spread place value reach i).map Prod.fst = place i :: reach i := by
  rw [spread, List.map_map]
  exact List.map_id _

/-- The marks of a list of numbers. -/
theorem marks_spreads_ne_zero_iff {l : List Nat} {p : κ} (hvalue : ∀ i, value i ≠ 0) :
    marks t (l.flatMap (spread place value reach)) p ≠ 0 ↔
      t p ≠ 0 ∨ ∃ e ∈ l, p ∈ place e :: reach e := by
  have hmarks : ∀ m ∈ l.flatMap (spread place value reach), m.2 ≠ 0 := by
    intro m hm
    obtain ⟨e, -, hm⟩ := List.mem_flatMap.mp hm
    obtain ⟨p, -, rfl⟩ := List.mem_map.mp hm
    exact hvalue e
  rw [marks_ne_zero_iff hmarks]
  simp only [List.map_flatMap, map_fst_spread, List.mem_flatMap]

/-- Numbers of one value. -/
theorem marks_spreads_eq {l : List Nat} {p : κ} {v : V} (hvalue : ∀ i, value i ≠ 0)
    (hl : ∀ e ∈ l, value e = v) (hzero : t p = 0) (hp : ∃ e ∈ l, p ∈ place e :: reach e) :
    marks t (l.flatMap (spread place value reach)) p = v := by
  obtain ⟨m, hm, -, hval⟩ :=
    exists_of_marks hzero ((marks_spreads_ne_zero_iff hvalue).mpr (.inr hp))
  obtain ⟨e, he, hm⟩ := List.mem_flatMap.mp hm
  obtain ⟨p, -, rfl⟩ := List.mem_map.mp hm
  exact hval.trans (hl e he)

/-- **The loop over the numbers**: the marks of those that are expanded, in their order. -/
theorem foldl_expandStep (hplace : Function.Injective place) (hvalue : ∀ i, value i ≠ 0) :
    (List.range n).foldl (expandStep place value reach) t =
      marks t ((expanded place reach (t · ≠ 0) n).flatMap (spread place value reach)) := by
  induction n with
  | zero => rfl
  | succ n ih =>
      rw [List.range_succ, List.foldl_append, ih, List.foldl_cons, List.foldl_nil, expandStep,
        expanded]
      have hset : marks t ((expanded place reach (t · ≠ 0) n).flatMap
            (spread place value reach)) (place n) ≠ 0 ↔
          (decide (t (place n) ≠ 0) || (expanded place reach (t · ≠ 0) n).any fun e =>
            place n ∈ reach e) = true := by
        rw [marks_spreads_ne_zero_iff hvalue, Bool.or_eq_true, decide_eq_true_iff,
          List.any_eq_true]
        refine or_congr_right (exists_congr fun e => and_congr_right fun he => ?_)
        rw [decide_eq_true_iff, List.mem_cons]
        refine or_iff_right fun heq => ?_
        exact absurd (hplace heq) (Nat.ne_of_gt (lt_of_mem_expanded he))
      by_cases h : marks t ((expanded place reach (t · ≠ 0) n).flatMap
          (spread place value reach)) (place n) ≠ 0
      · rw [if_pos h, if_pos (hset.mp h)]
      · rw [if_neg h, if_neg (fun hc => h (hset.mpr hc)), List.flatMap_append, marks_append,
          List.flatMap_singleton]

/-- Each place is marked in the end. -/
theorem foldl_expandStep_ne_zero (hplace : Function.Injective place) (hvalue : ∀ i, value i ≠ 0)
    {i : Nat} (hi : i < n) :
    (List.range n).foldl (expandStep place value reach) t (place i) ≠ 0 := by
  rw [foldl_expandStep hplace hvalue, marks_spreads_ne_zero_iff hvalue]
  exact (covered_of_lt place reach (fun p => t p ≠ 0) hi).imp_left of_decide_eq_true

end Expand

end FirstMark
