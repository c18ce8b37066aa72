import Mathlib.Data.List.Perm.Basic
import Mathlib.Logic.Function.Basic
import Mathlib.Algebra.Order.Group.Nat

/-!
# Arrays that end with a NULL

An array of pointers in a C program holds a list: its entries up to the first
NULL. What lies behind is whatever was there before.

> An array reads at most one list (`Reads.unique`). It is built entry by entry
> (`Starts`) and closed by a NULL.
-/

namespace NullArray

variable {α : Type*} {a : Nat → Option α} {l l' : List α} {k : Nat} {v : α}

/-- The first entries of the array are the list. -/
def Starts (a : Nat → Option α) (l : List α) : Prop := ∀ k < l.length, a k = l[k]?

/-- The array holds the list, then a NULL. -/
def Reads (a : Nat → Option α) (l : List α) : Prop := ∀ k ≤ l.length, a k = l[k]?

/-- The number of entries of an array of size `cap`; `none` if no NULL ends it. -/
def count (cap : Nat) (a : Nat → Option α) : Option Nat :=
  (List.range cap).find? fun k => (a k).isNone

/-- The list that an array of size `cap` holds. -/
def entries : Nat → (Nat → Option α) → List α
  | 0, _ => []
  | cap + 1, a => match a 0 with
      | none => []
      | some v => v :: entries cap fun k => a (k + 1)

/-- The entries from `pos` to the NULL at `n` move up, and `v` takes their place. -/
def insertAt (a : Nat → Option α) (pos n : Nat) (v : α) : Nat → Option α := fun k =>
  if k = pos then some v else if pos < k ∧ k ≤ n + 1 then a (k - 1) else a k

/-- The entries behind `pos`, with the NULL at `n`, move down. -/
def removeAt (a : Nat → Option α) (pos n : Nat) : Nat → Option α := fun k =>
  if pos ≤ k ∧ k < n then a (k + 1) else a k

/-- The first `n` entries of `src` are copied to `dst`, up to its NULL. -/
def copy (n : Nat) (src dst : Nat → Option α) : Nat → Option α := fun k =>
  if k < n ∧ ∀ j < k, (src j).isSome then src k else dst k

def swap (a : Nat → Option α) (i k : Nat) : Nat → Option α :=
  Function.update (Function.update a i (a k)) k (a i)

/-! ## The list of an array -/

theorem starts_nil : Starts a [] := fun k hk => absurd hk (Nat.not_lt_zero k)

theorem Reads.starts (h : Reads a l) : Starts a l := fun k hk => h k hk.le

theorem Reads.null (h : Reads a l) : a l.length = none := by
  rw [h _ le_rfl]
  exact List.getElem?_eq_none le_rfl

theorem Reads.entry (h : Reads a l) (hk : k < l.length) : a k = some l[k] := by
  rw [h k hk.le]
  exact List.getElem?_eq_getElem hk

theorem Reads.isSome_iff (h : Reads a l) (hk : k ≤ l.length) : (a k).isSome ↔ k < l.length := by
  simp [h k hk]

theorem Reads.length_le (h : Reads a l) (h' : Reads a l') : l.length ≤ l'.length := by
  by_contra hlt
  have hsome := (h.isSome_iff (Nat.le_of_not_le hlt)).mpr (Nat.lt_of_not_le hlt)
  rw [h'.null] at hsome
  cases hsome

theorem Reads.unique (h : Reads a l) (h' : Reads a l') : l = l' := by
  have hlen : l.length = l'.length := Nat.le_antisymm (h.length_le h') (h'.length_le h)
  refine List.ext_getElem hlen fun k hk hk' => ?_
  have hentry := (h.entry hk).symm.trans (h'.entry hk')
  exact Option.some.inj hentry

theorem Starts.snoc (h : Starts a l) (v : α) :
    Starts (Function.update a l.length (some v)) (l ++ [v]) := by
  intro k hk
  rw [List.length_append, List.length_singleton] at hk
  rcases Nat.lt_succ_iff_lt_or_eq.mp hk with hlt | rfl
  · rw [Function.update_of_ne hlt.ne, h k hlt, List.getElem?_append_left hlt]
  · rw [Function.update_self, List.getElem?_append_right le_rfl, Nat.sub_self]
    rfl

theorem Starts.close (h : Starts a l) : Reads (Function.update a l.length none) l := by
  intro k hk
  rcases Nat.lt_or_eq_of_le hk with hlt | rfl
  · rw [Function.update_of_ne hlt.ne, h k hlt]
  · rw [Function.update_self, List.getElem?_eq_none le_rfl]

theorem Reads.snoc (h : Reads a l) (v : α) :
    Reads (Function.update (Function.update a l.length (some v)) (l.length + 1) none)
      (l ++ [v]) := by
  have hclose := (h.starts.snoc v).close
  rwa [List.length_append, List.length_singleton] at hclose

theorem Reads.count_eq {cap : Nat} (h : Reads a l) (hcap : l.length < cap) :
    count cap a = some l.length := by
  unfold count
  rw [List.find?_range_eq_some]
  refine ⟨by rw [h.null]; rfl, List.mem_range.mpr hcap, fun k hk => ?_⟩
  rw [h.entry hk]
  rfl

theorem Reads.length_of_count {cap n : Nat} (h : Reads a l) (hcount : count cap a = some n) :
    n = l.length := by
  obtain ⟨hnull, hlt, hsome⟩ := List.find?_range_eq_some.mp hcount
  rw [List.mem_range] at hlt
  rcases Nat.lt_trichotomy n l.length with hlow | heq | hhigh
  · rw [h.entry hlow] at hnull
    cases hnull
  · exact heq
  · have hbefore := hsome l.length hhigh
    rw [h.null] at hbefore
    cases hbefore

theorem Reads.entries_eq : ∀ {l : List α} {cap : Nat} {a : Nat → Option α}, Reads a l →
    l.length < cap → entries cap a = l
  | _, 0, _, _, hcap => absurd hcap (Nat.not_lt_zero _)
  | [], cap + 1, a, h, _ => by
      have hnull : a 0 = none := h.null
      rw [entries, hnull]
  | v :: l, cap + 1, a, h, hcap => by
      rw [entries, h.entry (Nat.succ_pos _)]
      exact congrArg (v :: ·) (entries_eq (l := l)
        (fun k hk => h (k + 1) (Nat.succ_le_succ hk)) (Nat.lt_of_succ_lt_succ hcap))

/-! ## Changes -/

/-- Behind the list, an array may hold anything. -/
theorem Reads.insertAt_zero (h : Reads a l) (v : α) :
    Reads (insertAt a 0 l.length v) (v :: l) := by
  intro k hk
  rw [List.length_cons] at hk
  unfold insertAt
  cases k with
  | zero => rfl
  | succ k =>
      rw [if_neg (Nat.succ_ne_zero k), if_pos ⟨Nat.succ_pos k, hk⟩, Nat.add_sub_cancel,
        List.getElem?_cons_succ]
      exact h k (Nat.le_of_succ_le_succ hk)

theorem Reads.removeAt (h : Reads a l) (hk : k < l.length) :
    Reads (removeAt a k l.length) (l.eraseIdx k) := by
  have hlen : (l.eraseIdx k).length + 1 = l.length := List.length_eraseIdx_add_one hk
  intro i hi
  unfold NullArray.removeAt
  rw [List.getElem?_eraseIdx]
  by_cases hik : i < k
  · rw [if_neg fun hcond => absurd hcond.1 (Nat.not_le_of_lt hik), if_pos hik]
    exact h i (by omega)
  · rw [if_pos ⟨Nat.le_of_not_lt hik, by omega⟩, if_neg hik]
    exact h (i + 1) (by omega)

theorem Reads.copy_of_le {n : Nat} {dst : Nat → Option α} (h : Reads a l) (hk : k ≤ l.length) :
    copy n a dst k = if k < n then a k else dst k := by
  have hsome : ∀ j < k, (a j).isSome := fun j hj => (h.isSome_iff (by omega)).mpr (by omega)
  unfold NullArray.copy
  by_cases hkn : k < n
  · rw [if_pos ⟨hkn, hsome⟩, if_pos hkn]
  · rw [if_neg fun hcond => hkn hcond.1, if_neg hkn]

/-- A list that is shorter than the bound is copied with its NULL. -/
theorem Reads.copy {n : Nat} (h : Reads a l) (hn : l.length < n) (dst : Nat → Option α) :
    Reads (copy n a dst) l := by
  intro k hk
  rw [h.copy_of_le hk, if_pos (lt_of_le_of_lt hk hn), h k hk]

/-- Of a longer one the NULL is not copied. -/
theorem Reads.copy_isSome {n : Nat} {dst : Nat → Option α} (h : Reads a l) (hn : n ≤ l.length)
    (hdst : ∀ k, (dst k).isSome) (k : Nat) : (NullArray.copy n a dst k).isSome := by
  unfold NullArray.copy
  split_ifs with hcond
  · exact (h.isSome_iff (by omega)).mpr (by omega)
  · exact hdst k

theorem not_reads_of_isSome (h : ∀ k, (a k).isSome) : ¬ Reads a l := by
  intro hreads
  have hsome := h l.length
  rw [hreads.null] at hsome
  cases hsome

theorem Reads.swap {i : Nat} (h : Reads a l) (hi : i < l.length) (hk : k < l.length) :
    ∃ l', l'.Perm l ∧ Reads (swap a i k) l' := by
  refine ⟨(l.set i l[k]).set k l[i], List.set_set_perm hi hk, fun m hm => ?_⟩
  rw [List.length_set, List.length_set] at hm
  unfold NullArray.swap
  rw [h.entry hi, h.entry hk]
  by_cases hmk : m = k
  · subst hmk
    rw [Function.update_self, List.getElem?_set_self (by rwa [List.length_set])]
  · rw [Function.update_of_ne hmk, List.getElem?_set_ne (Ne.symm hmk)]
    by_cases hmi : m = i
    · subst hmi
      rw [Function.update_self, List.getElem?_set_self hi]
    · rw [Function.update_of_ne hmi, List.getElem?_set_ne (Ne.symm hmi), h m hm]

end NullArray
