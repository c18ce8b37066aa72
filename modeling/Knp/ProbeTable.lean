import Mathlib.Data.Finset.Card
import Mathlib.Data.Finset.Range
import Mathlib.Data.Nat.ModEq
import Mathlib.Logic.Function.Basic
import Mathlib.Tactic.Common

/-!
# Tables with open addressing

From the home of an entry on the slots are tried one after the other, and behind the
last one the first again. An entry is put into the first free slot, and a search walks
until a free slot.

> The entries of one home that were put into an empty table are met by the walk from it
> in the order in which they were put, as long as there are fewer than slots.

What lies at a slot that is reached behind the first free one has another home: it would
have been put into the free one. This is what `Holds.reach` says.
-/

namespace ProbeTable

variable {α : Type*}

abbrev Table (α : Type*) := Nat → Option α

/-- The slot that is tried after `hi`. -/
def next (n hi : Nat) : Nat := if hi + 1 = n then 0 else hi + 1

/-- The first free slot from `hi` on; at most `fuel` slots are tried. -/
def freeSlot (n : Nat) (t : Table α) : Nat → Nat → Option Nat
  | 0, _ => none
  | fuel + 1, hi =>
      match t hi with
      | none => some hi
      | some _ => freeSlot n t fuel (next n hi)

/-- The entries that are met from `hi` on. -/
def walk (n : Nat) (t : Table α) : Nat → Nat → List α
  | 0, _ => []
  | fuel + 1, hi =>
      match t hi with
      | none => []
      | some a => a :: walk n t fuel (next n hi)

/-- Undefined when no slot is free. -/
def put (n : Nat) (home : α → Nat) (t : Table α) (a : α) : Option (Table α) :=
  (freeSlot n t n (home a)).map fun hi => Function.update t hi (some a)

def putAll (n : Nat) (home : α → Nat) (as : List α) : Option (Table α) :=
  as.foldlM (put n home) fun _ => none

/-! ## Slots from a home on -/

theorem next_eq {n hi : Nat} (h : hi < n) : next n hi = (hi + 1) % n := by
  unfold next
  split_ifs with hlast
  · rw [hlast, Nat.mod_self]
  · rw [Nat.mod_eq_of_lt (by omega)]

theorem next_lt {n hi : Nat} (h : hi < n) : next n hi < n := by
  rw [next_eq h]
  exact Nat.mod_lt _ (by omega)

/-- A step to the next slot is one more from the home. -/
theorem slot_next {n hi : Nat} (h : hi < n) (d : Nat) :
    (next n hi + d) % n = (hi + (d + 1)) % n := by
  rw [next_eq h, Nat.mod_add_mod]
  congr 1
  omega

/-- Every slot is reached. -/
theorem exists_slot {n h j : Nat} (hh : h < n) (hj : j < n) : ∃ d < n, (h + d) % n = j := by
  refine ⟨(j + (n - h)) % n, Nat.mod_lt _ (by omega), ?_⟩
  rw [Nat.add_mod_mod, show h + (j + (n - h)) = j + n by omega, Nat.add_mod_right,
    Nat.mod_eq_of_lt hj]

theorem slot_inj {n h d d' : Nat} (hd : d < n) (hd' : d' < n)
    (heq : (h + d) % n = (h + d') % n) : d = d' := by
  have hmod : d % n = d' % n := Nat.ModEq.add_left_cancel' h heq
  rwa [Nat.mod_eq_of_lt hd, Nat.mod_eq_of_lt hd'] at hmod

/-- The `d` slots from `h` on are taken. -/
def Run (n : Nat) (t : Table α) (h d : Nat) : Prop := ∀ i < d, (t ((h + i) % n)).isSome

section Table

variable {n : Nat} {t : Table α} {a b : α} {e h : Nat}

theorem Run.cons (hh : h < n) (ha : (t h).isSome) {d : Nat} (hrun : Run n t (next n h) d) :
    Run n t h (d + 1) := by
  intro i hi
  cases i with
  | zero => rwa [Nat.add_zero, Nat.mod_eq_of_lt hh]
  | succ i =>
      rw [← slot_next hh]
      exact hrun i (Nat.lt_of_succ_lt_succ hi)

theorem Run.tail (hh : h < n) {d : Nat} (hrun : Run n t h (d + 1)) : Run n t (next n h) d := by
  intro i hi
  rw [slot_next hh]
  exact hrun (i + 1) (Nat.succ_lt_succ hi)

theorem Run.update (hrun : Run n t h e) (j : Nat) :
    Run n (Function.update t j (some a)) h e := by
  intro i hi
  rw [Function.update_apply]
  split_ifs with hj
  · rfl
  · exact hrun i hi

theorem freeSlot_some {fuel : Nat} (hh : h < n) (hfree : freeSlot n t fuel h = some e) :
    ∃ d < fuel, Run n t h d ∧ e = (h + d) % n ∧ t e = none := by
  induction fuel generalizing h with
  | zero => cases hfree
  | succ fuel ih =>
      rw [freeSlot] at hfree
      cases ht : t h with
      | none =>
          rw [ht] at hfree
          cases hfree
          exact ⟨0, Nat.succ_pos _, fun i hi => absurd hi (Nat.not_lt_zero i),
            (Nat.mod_eq_of_lt hh).symm, ht⟩
      | some b =>
          rw [ht] at hfree
          obtain ⟨d, hd, hrun, rfl, hnone⟩ := ih (next_lt hh) hfree
          exact ⟨d + 1, Nat.succ_lt_succ hd, hrun.cons hh (by rw [ht]; rfl), slot_next hh d, hnone⟩

theorem freeSlot_none {fuel : Nat} (hh : h < n) (hfree : freeSlot n t fuel h = none) :
    Run n t h fuel := by
  induction fuel generalizing h with
  | zero => exact fun i hi => absurd hi (Nat.not_lt_zero i)
  | succ fuel ih =>
      rw [freeSlot] at hfree
      cases ht : t h with
      | none =>
          rw [ht] at hfree
          cases hfree
      | some b =>
          rw [ht] at hfree
          exact (ih (next_lt hh) hfree).cons hh (by rw [ht]; rfl)

/-- A free slot is found. -/
theorem exists_freeSlot (hh : h < n) {j : Nat} (hj : j < n) (hnone : t j = none) :
    ∃ e, freeSlot n t n h = some e := by
  cases hfree : freeSlot n t n h with
  | some e => exact ⟨e, rfl⟩
  | none =>
      obtain ⟨d, hd, rfl⟩ := exists_slot hh hj
      have hsome := freeSlot_none hh hfree d hd
      rw [hnone] at hsome
      cases hsome

/-- Where what is met lies. -/
theorem mem_walk {fuel : Nat} (hh : h < n) (hb : b ∈ walk n t fuel h) :
    ∃ i < fuel, t ((h + i) % n) = some b := by
  induction fuel generalizing h with
  | zero => cases hb
  | succ fuel ih =>
      rw [walk] at hb
      cases ht : t h with
      | none =>
          rw [ht] at hb
          cases hb
      | some c =>
          rw [ht] at hb
          rcases List.mem_cons.mp hb with rfl | hb
          · exact ⟨0, Nat.succ_pos _, by rw [Nat.add_zero, Nat.mod_eq_of_lt hh, ht]⟩
          · obtain ⟨i, hi, hib⟩ := ih (next_lt hh) hb
            exact ⟨i + 1, Nat.succ_lt_succ hi, by rw [← slot_next hh, hib]⟩

/-- With an entry in a free slot a walk is what it was, or it goes on there. -/
theorem walk_update (he : t e = none) {fuel : Nat} (hh : h < n) :
    (walk n (Function.update t e (some a)) fuel h = walk n t fuel h ∧
      ∀ k < fuel, Run n t h k → (h + k) % n ≠ e) ∨
    ∃ k < fuel, Run n t h k ∧ (h + k) % n = e ∧
      walk n (Function.update t e (some a)) fuel h = walk n t fuel h ++
        a :: walk n (Function.update t e (some a)) (fuel - (k + 1)) (next n e) := by
  induction fuel generalizing h with
  | zero => exact .inl ⟨rfl, fun k hk => absurd hk (Nat.not_lt_zero k)⟩
  | succ fuel ih =>
      by_cases hhe : h = e
      · subst hhe
        refine .inr ⟨0, Nat.succ_pos _, fun i hi => absurd hi (Nat.not_lt_zero i),
          Nat.mod_eq_of_lt hh, ?_⟩
        rw [walk, walk, Function.update_self, he]
        rfl
      · rw [walk, walk, Function.update_of_ne hhe]
        cases ht : t h with
        | none =>
            refine .inl ⟨rfl, fun k _ hrun => ?_⟩
            cases k with
            | zero => rwa [Nat.add_zero, Nat.mod_eq_of_lt hh]
            | succ k =>
                have hsome := hrun 0 (Nat.succ_pos k)
                rw [Nat.add_zero, Nat.mod_eq_of_lt hh, ht] at hsome
                cases hsome
        | some b =>
            rcases ih (next_lt hh) with ⟨heq, hne⟩ | ⟨k, hk, hrun, hslot, heq⟩
            · refine .inl ⟨congrArg (b :: ·) heq, fun k hk hrun => ?_⟩
              cases k with
              | zero => rwa [Nat.add_zero, Nat.mod_eq_of_lt hh]
              | succ k =>
                  rw [← slot_next hh]
                  exact hne k (Nat.lt_of_succ_lt_succ hk) (hrun.tail hh)
            · refine .inr ⟨k + 1, Nat.succ_lt_succ hk, hrun.cons hh (by rw [ht]; rfl), ?_, ?_⟩
              · rw [← slot_next hh, hslot]
              · rw [Nat.succ_sub_succ]
                exact congrArg (b :: ·) heq

end Table

/-! ## What was put is met -/

/-- The slots that are taken. -/
def taken (n : Nat) (t : Table α) : Finset Nat := (Finset.range n).filter fun j => (t j).isSome

structure Holds (n : Nat) (home : α → Nat) (t : Table α) (as : List α) : Prop where
  mem : ∀ j a, t j = some a → a ∈ as
  reach : ∀ j < n, ∀ a, t j = some a → ∃ d < n, j = (home a + d) % n ∧ Run n t (home a) d
  order : ∀ h < n, ∀ p : α → Bool, (∀ a, p a → home a = h) →
    (walk n t n h).filter p = as.filter p
  count : (taken n t).card = as.length

section Put

variable {n : Nat} {home : α → Nat} {t : Table α} {as : List α}

theorem holds_empty (n : Nat) (home : α → Nat) : Holds n home (fun _ => none) [] where
  mem := fun j a h => nomatch h
  reach := fun j _ a h => nomatch h
  order := fun h hh p _ => by
    obtain ⟨n, rfl⟩ := Nat.exists_eq_add_of_lt hh
    rfl
  count := by
    rw [List.length_nil, Finset.card_eq_zero]
    exact Finset.filter_eq_empty_iff.mpr fun j _ => Bool.false_ne_true

theorem Holds.exists_free (hold : Holds n home t as) (hlen : as.length < n) :
    ∃ j < n, t j = none := by
  by_contra hall
  push Not at hall
  have hfull : taken n t = Finset.range n := Finset.filter_true_of_mem fun j hj =>
    Option.isSome_iff_ne_none.mpr (hall j (Finset.mem_range.mp hj))
  have := hold.count
  rw [hfull, Finset.card_range] at this
  omega

theorem taken_update {e : Nat} {a : α} (he : e < n) :
    taken n (Function.update t e (some a)) = insert e (taken n t) := by
  ext j
  simp only [taken, Finset.mem_filter, Finset.mem_range, Finset.mem_insert]
  by_cases hj : j = e
  · subst hj
    simp [he]
  · simp [hj]

/-- Putting an entry into a table with a free slot. -/
theorem Holds.put (hold : Holds n home t as) (hlen : as.length < n) {a : α} (ha : home a < n) :
    ∃ t', put n home t a = some t' ∧ Holds n home t' (as ++ [a]) := by
  obtain ⟨j, hj, hnone⟩ := hold.exists_free hlen
  obtain ⟨e, hfree⟩ := exists_freeSlot ha hj hnone
  obtain ⟨d, hd, hrun, hslot, he⟩ := freeSlot_some ha hfree
  have hen : e < n := hslot ▸ Nat.mod_lt _ (by omega)
  refine ⟨Function.update t e (some a), by rw [ProbeTable.put, hfree]; rfl, ?_, ?_, ?_, ?_⟩
  · intro j b hb
    rw [Function.update_apply] at hb
    split_ifs at hb
    · cases hb
      exact List.mem_append_right as List.mem_cons_self
    · exact List.mem_append_left [a] (hold.mem j b hb)
  · intro j hj b hb
    rw [Function.update_apply] at hb
    split_ifs at hb with hje
    · cases hb
      exact ⟨d, hd, hje.trans hslot, hrun.update e⟩
    · obtain ⟨d', hd', hj', hrun'⟩ := hold.reach j hj b hb
      exact ⟨d', hd', hj', hrun'.update e⟩
  · intro h hh p hp
    rw [List.filter_append, ← hold.order h hh p hp]
    rcases walk_update (a := a) he hh with ⟨heq, hne⟩ | ⟨k, hk, hrunk, hslotk, heq⟩
    · -- an entry of this home would have been put where the walk ends
      have hpa : ¬p a = true := by
        intro hpa
        obtain rfl := hp a hpa
        exact hne d hd hrun hslot.symm
      rw [heq, List.filter_cons_of_neg hpa, List.filter_nil, List.append_nil]
    · -- what is met behind the slot was not met before, and has another home
      have hrest : (walk n (Function.update t e (some a)) (n - (k + 1)) (next n e)).filter p =
          [] := by
        refine List.filter_eq_nil_iff.mpr fun b hb hpb => ?_
        obtain ⟨i, hi, hib⟩ := mem_walk (next_lt hen) hb
        have hsloti : (next n e + i) % n = (h + (k + 1 + i)) % n := by
          rw [slot_next hen, ← hslotk, Nat.mod_add_mod]
          congr 1
          omega
        rw [hsloti] at hib
        have hne : (h + (k + 1 + i)) % n ≠ e := by
          intro hc
          have := slot_inj (by omega) hk (hc.trans hslotk.symm)
          omega
        rw [Function.update_of_ne hne] at hib
        obtain ⟨d', hd', hj', hrun'⟩ := hold.reach _ (Nat.mod_lt _ (by omega)) b hib
        rw [hp b hpb] at hj' hrun'
        have := slot_inj (by omega) hd' hj'
        have hsome := hrun' k (by omega)
        rw [hslotk, he] at hsome
        cases hsome
      rw [heq, List.filter_append]
      congr 1
      by_cases hpa : p a = true
      · rw [List.filter_cons_of_pos hpa, List.filter_cons_of_pos hpa, hrest, List.filter_nil]
      · rw [List.filter_cons_of_neg hpa, List.filter_cons_of_neg hpa, hrest, List.filter_nil]
  · rw [taken_update hen, Finset.card_insert_of_notMem, hold.count, List.length_append,
      List.length_singleton]
    intro hmem
    have := (Finset.mem_filter.mp hmem).2
    rw [he] at this
    cases this

theorem Holds.foldlM {bs : List α} (hold : Holds n home t as)
    (hlen : as.length + bs.length ≤ n) (hhome : ∀ b ∈ bs, home b < n) :
    ∃ t', bs.foldlM (ProbeTable.put n home) t = some t' ∧ Holds n home t' (as ++ bs) := by
  induction bs generalizing t as with
  | nil => exact ⟨t, rfl, by rwa [List.append_nil]⟩
  | cons b bs ih =>
      rw [List.length_cons] at hlen
      obtain ⟨t', hput, hold'⟩ := hold.put (a := b) (by omega) (hhome b List.mem_cons_self)
      have hlen' : (as ++ [b]).length + bs.length ≤ n := by
        rw [List.length_append, List.length_singleton]
        omega
      obtain ⟨t'', hputs, hold''⟩ := ih hold' hlen' fun c hc => hhome c (List.mem_cons_of_mem b hc)
      refine ⟨t'', ?_, by rwa [List.append_assoc] at hold''⟩
      rw [List.foldlM_cons, hput]
      exact hputs

/-- A search for what has one home finds in the walk from it what it finds in the sequence. -/
theorem Holds.filterMap_walk {β : Type*} (hold : Holds n home t as) {h : Nat} (hh : h < n)
    {f : α → Option β} (hf : ∀ a, (f a).isSome → home a = h) :
    (walk n t n h).filterMap f = as.filterMap f := by
  have hfilter : ∀ l : List α, (l.filter fun a => (f a).isSome).filterMap f = l.filterMap f := by
    intro l
    rw [List.filterMap_filter]
    congr 1
    funext a
    cases f a <;> rfl
  rw [← hfilter, hold.order h hh _ hf, hfilter]

theorem putAll_holds (hlen : as.length ≤ n) (hhome : ∀ a ∈ as, home a < n) :
    ∃ t, putAll n home as = some t ∧ Holds n home t as :=
  (holds_empty n home).foldlM (by rwa [List.length_nil, Nat.zero_add]) hhome

end Put

end ProbeTable
