import Mathlib.Data.List.Range
import Mathlib.Tactic.Common

/-!
# Blocks of lines and arcs between them

A text made of blocks: the line `start blocks x + j` is the `j`-th line of block
`x`. Each line has a head, the number of another line, or -1 for the root.

`record` keeps for each line the nearest head of the arcs above it.
-/

namespace Layout

/-! ## Blocks -/

section Blocks

variable {α : Type*} {blocks : Nat → List α} {n c x y : Nat} {a : α}

/-- The number of the first line of a block. -/
def start (blocks : Nat → List α) : Nat → Nat
  | 0 => 0
  | x + 1 => start blocks x + (blocks x).length

theorem start_mono (h : x ≤ y) : start blocks x ≤ start blocks y := by
  induction y, h using Nat.le_induction with
  | base => exact le_rfl
  | succ y _ ih => exact ih.trans (Nat.le_add_right _ _)

variable (blocks) in
theorem start_succ_le (h : x < y) : start blocks x + (blocks x).length ≤ start blocks y :=
  start_mono (x := x + 1) h

def text (blocks : Nat → List α) (n : Nat) : List α := (List.range n).flatMap blocks

@[simp] theorem text_succ : text blocks (n + 1) = text blocks n ++ blocks n := by
  simp [text, List.range_succ]

theorem length_text : (text blocks n).length = start blocks n := by
  induction n with
  | zero => rfl
  | succ n ih => rw [text_succ, List.length_append, ih, start]

/-- Where a line of the text stands in the blocks. -/
theorem getElem?_text_iff : (text blocks n)[c]? = some a ↔
    ∃ x < n, ∃ j, c = start blocks x + j ∧ (blocks x)[j]? = some a := by
  induction n with
  | zero => simp [text]
  | succ n ih =>
      rw [text_succ]
      by_cases hc : c < start blocks n
      · rw [List.getElem?_append_left (by rwa [length_text]), ih]
        constructor
        · rintro ⟨x, hx, j, hj⟩
          exact ⟨x, hx.trans (Nat.lt_succ_self n), j, hj⟩
        · rintro ⟨x, hx, j, rfl, ha⟩
          have hxn : x ≠ n := by
            rintro rfl
            omega
          exact ⟨x, by omega, j, rfl, ha⟩
      · rw [List.getElem?_append_right (by rw [length_text]; omega), length_text]
        constructor
        · intro ha
          exact ⟨n, Nat.lt_succ_self n, c - start blocks n, by omega, ha⟩
        · rintro ⟨x, hx, j, rfl, ha⟩
          have hj : j < (blocks x).length := (List.getElem?_eq_some_iff.mp ha).1
          obtain rfl : x = n := by
            by_contra hne
            have := start_succ_le blocks (by omega : x < n)
            omega
          rwa [Nat.add_sub_cancel_left]

end Blocks

/-! ## Arcs -/

/-- Every line has its head behind it, but the last one. -/
def RightHeaded (heads : List Int) : Prop :=
  ∀ c h, heads[c]? = some h → h = -1 ∧ c + 1 = heads.length ∨ (c : Int) < h ∧ h < heads.length

/-- No line below an arc has its head beyond it. -/
def NonCrossing (heads : List Int) : Prop :=
  ∀ (c d : Nat) (h h' : Int), heads[c]? = some h → heads[d]? = some h' → c < d → (d : Int) < h →
    h' ≠ -1 ∧ h' ≤ h

/-- An arc from `lo` to `hi` is recorded above the lines from `lo` on; 0 is for none. -/
def record (table : Int → Int) (lo hi : Int) : Int → Int := fun p =>
  if lo ≤ p ∧ p < hi ∧ (table p = 0 ∨ hi < table p) then hi else table p

/-- The table has the nearest head of the arcs above a line. -/
structure Covers (arc : Int → Int → Prop) (table : Int → Int) : Prop where
  least : ∀ lo hi p, arc lo hi → lo ≤ p → p < hi → table p ≠ 0 ∧ table p ≤ hi
  attained : ∀ p, table p ≠ 0 → ∃ lo, arc lo (table p) ∧ lo ≤ p ∧ p < table p

theorem Covers.zero : Covers (fun _ _ => False) (fun _ => 0) :=
  ⟨nofun, fun _ h => absurd rfl h⟩

theorem Covers.record {arc : Int → Int → Prop} {table : Int → Int} (h : Covers arc table)
    {lo hi : Int} (hlo : 0 ≤ lo) :
    Covers (fun l r => arc l r ∨ l = lo ∧ r = hi) (record table lo hi) where
  least l r p harc hl hr := by
    unfold Layout.record
    rcases harc with harc | ⟨rfl, rfl⟩
    · have := h.least l r p harc hl hr
      split_ifs with hp <;> omega
    · split_ifs with hp <;> omega
  attained p hp := by
    unfold Layout.record at hp ⊢
    split_ifs at hp ⊢ with hnew
    · exact ⟨lo, .inr ⟨rfl, rfl⟩, hnew.1, hnew.2.1⟩
    · obtain ⟨l, harc, hl, hr⟩ := h.attained p hp
      exact ⟨l, .inl harc, hl, hr⟩

theorem Covers.mono {arc arc' : Int → Int → Prop} {table : Int → Int} (h : Covers arc table)
    (harc : ∀ l r, arc l r ↔ arc' l r) : Covers arc' table :=
  ⟨fun l r p hlr => h.least l r p ((harc l r).mpr hlr), fun p hp =>
    (h.attained p hp).imp fun _ hl => ⟨(harc _ _).mp hl.1, hl.2⟩⟩

end Layout
