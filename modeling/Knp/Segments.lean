import Mathlib.Order.Monotone.Basic
import Mathlib.Tactic.Common

/-!
# A row cut into numbered segments

The first element of a segment carries the number of the segment, the others
carry none (a negative label). `number` is the segment an element lies in: the
label nearest to the left. `Numbered` says that the numbers go up by one from
0. Then the segments are intervals, in the order of their numbers.
-/

namespace Segments

variable {label : Nat → Int} {len count i j k : Nat}

/-- The segment of element `i`: the label it carries, or that of its left
neighbour. -/
def number (label : Nat → Int) : Nat → Nat
  | 0 => (label 0).toNat
  | i + 1 => if 0 ≤ label (i + 1) then (label (i + 1)).toNat else number label i

/-- `len` elements in `count` segments, numbered from 0. -/
structure Numbered (label : Nat → Int) (len count : Nat) : Prop where
  pos : 0 < len
  zero : label 0 = 0
  step : ∀ i, i + 1 < len → label (i + 1) = -1 ∨ label (i + 1) = number label i + 1
  last : number label (len - 1) + 1 = count

instance (len count : Nat) : Decidable (Numbered label len count) :=
  decidable_of_iff (0 < len ∧ label 0 = 0 ∧
      (∀ i < len - 1, label (i + 1) = -1 ∨ label (i + 1) = number label i + 1) ∧
      number label (len - 1) + 1 = count)
    ⟨fun h => ⟨h.1, h.2.1, fun i hi => h.2.2.1 i (by omega), h.2.2.2⟩,
      fun h => ⟨h.pos, h.zero, fun i hi => h.step i (by omega), h.last⟩⟩

theorem number_succ_of_neg (h : label (i + 1) = -1) : number label (i + 1) = number label i := by
  simp [number, h]

theorem number_succ_of_eq (h : label (i + 1) = number label i + 1) :
    number label (i + 1) = number label i + 1 := by
  rw [number, if_pos (by omega), h]
  omega

variable (label) in
/-- A label that is not negative is the number. -/
theorem number_of_nonneg (h : 0 ≤ label i) : number label i = (label i).toNat := by
  cases i with
  | zero => rfl
  | succ i => rw [number, if_pos h]

namespace Numbered

variable (h : Numbered label len count)
include h

theorem number_le_succ (hi : i + 1 < len) : number label i ≤ number label (i + 1) := by
  rcases h.step i hi with hneg | hnext
  · rw [number_succ_of_neg hneg]
  · rw [number_succ_of_eq hnext]
    omega

theorem number_mono (hij : i ≤ j) (hj : j < len) : number label i ≤ number label j := by
  induction j, hij using Nat.le_induction with
  | base => exact le_rfl
  | succ j hij ih => exact (ih (by omega)).trans (h.number_le_succ hj)

theorem number_lt_count (hi : i < len) : number label i < count := by
  have := h.number_mono (by omega : i ≤ len - 1) (by omega)
  have := h.last
  omega

theorem lt_of_number_lt (hi : i < len) (hlt : number label i < number label j) : i < j := by
  by_contra hle
  have := h.number_mono (by omega : j ≤ i) hi
  omega

/-- No element before the first one of a segment lies in it. -/
theorem number_ne_of_start (hi : i < len) (hstart : 0 ≤ label i) (hj : j < i) :
    number label j ≠ number label i := by
  cases i with
  | zero => omega
  | succ i =>
      have hmono := h.number_mono (by omega : j ≤ i) (by omega)
      rcases h.step i hi with hneg | hnext
      · omega
      · rw [number_succ_of_eq hnext]
        omega

end Numbered

end Segments
