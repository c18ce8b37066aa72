import Mathlib.Data.List.Basic
import Mathlib.Data.UInt
import Mathlib.Tactic.Ring

/-!
# Bytes in a file

Unsigned 32-bit numbers as four bytes, and a sequence of blocks of equal size.
A file is read from a position: what lies before is dropped.
-/

namespace Bytes

def putInt (n : Nat) : List UInt8 :=
  [n.toUInt8, (n / 256).toUInt8, (n / 65536).toUInt8, (n / 16777216).toUInt8]

/-- The number in the bytes of a block. -/
def getInt (bytes : List UInt8) : Nat := bytes.foldr (fun b n => b.toNat + 256 * n) 0

@[simp] theorem putInt_length (n : Nat) : (putInt n).length = 4 := rfl

theorem getInt_putInt {n : Nat} (h : n < 2 ^ 32) : getInt (putInt n) = n := by
  have htoNat : ∀ k : Nat, k.toUInt8.toNat = k % 256 := fun k => UInt8.toNat_ofNat'
  simp only [getInt, putInt, List.foldr, htoNat]
  omega

/-- The number a file begins with. -/
theorem getInt_take_append {n : Nat} (h : n < 2 ^ 32) (rest : List UInt8) :
    getInt ((putInt n ++ rest).take 4) = n := by
  rw [List.take_left' (putInt_length n), getInt_putInt h]

variable {α : Type*} {f : α → List UInt8} {k : Nat}

theorem length_blocks (hf : ∀ a, (f a).length = k) : ∀ l : List α,
    (l.flatMap f).length = k * l.length
  | [] => rfl
  | a :: l => by
      rw [List.flatMap_cons, List.length_append, hf, length_blocks hf l, List.length_cons]
      ring

/-- Behind the first `i` blocks. -/
theorem drop_blocks (hf : ∀ a, (f a).length = k) : ∀ (i : Nat) (l : List α) (rest : List UInt8),
    i ≤ l.length → ((l.flatMap f) ++ rest).drop (k * i) = (l.drop i).flatMap f ++ rest
  | 0, l, rest, _ => rfl
  | i + 1, [], rest, h => absurd h (Nat.not_succ_le_zero i)
  | i + 1, a :: l, rest, h => by
      have hk : k * (i + 1) = (f a).length + k * i := by rw [hf]; ring
      rw [List.flatMap_cons, List.append_assoc, hk, ← List.drop_drop, List.drop_left,
        drop_blocks hf i l rest (Nat.le_of_succ_le_succ h), List.drop_succ_cons]

/-- The `i`th block. -/
theorem read_block (hf : ∀ a, (f a).length = k) {i : Nat} {l : List α} {a : α}
    (rest : List UInt8) (h : l[i]? = some a) :
    (((l.flatMap f) ++ rest).drop (k * i)).take k = f a := by
  obtain ⟨hi, ha⟩ := List.getElem?_eq_some_iff.mp h
  rw [drop_blocks hf i l rest hi.le, List.drop_eq_getElem_cons hi, ha, List.flatMap_cons,
    List.append_assoc, List.take_left' (hf a)]

/-- Behind the first `i` of the sequences that a file is made of. -/
theorem drop_flatten (ls : List (List UInt8)) (i : Nat) :
    ls.flatten.drop ((ls.take i).map List.length).sum = (ls.drop i).flatten := by
  induction ls generalizing i with
  | nil => simp
  | cons l ls ih =>
      cases i with
      | zero => rfl
      | succ i =>
          rw [List.take_succ_cons, List.map_cons, List.sum_cons, List.flatten_cons,
            ← List.drop_drop, List.drop_left, ih, List.drop_succ_cons]

end Bytes
