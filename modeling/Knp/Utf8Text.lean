import Mathlib.Data.List.Basic
import Mathlib.Data.UInt

/-!
# Texts in UTF-8

A text is a list of characters, and its bytes are their encodings one after the other.

> A character in front of a text can be told from its bytes, and so can the text.

A place in the bytes is at the boundary of a character if the next byte is the first of one.
-/

namespace Utf8Text

def encode (cs : List Char) : List UInt8 := cs.flatMap String.utf8EncodeChar

/-- The next byte, if there is one, is the first byte of a character. -/
def AtBoundary (dat : List UInt8) : Prop := ∀ b ∈ dat.head?, b.IsUTF8FirstByte

variable {c d : Char} {cs ds : List Char} {b : UInt8}

@[simp] theorem encode_nil : encode [] = [] := rfl

theorem encode_cons (c : Char) (cs : List Char) :
    encode (c :: cs) = String.utf8EncodeChar c ++ encode cs := List.flatMap_cons

@[simp] theorem encode_append (cs ds : List Char) : encode (cs ++ ds) = encode cs ++ encode ds :=
  List.flatMap_append

theorem encode_eq_nil_iff : encode cs = [] ↔ cs = [] := by
  cases cs with
  | nil => exact iff_of_true rfl rfl
  | cons c cs =>
      rw [encode_cons, List.append_eq_nil_iff]
      exact iff_of_false (fun h => String.utf8EncodeChar_ne_nil h.1) (List.cons_ne_nil c cs)

/-- The character in front is what the bytes begin with. -/
theorem char_unique {s t : List UInt8}
    (h : String.utf8EncodeChar c ++ s = String.utf8EncodeChar d ++ t) : c = d := by
  have hc := ByteArray.utf8DecodeChar?_utf8EncodeChar_append (b := s.toByteArray) (c := c)
  have hd := ByteArray.utf8DecodeChar?_utf8EncodeChar_append (b := t.toByteArray) (c := d)
  rw [← List.toByteArray_append, h, List.toByteArray_append, hd] at hc
  exact (Option.some.inj hc).symm

theorem prefix_encode_iff :
    String.utf8EncodeChar d <+: encode (c :: cs) ↔ c = d := by
  rw [encode_cons]
  constructor
  · rintro ⟨t, ht⟩
    exact (char_unique ht).symm
  · rintro rfl
    exact List.prefix_append _ _

theorem encode_injective : Function.Injective encode := by
  intro cs
  induction cs with
  | nil => exact fun ds h => (encode_eq_nil_iff.mp h.symm).symm
  | cons c cs ih =>
      intro ds h
      cases ds with
      | nil => exact absurd (encode_eq_nil_iff.mp h) (List.cons_ne_nil c cs)
      | cons d ds =>
          rw [encode_cons, encode_cons] at h
          obtain rfl := char_unique h
          rw [ih (List.append_cancel_left h)]

/-! ## Boundaries -/

theorem atBoundary_encode (cs : List Char) : AtBoundary (encode cs) := by
  cases cs with
  | nil => exact fun b hb => by cases hb
  | cons c cs =>
      have hpos : 0 < (String.utf8EncodeChar c).length :=
        List.length_pos_iff.mpr String.utf8EncodeChar_ne_nil
      intro b hb
      rw [encode_cons, List.head?_append_of_ne_nil _ String.utf8EncodeChar_ne_nil,
        List.head?_eq_getElem?, List.getElem?_eq_getElem hpos] at hb
      rw [← Option.some.inj hb]
      exact UInt8.isUTF8FirstByte_getElem_zero_utf8EncodeChar

/-- In a character only the first byte is one. -/
theorem not_firstByte_of_mem_tail (h : b ∈ (String.utf8EncodeChar c).tail) :
    ¬b.IsUTF8FirstByte := by
  obtain ⟨i, hi, rfl⟩ := List.mem_iff_getElem.mp h
  rw [List.getElem_tail, UInt8.isUTF8FirstByte_getElem_utf8EncodeChar]
  exact Nat.succ_ne_zero i

/-! ## Sizes -/

theorem encode_of_size_one (h : c.utf8Size = 1) :
    String.utf8EncodeChar c = [c.val.toUInt8] ∧ c.val.toUInt8 < 0x80 ∧
      c.val.toUInt8.toNat = c.toNat := by
  have hval : c.val.toNat ≤ 127 := UInt32.le_iff_toNat_le.mp (Char.utf8Size_eq_one_iff.mp h)
  have hbyte : c.val.toUInt8.toNat = c.val.toNat := by
    rw [UInt32.toNat_toUInt8]
    exact Nat.mod_eq_of_lt (by omega)
  refine ⟨String.utf8EncodeChar_eq_singleton h, UInt8.lt_iff_toNat_lt.mpr ?_, hbyte⟩
  rw [hbyte]
  exact Nat.lt_succ_of_le hval

theorem le_or_byte (x : UInt8) {y : UInt8} (h : 0x80 ≤ y) : 0x80 ≤ x ||| y := by
  rw [UInt8.le_iff_toNat_le] at h ⊢
  rw [UInt8.toNat_or]
  exact h.trans Nat.right_le_or

/-- All bytes of a longer character are above those of ASCII. -/
theorem le_of_mem_encode (h : c.utf8Size ≠ 1) (hb : b ∈ String.utf8EncodeChar c) : 0x80 ≤ b := by
  rcases c.utf8Size_eq with h1 | h2 | h3 | h4
  · exact absurd h1 h
  · rw [String.utf8EncodeChar_eq_cons_cons h2] at hb
    simp only [List.mem_cons, List.not_mem_nil, or_false] at hb
    rcases hb with rfl | rfl <;> exact le_or_byte _ (by decide)
  · rw [String.utf8EncodeChar_eq_cons_cons_cons h3] at hb
    simp only [List.mem_cons, List.not_mem_nil, or_false] at hb
    rcases hb with rfl | rfl | rfl <;> exact le_or_byte _ (by decide)
  · rw [String.utf8EncodeChar_eq_cons_cons_cons_cons h4] at hb
    simp only [List.mem_cons, List.not_mem_nil, or_false] at hb
    rcases hb with rfl | rfl | rfl | rfl <;> exact le_or_byte _ (by decide)

/-- A NUL byte is that of the NUL character. -/
theorem zero_mem_encode (h : 0 ∈ String.utf8EncodeChar c) : c.toNat = 0 := by
  by_cases h1 : c.utf8Size = 1
  · obtain ⟨hbytes, -, hnat⟩ := encode_of_size_one h1
    rw [hbytes] at h
    rw [← hnat, ← List.mem_singleton.mp h]
    rfl
  · exact absurd (le_of_mem_encode h1 h) (by decide)

/-- Up to the first NUL. -/
theorem takeWhile_encode (cs : List Char) :
    (encode cs).takeWhile (· ≠ 0) = encode (cs.takeWhile (·.toNat ≠ 0)) := by
  induction cs with
  | nil => rfl
  | cons c cs ih =>
      rw [encode_cons]
      by_cases hc : c.toNat = 0
      · have hnul : c = Char.ofNat 0 := Char.toNat_inj.mp hc
        subst hnul
        rfl
      · have hall : ∀ b ∈ String.utf8EncodeChar c, decide (b ≠ 0) = true := by
          rintro b hb
          rw [decide_eq_true_iff]
          rintro rfl
          exact hc (zero_mem_encode hb)
        rw [List.takeWhile_append_of_pos hall, List.takeWhile_cons_of_pos (by simpa using hc), ih,
          encode_cons]

end Utf8Text
