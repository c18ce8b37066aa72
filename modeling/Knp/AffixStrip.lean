import Mathlib
import Knp.CommonAffix
import Knp.SurfaceCase

/-!
# Stripping common characters (`corefer.c`)

`compare_strings` looks an anaphor and an antecedent up in the dictionary of synonyms
without the characters that they have in common in front and at the end (金融派生商品-取引 and
デリバティブ-取引). A reading is compared by the number of these characters.

> The two loops count the longest common prefix and suffix, and what is looked up is what is
> left between them, just if the antecedent is no proper suffix of the anaphor, and prefix
> and suffix do not overlap.

The second loop goes up to the length of the anaphor and then in front of the antecedent;
only the anaphor is tested for an overlap, and only for the dictionary.
-/

namespace Knp

open CommonAffix

/-- A string of characters of `BYTES4CHAR` bytes. -/
structure CharText where
  chars : List (List UInt8)
  complete : ∀ c ∈ chars, c.length = BYTES4CHAR ∧ 0 ∉ c
  fits : chars.flatten.length < 2 ^ 64

namespace CharText

variable (t : CharText)

def bytes : List UInt8 := t.chars.flatten

def strlen : Nat := t.bytes.length

/-- The text from an offset on; `before` is what stands in front of the string. -/
def textFrom (before : Nat → UInt8) (p : Int) : List UInt8 :=
  if 0 ≤ p then t.bytes.drop p.toNat
  else (List.range (-p).toNat).map (fun k => before ((-p).toNat - 1 - k)) ++ t.bytes

end CharText

/-- `!strncmp(s, t, n)`; behind the end there is NUL. -/
def sameFront : Nat → List UInt8 → List UInt8 → Bool
  | 0, _, _ => true
  | n + 1, s, t => s.headD 0 = t.headD 0 && (s.headD 0 = 0 || sameFront n s.tail t.tail)

/-- `for (i = 0; i < len; i += BYTES4CHAR)` with a `break`: the number of turns before the loop
is left. -/
def countSame (len : Nat) (same : Nat → Bool) : Nat :=
  (List.range len).findIdx fun k => !(BYTES4CHAR * k < len && same (BYTES4CHAR * k))

/-- The strings, and what stands in front of them. -/
structure ComparePair where
  antecedent : CharText
  anaphor : CharText
  beforeAntecedent : Nat → UInt8
  beforeAnaphor : Nat → UInt8

namespace ComparePair

variable (c : ComparePair)

/-- `antecedent + strlen(antecedent) - j - BYTES4CHAR` -/
def antecedentOffset (j : Nat) : Int := c.antecedent.strlen - j - BYTES4CHAR

def anaphorOffset (j : Nat) : Int := c.anaphor.strlen - j - BYTES4CHAR

def left : Nat :=
  countSame c.anaphor.strlen fun i =>
    sameFront BYTES4CHAR (c.antecedent.bytes.drop i) (c.anaphor.bytes.drop i)

def right : Nat :=
  countSame c.anaphor.strlen fun j =>
    sameFront BYTES4CHAR (c.antecedent.textFrom c.beforeAntecedent (c.antecedentOffset j))
      (c.anaphor.textFrom c.beforeAnaphor (c.anaphorOffset j))

/-- `strlen(antecedent) - i - j`, of type `size_t`. -/
def restLength (i j : Nat) : Nat := (((c.antecedent.strlen : Int) - i - j) % 2 ^ 64).toNat

/-- 残りの文字列のペア, if there is one. -/
def lookupPair : Option (List UInt8 × List UInt8) :=
  -- 同表記の場合
  if c.antecedent.bytes = c.anaphor.bytes then none
  else
    let i := BYTES4CHAR * c.left
    let j := BYTES4CHAR * c.right
    -- 公文書公開 公開 のとき
    if c.anaphor.strlen < i + j then none
    else some ((c.anaphor.bytes.drop i).take (c.anaphor.strlen - i - j),
      (c.antecedent.bytes.drop i).take (c.restLength i j))

/-! ## What should be stripped -/

/-- The turns of the loops read no byte in front of the strings or behind their ends. -/
structure ReadsInside : Prop where
  forward : ∀ k ≤ c.left, BYTES4CHAR * k < c.anaphor.strlen →
    BYTES4CHAR * k ≤ c.antecedent.strlen
  backward : ∀ k ≤ c.right, BYTES4CHAR * k < c.anaphor.strlen →
    0 ≤ c.antecedentOffset (BYTES4CHAR * k) ∧ 0 ≤ c.anaphorOffset (BYTES4CHAR * k)

/-- The longest common prefix and suffix of whole characters. -/
structure Common (p s : List (List UInt8)) : Prop where
  isPrefix : IsGreatestPrefix p c.anaphor.chars c.antecedent.chars
  isSuffix : IsGreatestSuffix s c.anaphor.chars c.antecedent.chars

/-- What is looked up is what is left between them. -/
def StripsPair : Prop :=
  ∀ a b, c.lookupPair = some (a, b) → ∃ p s, c.Common p s ∧
    c.anaphor.bytes = p.flatten ++ a ++ s.flatten ∧
      c.antecedent.bytes = p.flatten ++ b ++ s.flatten

/-- The counts for a reading are those of a prefix and a suffix that do not overlap. -/
def CountsReading : Prop :=
  ∃ p s, c.Common p s ∧ c.left = p.length ∧ c.right = s.length ∧
    p.length + s.length ≤ c.anaphor.chars.length ∧
      p.length + s.length ≤ c.antecedent.chars.length

/-- The law of the two loops. -/
structure StripLaw : Prop where
  inside : c.ReadsInside
  pair : c.StripsPair
  reading : c.CountsReading

/-- The number of characters of the prefix and of the suffix. -/
def commonChars : Nat :=
  commonLength c.anaphor.chars c.antecedent.chars +
    commonLengthRev c.anaphor.chars c.antecedent.chars

/-- The antecedent is no proper suffix of the anaphor, and prefix and suffix fit into both. -/
structure NoOverlap : Prop where
  notSuffix : c.antecedent.chars <:+ c.anaphor.chars → c.antecedent.chars = c.anaphor.chars
  anaphor : c.commonChars ≤ c.anaphor.chars.length
  antecedent : c.commonChars ≤ c.antecedent.chars.length

end ComparePair

/-! ## Characters and bytes -/

theorem byte_pos : 0 < BYTES4CHAR := by decide

theorem length_flatten_chars {cs : List (List UInt8)} (h : ∀ c ∈ cs, c.length = BYTES4CHAR) :
    cs.flatten.length = BYTES4CHAR * cs.length := by
  induction cs with
  | nil => simp
  | cons c cs ih =>
      obtain ⟨hc, hcs⟩ := List.forall_mem_cons.mp h
      rw [List.flatten_cons, List.length_append, hc, ih hcs, List.length_cons, Nat.mul_succ,
        Nat.add_comm]

theorem drop_flatten_chars {cs : List (List UInt8)} (h : ∀ c ∈ cs, c.length = BYTES4CHAR)
    (k : Nat) : cs.flatten.drop (BYTES4CHAR * k) = (cs.drop k).flatten := by
  induction cs generalizing k with
  | nil => simp
  | cons c cs ih =>
      obtain ⟨hc, hcs⟩ := List.forall_mem_cons.mp h
      cases k with
      | zero => simp
      | succ k =>
          rw [List.flatten_cons, Nat.mul_succ, Nat.add_comm, ← List.drop_drop, ← hc, List.drop_left,
            hc, ih hcs, List.drop_succ_cons]

theorem take_flatten_chars {cs : List (List UInt8)} (h : ∀ c ∈ cs, c.length = BYTES4CHAR)
    (k : Nat) : cs.flatten.take (BYTES4CHAR * k) = (cs.take k).flatten := by
  induction cs generalizing k with
  | nil => simp
  | cons c cs ih =>
      obtain ⟨hc, hcs⟩ := List.forall_mem_cons.mp h
      cases k with
      | zero => simp
      | succ k =>
          rw [List.flatten_cons, Nat.mul_succ, Nat.add_comm, ← hc, List.take_length_add_append, hc,
            ih hcs, List.take_succ_cons, List.flatten_cons]

/-- Two characters in front of any texts. -/
theorem sameFront_append {u v r r' : List UInt8} (hlen : u.length = v.length) (hv : 0 ∉ v) :
    sameFront v.length (u ++ r) (v ++ r') = true ↔ u = v := by
  induction v generalizing u with
  | nil =>
      rw [List.length_nil, List.length_eq_zero_iff] at hlen
      exact iff_of_true rfl hlen
  | cons b v ih =>
      obtain ⟨a, u, rfl⟩ := List.exists_cons_of_length_eq_add_one hlen
      obtain ⟨hb, hv'⟩ := not_or.mp (List.mem_cons.not.mp hv)
      have hrest := ih (Nat.succ.inj hlen) hv'
      rw [List.length_cons, sameFront, Bool.and_eq_true, decide_eq_true_iff, List.cons.injEq]
      simp only [List.cons_append, List.headD_cons, List.tail_cons, Bool.or_eq_true]
      rw [hrest]
      constructor
      · rintro ⟨rfl, hz | heq⟩
        · exact absurd (of_decide_eq_true hz).symm hb
        · exact ⟨rfl, heq⟩
      · rintro ⟨rfl, heq⟩
        exact ⟨rfl, .inr heq⟩

theorem sameFront_nil {n : Nat} {v r : List UInt8} (hlen : v.length = n + 1) (hv : 0 ∉ v) :
    sameFront (n + 1) [] (v ++ r) = false := by
  obtain ⟨b, v, rfl⟩ := List.exists_cons_of_length_eq_add_one hlen
  have hb := (not_or.mp (List.mem_cons.not.mp hv)).1
  simp [sameFront, hb]

theorem countSame_spec (len : Nat) (same : Nat → Bool) :
    (∀ k < countSame len same, BYTES4CHAR * k < len ∧ same (BYTES4CHAR * k) = true) ∧
      (BYTES4CHAR * countSame len same < len →
        same (BYTES4CHAR * countSame len same) = false) := by
  constructor
  · intro k hk
    have hturn := List.not_of_lt_findIdx hk
    rw [List.getElem_range, Bool.not_eq_false', Bool.and_eq_true, decide_eq_true_iff] at hturn
    exact hturn
  · intro hlt
    have hidx : countSame len same < (List.range len).length := by
      rw [List.length_range]
      exact lt_of_le_of_lt (Nat.le_mul_of_pos_left _ byte_pos) hlt
    obtain ⟨hturn, -⟩ := (List.findIdx_eq hidx).mp rfl
    rw [List.getElem_range, decide_eq_true hlt, Bool.true_and, Bool.not_eq_true'] at hturn
    exact hturn

/-! ## Turns and characters -/

namespace CharText

variable (t : CharText)

theorem length_char {c : List UInt8} (h : c ∈ t.chars) : c.length = BYTES4CHAR := (t.complete c h).1

theorem strlen_eq : t.strlen = BYTES4CHAR * t.chars.length :=
  length_flatten_chars fun _ h => t.length_char h

theorem turn_lt_iff {k : Nat} : BYTES4CHAR * k < t.strlen ↔ k < t.chars.length := by
  rw [strlen_eq, Nat.mul_lt_mul_left byte_pos]

theorem drop_bytes (k : Nat) : t.bytes.drop (BYTES4CHAR * k) = (t.chars.drop k).flatten :=
  drop_flatten_chars (fun _ h => t.length_char h) k

/-- The text from a character on. -/
theorem drop_bytes_char {k : Nat} {v : List UInt8} (h : t.chars[k]? = some v) :
    t.bytes.drop (BYTES4CHAR * k) = v ++ (t.chars.drop (k + 1)).flatten := by
  obtain ⟨hk, rfl⟩ := List.getElem?_eq_some_iff.mp h
  rw [drop_bytes, List.drop_eq_getElem_cons hk, List.flatten_cons]

/-- The text from a character on, counted from the end. -/
theorem textFrom_char (before : Nat → UInt8) {k : Nat} {v : List UInt8}
    (h : t.chars.reverse[k]? = some v) :
    ∃ r, t.textFrom before (t.strlen - (BYTES4CHAR * k : Nat) - BYTES4CHAR) = v ++ r := by
  obtain ⟨hk, -⟩ := List.getElem?_eq_some_iff.mp h
  rw [List.length_reverse] at hk
  have hoffset : (t.strlen : Int) - (BYTES4CHAR * k : Nat) - BYTES4CHAR =
      (BYTES4CHAR * (t.chars.length - 1 - k) : Nat) := by
    rw [strlen_eq]
    simp only [BYTES4CHAR]
    omega
  rw [List.getElem?_reverse hk] at h
  refine ⟨(t.chars.drop (t.chars.length - 1 - k + 1)).flatten, ?_⟩
  rw [textFrom, hoffset, if_pos (Int.natCast_nonneg _), Int.toNat_natCast]
  exact t.drop_bytes_char h

end CharText

/-- Two characters are compared. -/
theorem sameFront_char {u v r r' : List UInt8} (hu : u.length = BYTES4CHAR)
    (hv : v.length = BYTES4CHAR ∧ 0 ∉ v) :
    sameFront BYTES4CHAR (u ++ r) (v ++ r') = true ↔ u = v := by
  rw [← hv.1]
  exact sameFront_append (hu.trans hv.1.symm) hv.2

namespace ComparePair

variable {c : ComparePair}

theorem sameForward_iff {k : Nat} (hk : k < c.anaphor.chars.length) :
    sameFront BYTES4CHAR (c.antecedent.bytes.drop (BYTES4CHAR * k))
        (c.anaphor.bytes.drop (BYTES4CHAR * k)) = true ↔
      AgreeAt c.anaphor.chars c.antecedent.chars k := by
  have hv := List.getElem?_eq_getElem hk
  have hvmem := c.anaphor.complete _ (List.getElem_mem hk)
  rw [c.anaphor.drop_bytes_char hv]
  cases hu : c.antecedent.chars[k]? with
  | none =>
      rw [c.antecedent.drop_bytes, List.drop_eq_nil_of_le (List.getElem?_eq_none_iff.mp hu),
        List.flatten_nil]
      refine iff_of_false ?_ ?_
      · rw [show BYTES4CHAR = 2 + 1 from rfl, sameFront_nil hvmem.1 hvmem.2]
        exact Bool.false_ne_true
      · rintro ⟨a, -, ha⟩
        rw [hu] at ha
        cases ha
  | some u =>
      have hulen := c.antecedent.length_char (List.mem_of_getElem? hu)
      rw [c.antecedent.drop_bytes_char hu, sameFront_char hulen hvmem, AgreeAt, hv, hu]
      simp [eq_comm]

/-- In the second loop, as long as it stays inside the antecedent. -/
theorem sameBackward_iff {k : Nat} (hk : k < c.anaphor.chars.length)
    (hk' : k < c.antecedent.chars.length) :
    sameFront BYTES4CHAR
        (c.antecedent.textFrom c.beforeAntecedent (c.antecedentOffset (BYTES4CHAR * k)))
        (c.anaphor.textFrom c.beforeAnaphor (c.anaphorOffset (BYTES4CHAR * k))) = true ↔
      AgreeAt c.anaphor.chars.reverse c.antecedent.chars.reverse k := by
  have hv := List.getElem?_eq_getElem (show k < c.anaphor.chars.reverse.length by simpa using hk)
  have hu :=
    List.getElem?_eq_getElem (show k < c.antecedent.chars.reverse.length by simpa using hk')
  obtain ⟨r, hr⟩ := c.antecedent.textFrom_char c.beforeAntecedent hu
  obtain ⟨r', hr'⟩ := c.anaphor.textFrom_char c.beforeAnaphor hv
  have hvmem := c.anaphor.complete _ (List.mem_reverse.mp (List.mem_of_getElem? hv))
  have hulen := c.antecedent.length_char (List.mem_reverse.mp (List.mem_of_getElem? hu))
  rw [antecedentOffset, anaphorOffset, hr, hr', sameFront_char hulen hvmem, AgreeAt, hv, hu]
  simp [eq_comm]

theorem left_eq : c.left = commonLength c.anaphor.chars c.antecedent.chars := by
  obtain ⟨hturns, hlast⟩ := countSame_spec c.anaphor.strlen fun i =>
    sameFront BYTES4CHAR (c.antecedent.bytes.drop i) (c.anaphor.bytes.drop i)
  refine eq_commonLength ?_ ?_
  · intro k hk
    obtain ⟨hlt, hsame⟩ := hturns k hk
    exact (sameForward_iff (c.anaphor.turn_lt_iff.mp hlt)).mp hsame
  · intro hagree
    have hlt : c.left < c.anaphor.chars.length := by
      obtain ⟨a, ha, -⟩ := hagree
      exact (List.getElem?_eq_some_iff.mp ha).1
    have hdiff := hlast (c.anaphor.turn_lt_iff.mpr hlt)
    rw [← Bool.not_eq_true] at hdiff
    exact hdiff ((sameForward_iff hlt).mpr hagree)

/-- Where the second loop stays inside the antecedent, it counts the suffix. -/
theorem right_eq (h : ∀ k ≤ c.right, k < c.anaphor.chars.length → k < c.antecedent.chars.length) :
    c.right = commonLengthRev c.anaphor.chars c.antecedent.chars := by
  obtain ⟨hturns, hlast⟩ := countSame_spec c.anaphor.strlen fun j =>
    sameFront BYTES4CHAR (c.antecedent.textFrom c.beforeAntecedent (c.antecedentOffset j))
      (c.anaphor.textFrom c.beforeAnaphor (c.anaphorOffset j))
  refine eq_commonLength ?_ ?_
  · intro k hk
    obtain ⟨hlt, hsame⟩ := hturns k hk
    have hk' := c.anaphor.turn_lt_iff.mp hlt
    exact (sameBackward_iff hk' (h k (le_of_lt hk) hk')).mp hsame
  · intro hagree
    have hlt : c.right < c.anaphor.chars.length := by
      obtain ⟨a, ha, -⟩ := hagree
      simpa using (List.getElem?_eq_some_iff.mp ha).1
    have hdiff := hlast (c.anaphor.turn_lt_iff.mpr hlt)
    rw [← Bool.not_eq_true] at hdiff
    exact hdiff ((sameBackward_iff hlt (h c.right le_rfl hlt)).mpr hagree)

theorem antecedentOffset_nonneg_iff {k : Nat} :
    0 ≤ c.antecedentOffset (BYTES4CHAR * k) ↔ k < c.antecedent.chars.length := by
  rw [antecedentOffset, CharText.strlen_eq]
  simp only [BYTES4CHAR]
  omega

theorem anaphorOffset_nonneg_iff {k : Nat} :
    0 ≤ c.anaphorOffset (BYTES4CHAR * k) ↔ k < c.anaphor.chars.length := by
  rw [anaphorOffset, CharText.strlen_eq]
  simp only [BYTES4CHAR]
  omega

theorem readsInside_iff_turns :
    c.ReadsInside ↔
      ∀ k ≤ c.right, k < c.anaphor.chars.length → k < c.antecedent.chars.length := by
  constructor
  · intro h k hk hlt
    exact antecedentOffset_nonneg_iff.mp (h.backward k hk (c.anaphor.turn_lt_iff.mpr hlt)).1
  · intro h
    refine ⟨?_, ?_⟩
    · intro k hk _
      rw [left_eq] at hk
      rw [CharText.strlen_eq]
      exact Nat.mul_le_mul_left _ (hk.trans (commonLength_le_right _ _))
    · intro k hk hlt
      have hk' := c.anaphor.turn_lt_iff.mp hlt
      exact ⟨antecedentOffset_nonneg_iff.mpr (h k hk hk'), anaphorOffset_nonneg_iff.mpr hk'⟩

/-- The second loop leaves the antecedent just if all of it is at the end of a longer anaphor. -/
theorem readsInside_iff :
    c.ReadsInside ↔
      (c.antecedent.chars <:+ c.anaphor.chars → c.antecedent.chars = c.anaphor.chars) := by
  rw [readsInside_iff_turns]
  constructor
  · intro h hsuffix
    by_contra hne
    have hlt : c.antecedent.chars.length < c.anaphor.chars.length :=
      lt_of_le_of_ne hsuffix.length_le fun hlen => hne (hsuffix.eq_of_length hlen)
    have hright : c.right = c.antecedent.chars.length := by
      rw [right_eq h, commonLengthRev, commonLength_comm]
      exact commonLengthRev_eq_length_iff.mpr hsuffix
    have hinside := h c.right le_rfl (by omega)
    omega
  · intro h k hk hlt
    by_contra hge
    have hall : ∀ i < c.antecedent.chars.length,
        AgreeAt c.antecedent.chars.reverse c.anaphor.chars.reverse i := by
      intro i hi
      obtain ⟨hturns, -⟩ := countSame_spec c.anaphor.strlen fun j =>
        sameFront BYTES4CHAR (c.antecedent.textFrom c.beforeAntecedent (c.antecedentOffset j))
          (c.anaphor.textFrom c.beforeAnaphor (c.anaphorOffset j))
      have hsame := (hturns i (show i < c.right by omega)).2
      obtain ⟨a, ha, ha'⟩ := (sameBackward_iff (by omega) hi).mp hsame
      exact ⟨a, ha', ha⟩
    have hlen : commonLengthRev c.antecedent.chars c.anaphor.chars = c.antecedent.chars.length :=
      Nat.le_antisymm (commonLengthRev_le _ _) (le_commonLength hall)
    have heq := congrArg List.length (h (commonLengthRev_eq_length_iff.mp hlen))
    omega

theorem right_eq_of_inside (h : c.ReadsInside) :
    c.right = commonLengthRev c.anaphor.chars c.antecedent.chars :=
  right_eq (readsInside_iff_turns.mp h)

/-! ## What is left -/

theorem common_take_drop :
    c.Common (c.anaphor.chars.take (commonLength c.anaphor.chars c.antecedent.chars))
      (c.anaphor.chars.drop (c.anaphor.chars.length -
        commonLengthRev c.anaphor.chars c.antecedent.chars)) :=
  ⟨isGreatestPrefix_take _ _, isGreatestSuffix_drop _ _⟩

theorem Common.length_eq {p s : List (List UInt8)} (h : c.Common p s) :
    p.length = commonLength c.anaphor.chars c.antecedent.chars ∧
      s.length = commonLengthRev c.anaphor.chars c.antecedent.chars := by
  have hp := h.isPrefix.unique common_take_drop.isPrefix
  have hs := h.isSuffix.unique common_take_drop.isSuffix
  have hle := commonLength_le c.anaphor.chars c.antecedent.chars
  have hle' := commonLengthRev_le c.anaphor.chars c.antecedent.chars
  rw [hp, hs, List.length_take, List.length_drop]
  omega

theorem countsReading_iff (h : c.ReadsInside) :
    c.CountsReading ↔ c.commonChars ≤ c.anaphor.chars.length ∧
      c.commonChars ≤ c.antecedent.chars.length := by
  constructor
  · rintro ⟨p, s, hcommon, -, -, hana, hant⟩
    obtain ⟨hp, hs⟩ := hcommon.length_eq
    rw [commonChars, ← hp, ← hs]
    exact ⟨hana, hant⟩
  · rintro ⟨hana, hant⟩
    obtain ⟨hp, hs⟩ := (common_take_drop (c := c)).length_eq
    refine ⟨_, _, common_take_drop, ?_, ?_, ?_, ?_⟩
    · rw [hp, left_eq]
    · rw [hs, right_eq_of_inside h]
    · rw [hp, hs]
      exact hana
    · rw [hp, hs]
      exact hant

end ComparePair

/-- A list in three parts. -/
theorem split_three {α : Type} (xs : List α) {l r : Nat} (h : l + r ≤ xs.length) :
    xs = xs.take l ++ (xs.drop l).take (xs.length - l - r) ++ xs.drop (xs.length - r) := by
  have hdrop : (xs.drop l).drop (xs.length - l - r) = xs.drop (xs.length - r) := by
    rw [List.drop_drop]
    congr 1
    omega
  rw [List.append_assoc, ← hdrop, List.take_append_drop, List.take_append_drop]

namespace CharText

variable (t : CharText)

/-- The bytes between a prefix and a suffix of whole characters. -/
theorem bytes_between {l r : Nat} :
    (t.bytes.drop (BYTES4CHAR * l)).take (t.strlen - BYTES4CHAR * l - BYTES4CHAR * r) =
      ((t.chars.drop l).take (t.chars.length - l - r)).flatten := by
  have hlen : t.strlen - BYTES4CHAR * l - BYTES4CHAR * r =
      BYTES4CHAR * (t.chars.length - l - r) := by
    rw [strlen_eq, Nat.mul_sub, Nat.mul_sub]
  rw [drop_bytes, hlen]
  exact take_flatten_chars (fun _ h => t.length_char (List.mem_of_mem_drop h)) _

theorem bytes_split {l r : Nat} (h : l + r ≤ t.chars.length) :
    t.bytes = (t.chars.take l).flatten ++
        (t.bytes.drop (BYTES4CHAR * l)).take (t.strlen - BYTES4CHAR * l - BYTES4CHAR * r) ++
      (t.chars.drop (t.chars.length - r)).flatten := by
  rw [bytes_between, ← List.flatten_append, ← List.flatten_append, ← split_three t.chars h]
  rfl

end CharText

namespace ComparePair

variable {c : ComparePair}

theorem restLength_eq {i j : Nat} (h : i + j ≤ c.antecedent.strlen) :
    c.restLength i j = c.antecedent.strlen - i - j := by
  have hfits : c.antecedent.strlen < 2 ^ 64 := c.antecedent.fits
  rw [restLength]
  omega

theorem lookupPair_eq_some {a b : List UInt8} (h : c.lookupPair = some (a, b)) :
    BYTES4CHAR * c.left + BYTES4CHAR * c.right ≤ c.anaphor.strlen ∧
      a = (c.anaphor.bytes.drop (BYTES4CHAR * c.left)).take
        (c.anaphor.strlen - BYTES4CHAR * c.left - BYTES4CHAR * c.right) ∧
      b = (c.antecedent.bytes.drop (BYTES4CHAR * c.left)).take
        (c.restLength (BYTES4CHAR * c.left) (BYTES4CHAR * c.right)) := by
  rw [lookupPair] at h
  split at h
  next => cases h
  next =>
    dsimp only at h
    split at h
    next => cases h
    next hle =>
      obtain ⟨rfl, rfl⟩ := Prod.mk.inj (Option.some.inj h)
      exact ⟨not_lt.mp hle, rfl, rfl⟩

theorem lookupPair_isSome (hne : c.antecedent.bytes ≠ c.anaphor.bytes)
    (hle : BYTES4CHAR * c.left + BYTES4CHAR * c.right ≤ c.anaphor.strlen) :
    ∃ a b, c.lookupPair = some (a, b) := by
  rw [lookupPair, if_neg hne]
  dsimp only
  rw [if_neg (not_lt.mpr hle)]
  exact ⟨_, _, rfl⟩

theorem stripped_le_iff (h : c.ReadsInside) (t : CharText) :
    BYTES4CHAR * c.left + BYTES4CHAR * c.right ≤ t.strlen ↔ c.commonChars ≤ t.chars.length := by
  rw [left_eq, right_eq_of_inside h, CharText.strlen_eq, ← Nat.mul_add, commonChars,
    Nat.mul_le_mul_left_iff byte_pos]

theorem length_flatten_of_prefix {t : CharText} {p : List (List UInt8)} (h : p <+: t.chars) :
    p.flatten.length = BYTES4CHAR * p.length :=
  length_flatten_chars fun _ hmem => t.length_char (h.subset hmem)

theorem length_flatten_of_suffix {t : CharText} {s : List (List UInt8)} (h : s <:+ t.chars) :
    s.flatten.length = BYTES4CHAR * s.length :=
  length_flatten_chars fun _ hmem => t.length_char (h.subset hmem)

/-- The pair is right just if the antecedent is long enough whenever the anaphor is. -/
theorem stripsPair_iff (h : c.ReadsInside) :
    c.StripsPair ↔ (c.commonChars ≤ c.anaphor.chars.length →
      c.commonChars ≤ c.antecedent.chars.length) := by
  constructor
  · intro hstrips hana
    by_contra hant
    have hne : c.antecedent.bytes ≠ c.anaphor.bytes := by
      intro heq
      have hlen : c.antecedent.strlen = c.anaphor.strlen := congrArg List.length heq
      rw [CharText.strlen_eq, CharText.strlen_eq] at hlen
      have hchars := Nat.eq_of_mul_eq_mul_left byte_pos hlen
      omega
    obtain ⟨a, b, hpair⟩ := lookupPair_isSome hne ((stripped_le_iff h c.anaphor).mpr hana)
    obtain ⟨p, s, hcommon, -, hbytes⟩ := hstrips a b hpair
    obtain ⟨hp, hs⟩ := hcommon.length_eq
    have hlen : c.antecedent.strlen = (p.flatten ++ b ++ s.flatten).length :=
      congrArg List.length hbytes
    rw [List.length_append, List.length_append, length_flatten_of_prefix hcommon.isPrefix.left,
      length_flatten_of_suffix hcommon.isSuffix.left, CharText.strlen_eq] at hlen
    rw [commonChars, ← hp, ← hs] at hant
    simp only [BYTES4CHAR] at hlen
    omega
  · intro himp a b hpair
    obtain ⟨hle, rfl, rfl⟩ := lookupPair_eq_some hpair
    have hana := (stripped_le_iff h c.anaphor).mp hle
    have hant := himp hana
    rw [restLength_eq ((stripped_le_iff h c.antecedent).mpr hant), left_eq, right_eq_of_inside h]
    refine ⟨_, _, common_take_drop, c.anaphor.bytes_split hana, ?_⟩
    rw [take_commonLength, drop_commonLengthRev]
    exact c.antecedent.bytes_split hant

/-- **When the two loops do what they are for.** -/
theorem stripLaw_iff (c : ComparePair) : c.StripLaw ↔ c.NoOverlap := by
  constructor
  · intro h
    obtain ⟨hana, hant⟩ := (countsReading_iff h.inside).mp h.reading
    exact ⟨readsInside_iff.mp h.inside, hana, hant⟩
  · intro h
    have hinside := readsInside_iff.mpr h.notSuffix
    exact ⟨hinside, (stripsPair_iff hinside).mpr fun _ => h.antecedent,
      (countsReading_iff hinside).mpr ⟨h.anaphor, h.antecedent⟩⟩

/-- 公文書公開 and 公開 -/
def disclosure : ComparePair where
  antecedent := ⟨[utf8 "公", utf8 "開"], by decide, by decide⟩
  anaphor := ⟨[utf8 "公", utf8 "文", utf8 "書", utf8 "公", utf8 "開"], by decide, by decide⟩
  beforeAntecedent := fun _ => 0
  beforeAnaphor := fun _ => 0

theorem disclosure_reads_before : ¬disclosure.StripLaw := by
  intro h
  have hinside := (h.inside.backward 2 (by decide) (by decide)).1
  revert hinside
  decide

end ComparePair

end Knp
