import Mathlib.Data.Nat.Digits.Defs
import Mathlib.Data.List.TakeWhile
import Mathlib.Tactic.Common

/-!
# Formatted reading

`sscanf` as far as these directives go: it stops at the first one that does not
match and returns what was converted so far. `putInt` prints what `%d` reads.
Strings are lists of bytes.
-/

namespace Scanf

inductive Directive
  /-- The byte itself. -/
  | lit (c : UInt8)
  /-- White space in the format: any amount of it, also none. -/
  | space
  /-- `%s` -/
  | str
  /-- `%d` -/
  | int
  /-- `%c` -/
  | chr
  /-- `%[^c]` -/
  | until (c : UInt8)
  /-- `%*[^c]`: matched and not converted. -/
  | skipUntil (c : UInt8)

inductive Value
  | str (s : List UInt8)
  | int (n : Int)
  | chr (c : UInt8)
deriving DecidableEq

def isSpace (c : UInt8) : Bool := c = 32 || (9 ≤ c && c ≤ 13)

def isDigit (c : UInt8) : Bool := 48 ≤ c && c ≤ 57

def digit (d : Nat) : UInt8 := (48 + d).toUInt8

/-- The number of a string of digits. -/
def number (ds : List UInt8) : Nat := ds.foldl (fun n c => 10 * n + (c.toNat - 48)) 0

def scanDigits (s : List UInt8) : Option (Nat × List UInt8) :=
  if s.takeWhile isDigit = [] then none
  else some (number (s.takeWhile isDigit), s.dropWhile isDigit)

/-- The conversion of `%d`: white space, a sign, digits. -/
def scanInt (s : List UInt8) : Option (Int × List UInt8) :=
  match s.dropWhile isSpace with
  | [] => none
  | c :: s =>
      if c = 45 then (scanDigits s).map fun (n, s) => (-(n : Int), s)
      else if c = 43 then (scanDigits s).map fun (n, s) => ((n : Int), s)
      else (scanDigits (c :: s)).map fun (n, s) => ((n : Int), s)

def scan : List Directive → List UInt8 → List Value
  | [], _ => []
  | .lit c :: ds, s =>
      match s with
      | [] => []
      | c' :: s => if c' = c then scan ds s else []
  | .space :: ds, s => scan ds (s.dropWhile isSpace)
  | .str :: ds, s =>
      let s := s.dropWhile isSpace
      let w := s.takeWhile fun c => !isSpace c
      if w = [] then [] else .str w :: scan ds (s.dropWhile fun c => !isSpace c)
  | .int :: ds, s =>
      match scanInt s with
      | none => []
      | some (n, s) => .int n :: scan ds s
  | .chr :: ds, s =>
      match s with
      | [] => []
      | c :: s => .chr c :: scan ds s
  | .until c :: ds, s =>
      let w := s.takeWhile (· ≠ c)
      if w = [] then [] else .str w :: scan ds (s.dropWhile (· ≠ c))
  | .skipUntil c :: ds, s =>
      if s.takeWhile (· ≠ c) = [] then [] else scan ds (s.dropWhile (· ≠ c))

/-! ## Printing -/

/-- `%d` of a number that is not negative. -/
def putNat (n : Nat) : List UInt8 :=
  if n = 0 then [48] else (Nat.digits 10 n).reverse.map digit

def putInt (n : Int) : List UInt8 :=
  if n < 0 then 45 :: putNat n.natAbs else putNat n.natAbs

theorem isDigit_digit {d : Nat} (h : d < 10) : isDigit (digit d) = true := by
  revert d
  decide

theorem toNat_digit {d : Nat} (h : d < 10) : (digit d).toNat - 48 = d := by
  revert d
  decide

theorem putNat_ne_nil (n : Nat) : putNat n ≠ [] := by
  unfold putNat
  split_ifs with h
  · simp
  · simpa using Nat.digits_ne_nil_iff_ne_zero.mpr h

theorem isDigit_of_mem_putNat {n : Nat} {c : UInt8} (h : c ∈ putNat n) : isDigit c = true := by
  unfold putNat at h
  split_ifs at h with h0
  · rw [List.mem_singleton.mp h]
    rfl
  · obtain ⟨d, hd, rfl⟩ := List.mem_map.mp h
    exact isDigit_digit (Nat.digits_lt_base (by decide) (List.mem_reverse.mp hd))

theorem number_digits : ∀ {ds : List Nat}, (∀ d ∈ ds, d < 10) →
    number (ds.reverse.map digit) = Nat.ofDigits 10 ds
  | [], _ => rfl
  | d :: ds, h => by
      have ih := number_digits fun d' hd' => h d' (List.mem_cons_of_mem d hd')
      unfold number at ih ⊢
      rw [List.reverse_cons, List.map_append, List.foldl_append, ih, List.map_cons, List.map_nil,
        List.foldl_cons, List.foldl_nil, toNat_digit (h d List.mem_cons_self), Nat.ofDigits_cons]
      omega

theorem number_putNat (n : Nat) : number (putNat n) = n := by
  unfold putNat
  split_ifs with h
  · rw [h]
    rfl
  · rw [number_digits fun d hd => Nat.digits_lt_base (by decide) hd, Nat.ofDigits_digits]

theorem mem_putInt {n : Int} {c : UInt8} (h : c ∈ putInt n) : c = 45 ∨ isDigit c = true := by
  unfold putInt at h
  split_ifs at h
  · rcases List.mem_cons.mp h with rfl | h
    · exact .inl rfl
    · exact .inr (isDigit_of_mem_putNat h)
  · exact .inr (isDigit_of_mem_putNat h)

/-! ## What is read of what was written -/

section Read

variable {p : UInt8 → Bool} {w rest : List UInt8} {c : UInt8} {ds : List Directive} {n : Int}

theorem takeWhile_append_cons (hw : ∀ a ∈ w, p a = true) (hc : p c = false) :
    (w ++ c :: rest).takeWhile p = w := by
  rw [List.takeWhile_append_of_pos hw, List.takeWhile_cons_of_neg (by simp [hc]), List.append_nil]

theorem dropWhile_append_cons (hw : ∀ a ∈ w, p a = true) (hc : p c = false) :
    (w ++ c :: rest).dropWhile p = c :: rest := by
  rw [List.dropWhile_append_of_pos hw, List.dropWhile_cons_of_neg (by simp [hc])]

theorem scanDigits_putNat (n : Nat) (hc : isDigit c = false) :
    scanDigits (putNat n ++ c :: rest) = some (n, c :: rest) := by
  have hw := fun a (ha : a ∈ putNat n) => isDigit_of_mem_putNat ha
  rw [scanDigits, takeWhile_append_cons hw hc, dropWhile_append_cons hw hc, if_neg (putNat_ne_nil n),
    number_putNat]

theorem not_isSpace_of_isDigit (h : isDigit c = true) : isSpace c = false := by
  simp only [isDigit, isSpace, Bool.and_eq_true, decide_eq_true_eq, Bool.or_eq_false_iff,
    decide_eq_false_iff_not, Bool.and_eq_false_iff, UInt8.le_iff_toNat_le] at h ⊢
  have h48 : (48 : UInt8).toNat = 48 := rfl
  have h9 : (9 : UInt8).toNat = 9 := rfl
  have h13 : (13 : UInt8).toNat = 13 := rfl
  refine ⟨fun heq => ?_, .inr (by omega)⟩
  subst heq
  exact absurd h.1 (by decide)

/-- Without white space and a sign in front the digits are read. -/
theorem scanInt_of_isDigit (h : isDigit c = true) :
    scanInt (c :: rest) = (scanDigits (c :: rest)).map fun (n, s) => ((n : Int), s) := by
  have h45 : c ≠ 45 := fun heq => by rw [heq] at h; cases h
  have h43 : c ≠ 43 := fun heq => by rw [heq] at h; cases h
  rw [scanInt, List.dropWhile_cons_of_neg (by simp [not_isSpace_of_isDigit h])]
  simp only [h45, h43, if_false]

theorem scanInt_putNat_append (n : Nat) (s : List UInt8) :
    scanInt (putNat n ++ s) = (scanDigits (putNat n ++ s)).map fun (n, s) => ((n : Int), s) := by
  obtain ⟨a, w, hw⟩ := List.exists_cons_of_ne_nil (putNat_ne_nil n)
  have ha : isDigit a = true := isDigit_of_mem_putNat (hw ▸ List.mem_cons_self)
  rw [hw, List.cons_append]
  exact scanInt_of_isDigit ha

theorem scanInt_putInt (n : Int) (hc : isDigit c = false) :
    scanInt (putInt n ++ c :: rest) = some (n, c :: rest) := by
  unfold putInt
  split_ifs with hneg
  · have : scanInt (45 :: putNat n.natAbs ++ c :: rest) =
        (scanDigits (putNat n.natAbs ++ c :: rest)).map fun (n, s) => (-(n : Int), s) := rfl
    rw [this, scanDigits_putNat _ hc]
    simp only [Option.map_some, Option.some.injEq, Prod.mk.injEq, and_true]
    omega
  · rw [scanInt_putNat_append, scanDigits_putNat _ hc]
    simp only [Option.map_some, Option.some.injEq, Prod.mk.injEq, and_true]
    omega

/-- A number at the end of the text. -/
theorem scanInt_putNat (n : Nat) : scanInt (putNat n) = some ((n : Int), []) := by
  have hdigits : ∀ c ∈ putNat n, isDigit c = true := fun c hc => isDigit_of_mem_putNat hc
  have hscan : scanDigits (putNat n) = some (n, []) := by
    rw [scanDigits, List.takeWhile_eq_self_iff.mpr hdigits, List.dropWhile_eq_nil_iff.mpr hdigits,
      if_neg (putNat_ne_nil n), number_putNat]
  have hread := scanInt_putNat_append n []
  rw [List.append_nil, hscan] at hread
  exact hread

@[simp] theorem scan_lit (c : UInt8) (s : List UInt8) : scan (.lit c :: ds) (c :: s) = scan ds s := by
  simp [scan]

theorem scan_lits (w : List UInt8) (ds : List Directive) (t : List UInt8) :
    scan (w.map .lit ++ ds) (w ++ t) = scan ds t := by
  induction w with
  | nil => rfl
  | cons c w ih => rw [List.map_cons, List.cons_append, List.cons_append, scan_lit, ih]

theorem scan_int (n : Int) (hc : isDigit c = false) :
    scan (.int :: ds) (putInt n ++ c :: rest) = .int n :: scan ds (c :: rest) := by
  rw [scan, scanInt_putInt n hc]

theorem scan_until (hw : w ≠ []) (hc : c ∉ w) :
    scan (.until c :: ds) (w ++ c :: rest) = .str w :: scan ds (c :: rest) := by
  have hall : ∀ a ∈ w, decide (a ≠ c) = true := fun a ha =>
    decide_eq_true fun heq : a = c => hc (heq ▸ ha)
  have hc' : decide (c ≠ c) = false := by simp
  simp only [scan, takeWhile_append_cons hall hc', dropWhile_append_cons hall hc', if_neg hw]

theorem scan_until_end (hw : w ≠ []) (hc : c ∉ w) :
    scan (.until c :: ds) w = .str w :: scan ds [] := by
  have hall : ∀ a ∈ w, decide (a ≠ c) = true := fun a ha =>
    decide_eq_true fun heq : a = c => hc (heq ▸ ha)
  have htake : w.takeWhile (fun a => decide (a ≠ c)) = w := List.takeWhile_eq_self_iff.mpr hall
  have hdrop : w.dropWhile (fun a => decide (a ≠ c)) = [] := List.dropWhile_eq_nil_iff.mpr hall
  simp only [scan, htake, hdrop, if_neg hw]

/-! ## What can be read at all -/

variable {v : Value} {l : List Value} {s : List UInt8}

/-- What `%s` reads. -/
structure IsWord (w : List UInt8) : Prop where
  ne_nil : w ≠ []
  noSpace : ∀ c ∈ w, isSpace c = false

theorem scan_str_end {w : List UInt8} (h : IsWord w) : scan [.str] w = [.str w] := by
  obtain ⟨c, w', rfl⟩ := List.exists_cons_of_ne_nil h.ne_nil
  have hall : ∀ a ∈ c :: w', (!isSpace a) = true := fun a ha => by rw [h.noSpace a ha]; rfl
  have hspace : (c :: w').dropWhile isSpace = c :: w' :=
    List.dropWhile_cons_of_neg (by simp [h.noSpace c List.mem_cons_self])
  simp only [scan, hspace, List.takeWhile_eq_self_iff.mpr hall, if_neg (List.cons_ne_nil c w')]

/-- A word with white space behind it. -/
theorem scan_str {w : List UInt8} (h : IsWord w) (hc : isSpace c = true) :
    scan (.str :: ds) (w ++ c :: rest) = .str w :: scan ds (c :: rest) := by
  obtain ⟨a, w', rfl⟩ := List.exists_cons_of_ne_nil h.ne_nil
  have hall : ∀ b ∈ a :: w', (!isSpace b) = true := fun b hb => by rw [h.noSpace b hb]; rfl
  have hspace : (a :: w' ++ c :: rest).dropWhile isSpace = a :: w' ++ c :: rest :=
    List.dropWhile_cons_of_neg (by simp [h.noSpace a List.mem_cons_self])
  have hc' : (!isSpace c) = false := by rw [hc]; rfl
  simp only [scan, hspace, takeWhile_append_cons hall hc', dropWhile_append_cons hall hc',
    if_neg (List.cons_ne_nil a w')]

/-- A word and the white space behind it. -/
theorem scan_word_eq_cons (h : scan (.str :: .space :: ds) s = v :: l) :
    ∃ w s', v = .str w ∧ IsWord w ∧ l = scan ds s' := by
  simp only [scan] at h
  split_ifs at h with hw
  obtain ⟨rfl, rfl⟩ := List.cons.inj h
  refine ⟨_, _, rfl, ⟨hw, fun c hc => ?_⟩, rfl⟩
  simpa using List.mem_takeWhile_imp hc

/-- A number and the white space behind it. -/
theorem scan_number_eq_cons (h : scan (.int :: .space :: ds) s = v :: l) :
    ∃ s' : List UInt8, l = scan ds (s'.dropWhile isSpace) := by
  rw [scan] at h
  cases hs : scanInt s with
  | none => rw [hs] at h; cases h
  | some r =>
      rw [hs] at h
      obtain ⟨rfl, rfl⟩ := List.cons.inj h
      exact ⟨_, rfl⟩

theorem scan_until_eq_cons (h : scan (.until c :: ds) s = v :: l) :
    ∃ w, v = .str w ∧ w ≠ [] ∧ c ∉ w ∧ w.head? = s.head? := by
  simp only [scan] at h
  split_ifs at h with hw
  obtain ⟨rfl, rfl⟩ := List.cons.inj h
  refine ⟨_, rfl, hw, fun hmem => ?_, ?_⟩
  · have := List.mem_takeWhile_imp hmem
    simp at this
  · cases s with
    | nil => rfl
    | cons a s =>
        by_cases ha : a = c
        · simp [ha] at hw
        · simp [ha]

end Read

end Scanf
