import Mathlib.Data.List.Infix
import Mathlib.Data.List.Basic

/-!
# Common prefixes and suffixes

How far two lists agree from the front.

> The agreeing part is the greatest common prefix; that of the reversed lists is the
> greatest common suffix.

A count that is found place by place is this number just if the lists agree at all
places before it and not at it.
-/

namespace CommonAffix

variable {α : Type*}

structure IsGreatestPrefix (p x y : List α) : Prop where
  left : p <+: x
  right : p <+: y
  greatest : ∀ q, q <+: x → q <+: y → q <+: p

structure IsGreatestSuffix (s x y : List α) : Prop where
  left : s <:+ x
  right : s <:+ y
  greatest : ∀ q, q <:+ x → q <:+ y → q <:+ s

theorem IsGreatestPrefix.unique {p q x y : List α} (hp : IsGreatestPrefix p x y)
    (hq : IsGreatestPrefix q x y) : p = q := by
  have hpq := hq.greatest p hp.left hp.right
  have hqp := hp.greatest q hq.left hq.right
  exact hpq.eq_of_length_le hqp.length_le

theorem isGreatestSuffix_iff_reverse {s x y : List α} :
    IsGreatestSuffix s x y ↔ IsGreatestPrefix s.reverse x.reverse y.reverse := by
  constructor
  · intro h
    refine ⟨List.reverse_prefix.mpr h.left, List.reverse_prefix.mpr h.right, ?_⟩
    intro q hx hy
    have hq := h.greatest q.reverse (List.reverse_prefix.mp (by rwa [List.reverse_reverse]))
      (List.reverse_prefix.mp (by rwa [List.reverse_reverse]))
    rw [← List.reverse_reverse q]
    exact List.reverse_prefix.mpr hq
  · intro h
    refine ⟨List.reverse_prefix.mp h.left, List.reverse_prefix.mp h.right, ?_⟩
    intro q hx hy
    exact List.reverse_prefix.mp
      (h.greatest q.reverse (List.reverse_prefix.mpr hx) (List.reverse_prefix.mpr hy))

theorem IsGreatestSuffix.unique {s t x y : List α} (hs : IsGreatestSuffix s x y)
    (ht : IsGreatestSuffix t x y) : s = t := by
  have h := (isGreatestSuffix_iff_reverse.mp hs).unique (isGreatestSuffix_iff_reverse.mp ht)
  exact List.reverse_injective h

variable [DecidableEq α]

/-- How far the lists agree. -/
def commonLength : List α → List α → Nat
  | a :: x, b :: y => if a = b then commonLength x y + 1 else 0
  | _, _ => 0

/-- The lists have the same element at the place. -/
def AgreeAt (x y : List α) (k : Nat) : Prop := ∃ a, x[k]? = some a ∧ y[k]? = some a

theorem commonLength_comm (x y : List α) : commonLength x y = commonLength y x := by
  induction x generalizing y with
  | nil =>
      cases y with
      | nil => rfl
      | cons b y => rfl
  | cons a x ih =>
      cases y with
      | nil => rfl
      | cons b y =>
          rw [commonLength, commonLength, ih]
          exact if_congr eq_comm rfl rfl

theorem commonLength_le (x y : List α) : commonLength x y ≤ x.length := by
  induction x generalizing y with
  | nil => simp [commonLength]
  | cons a x ih =>
      cases y with
      | nil => simp [commonLength]
      | cons b y =>
          have hrest := ih y
          rw [commonLength, List.length_cons]
          split
          · omega
          · omega

theorem commonLength_le_right (x y : List α) : commonLength x y ≤ y.length :=
  commonLength_comm x y ▸ commonLength_le y x

theorem agreeAt_of_lt {x y : List α} {k : Nat} (h : k < commonLength x y) : AgreeAt x y k := by
  induction x generalizing y k with
  | nil => simp [commonLength] at h
  | cons a x ih =>
      cases y with
      | nil => simp [commonLength] at h
      | cons b y =>
          rw [commonLength] at h
          split at h
          next hab =>
            cases k with
            | zero => exact ⟨a, rfl, by rw [hab]; rfl⟩
            | succ k => simpa [AgreeAt] using ih (Nat.lt_of_succ_lt_succ h)
          next => exact absurd h (Nat.not_lt_zero k)

theorem not_agreeAt (x y : List α) : ¬AgreeAt x y (commonLength x y) := by
  induction x generalizing y with
  | nil => simp [AgreeAt]
  | cons a x ih =>
      cases y with
      | nil => simp [AgreeAt]
      | cons b y =>
          rw [commonLength]
          split
          next => simpa [AgreeAt] using ih y
          next hab => simpa [AgreeAt, eq_comm] using hab

theorem le_commonLength {x y : List α} {k : Nat} (h : ∀ c < k, AgreeAt x y c) :
    k ≤ commonLength x y := by
  by_contra hlt
  exact not_agreeAt x y (h _ (not_le.mp hlt))

theorem eq_commonLength {x y : List α} {k : Nat} (h : ∀ c < k, AgreeAt x y c)
    (hk : ¬AgreeAt x y k) : k = commonLength x y := by
  refine Nat.le_antisymm (le_commonLength h) ?_
  by_contra hlt
  exact hk (agreeAt_of_lt (not_le.mp hlt))

omit [DecidableEq α] in
theorem agreeAt_of_prefix {q x y : List α} (hx : q <+: x) (hy : q <+: y) {k : Nat}
    (hk : k < q.length) : AgreeAt x y k := by
  obtain ⟨t, rfl⟩ := hx
  obtain ⟨u, rfl⟩ := hy
  refine ⟨q[k], ?_, ?_⟩
  · rw [List.getElem?_append_left hk, List.getElem?_eq_getElem hk]
  · rw [List.getElem?_append_left hk, List.getElem?_eq_getElem hk]

theorem take_commonLength (x y : List α) :
    x.take (commonLength x y) = y.take (commonLength x y) := by
  refine List.ext_getElem? fun k => ?_
  rcases Nat.lt_or_ge k (commonLength x y) with hk | hk
  · obtain ⟨a, hx, hy⟩ := agreeAt_of_lt hk
    rw [List.getElem?_take_of_lt hk, List.getElem?_take_of_lt hk, hx, hy]
  · rw [List.getElem?_take_eq_none hk, List.getElem?_take_eq_none hk]

/-- **The agreeing part is the greatest common prefix.** -/
theorem isGreatestPrefix_take (x y : List α) :
    IsGreatestPrefix (x.take (commonLength x y)) x y := by
  refine ⟨List.take_prefix _ _, ?_, ?_⟩
  · rw [take_commonLength]
    exact List.take_prefix _ _
  · intro q hx hy
    have hle : q.length ≤ commonLength x y :=
      le_commonLength fun c hc => agreeAt_of_prefix hx hy hc
    refine List.prefix_of_prefix_length_le hx (List.take_prefix _ _) ?_
    rw [List.length_take]
    exact le_min hle hx.length_le

/-- How far the lists agree from the end. -/
def commonLengthRev (x y : List α) : Nat := commonLength x.reverse y.reverse

theorem commonLengthRev_le (x y : List α) : commonLengthRev x y ≤ x.length := by
  rw [← List.length_reverse]
  exact commonLength_le _ _

theorem drop_commonLengthRev (x y : List α) :
    x.drop (x.length - commonLengthRev x y) = y.drop (y.length - commonLengthRev x y) := by
  have htake := take_commonLength x.reverse y.reverse
  rw [List.take_reverse, List.take_reverse] at htake
  exact List.reverse_injective htake

theorem isGreatestSuffix_drop (x y : List α) :
    IsGreatestSuffix (x.drop (x.length - commonLengthRev x y)) x y := by
  rw [isGreatestSuffix_iff_reverse, List.reverse_drop]
  have hle := commonLengthRev_le x y
  have hlen : x.length - (x.length - commonLengthRev x y) = commonLengthRev x y := by omega
  rw [hlen]
  exact isGreatestPrefix_take _ _

/-- The lists agree from the end over the whole of the first one just if it is a suffix. -/
theorem commonLengthRev_eq_length_iff {x y : List α} :
    commonLengthRev x y = x.length ↔ x <:+ y := by
  constructor
  · intro h
    have hsuffix := (isGreatestSuffix_drop x y).right
    rwa [h, Nat.sub_self, List.drop_zero] at hsuffix
  · intro h
    have hx := (isGreatestSuffix_drop x y).greatest x List.suffix_rfl h
    have hlen := hx.length_le
    have hle := commonLengthRev_le x y
    rw [List.length_drop] at hlen
    omega

end CommonAffix
