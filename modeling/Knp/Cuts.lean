import Knp.Segments
import Mathlib.Logic.Function.Basic

/-!
# Segments cut from the front

One goes through a row and cuts it into segments: an element opens a segment or
belongs to the last one. A segment knows where it begins and how long it is
(`Tiles`), and the elements are labelled as in `Numbered` (`Cut`). How far an
element is from the end of its segment is written backwards, when the segment is
over (`setInum`, `Counted`).
-/

namespace Segments

/-! ## Segments side by side -/

/-- `count` segments from segment `first` on lie side by side from `lo` to `hi`. -/
structure Tiles (ptr len : Nat → Nat) (first count lo hi : Nat) : Prop where
  pos : ∀ t, first ≤ t → t < first + count → 0 < len t
  begins : 0 < count → ptr first = lo
  next : ∀ t, first ≤ t → t + 1 < first + count → ptr (t + 1) = ptr t + len t
  ends : ∀ t, first ≤ t → t + 1 = first + count → ptr t + len t = hi
  empty : count = 0 → lo = hi

namespace Tiles

variable {ptr len : Nat → Nat} {first count lo hi t u j : Nat}

theorem init (h : Tiles ptr len first (count + 1) lo hi) :
    Tiles ptr len first count lo (ptr (first + count)) where
  pos := by
    intro t ht hlt
    exact h.pos t ht (by omega)
  begins := by
    intro _
    exact h.begins (Nat.succ_pos count)
  next := by
    intro t ht hlt
    exact h.next t ht (by omega)
  ends := by
    intro t ht hlast
    rw [show first + count = t + 1 by omega]
    exact (h.next t ht (by omega)).symm
  empty := by
    rintro rfl
    exact (h.begins Nat.one_pos).symm

/-- A later segment begins after the end of an earlier one. -/
theorem stop_le (h : Tiles ptr len first count lo hi) (ht : first ≤ t) (htu : t < u)
    (hu : u < first + count) : ptr t + len t ≤ ptr u := by
  induction u, htu using Nat.le_induction with
  | base => exact (h.next t ht hu).ge
  | succ u htu ih =>
      have hle := ih (by omega)
      have hnext := h.next u (by omega) hu
      omega

theorem stop_le_hi (h : Tiles ptr len first count lo hi) (ht : first ≤ t)
    (hlt : t < first + count) : ptr t + len t ≤ hi := by
  obtain ⟨c, rfl⟩ : ∃ c, count = c + 1 := ⟨count - 1, by omega⟩
  have hends := h.ends (first + c) (by omega) (by omega)
  rcases Nat.lt_or_ge t (first + c) with hlt' | hge
  · have hle := h.stop_le ht hlt' (by omega)
    omega
  · obtain rfl : t = first + c := by omega
    exact hends.le

/-- Every place between the ends lies in a segment. -/
theorem exists_segment (h : Tiles ptr len first count lo hi) (hlo : lo ≤ j) (hhi : j < hi) :
    ∃ t, first ≤ t ∧ t < first + count ∧ ptr t ≤ j ∧ j < ptr t + len t := by
  induction count generalizing hi with
  | zero =>
      have heq := h.empty rfl
      omega
  | succ count ih =>
      by_cases hj : j < ptr (first + count)
      · obtain ⟨t, ht, hlt, hmem⟩ := ih h.init hj
        exact ⟨t, ht, by omega, hmem⟩
      · have hends := h.ends (first + count) (by omega) (by omega)
        exact ⟨first + count, by omega, by omega, by omega, by omega⟩

end Tiles

/-! ## Labelled segments -/

/-- A row of `n` elements in `count` segments: the first element of a segment
carries the number of the segment, the others carry -1. -/
structure Cut (label : Nat → Int) (ptr len : Nat → Nat) (n count : Nat) : Prop
    extends Tiles ptr len 0 count 0 n where
  label_ptr : ∀ t < count, label (ptr t) = t
  label_inside : ∀ t < count, ∀ j, ptr t < j → j < ptr t + len t → label j = -1

section Cut

variable {label label' : Nat → Int} {ptr ptr' len len' : Nat → Nat} {n count t j : Nat}

theorem Cut.nil : Cut label ptr len 0 0 where
  pos := by
    intro t _ ht
    omega
  begins := by
    intro hpos
    omega
  next := by
    intro t _ ht
    omega
  ends := by
    intro t _ ht
    omega
  empty := fun _ => rfl
  label_ptr := by
    intro t ht
    omega
  label_inside := by
    intro t ht
    omega

/-- An element opens a segment. -/
theorem Cut.cut_open (h : Cut label ptr len n count) (hlabel : ∀ j < n, label' j = label j)
    (hptr : ∀ t < count, ptr' t = ptr t) (hlen : ∀ t < count, len' t = len t)
    (hnew : label' n = count) (hptr' : ptr' count = n) (hlen' : len' count = 1) :
    Cut label' ptr' len' (n + 1) (count + 1) where
  pos := by
    intro t _ ht
    rcases Nat.lt_succ_iff_lt_or_eq.mp (show t < count + 1 by omega) with hlt | rfl
    · rw [hlen t hlt]
      exact h.pos t (Nat.zero_le t) (by omega)
    · omega
  begins := by
    intro _
    rcases Nat.eq_zero_or_pos count with rfl | hpos
    · exact hptr'.trans (h.empty rfl).symm
    · rw [hptr 0 hpos]
      exact h.begins hpos
  next := by
    intro t _ ht
    rw [hptr t (by omega), hlen t (by omega)]
    rcases Nat.lt_or_ge (t + 1) count with hlt | hge
    · rw [hptr (t + 1) hlt]
      exact h.next t (Nat.zero_le t) (by omega)
    · rw [show t + 1 = count by omega, hptr']
      exact (h.ends t (Nat.zero_le t) (by omega)).symm
  ends := by
    intro t _ ht
    obtain rfl : t = count := by omega
    omega
  empty := by
    intro hzero
    omega
  label_ptr := by
    intro t ht
    rcases Nat.lt_succ_iff_lt_or_eq.mp ht with hlt | rfl
    · have hstop := h.stop_le_hi (Nat.zero_le t) (by omega)
      have hpos := h.pos t (Nat.zero_le t) (by omega)
      rw [hptr t hlt, hlabel _ (by omega)]
      exact h.label_ptr t hlt
    · rw [hptr', hnew]
  label_inside := by
    intro t ht j hlo hhi
    rcases Nat.lt_succ_iff_lt_or_eq.mp ht with hlt | rfl
    · have hstop := h.stop_le_hi (Nat.zero_le t) (by omega)
      rw [hptr t hlt] at hlo hhi
      rw [hlen t hlt] at hhi
      rw [hlabel j (by omega)]
      exact h.label_inside t hlt j hlo hhi
    · omega

/-- An element belongs to the last segment. -/
theorem Cut.cut_extend (h : Cut label ptr len n (count + 1))
    (hlabel : ∀ j < n, label' j = label j) (hptr : ∀ t < count + 1, ptr' t = ptr t)
    (hlen : ∀ t < count, len' t = len t) (hnew : label' n = -1)
    (hlen' : len' count = len count + 1) : Cut label' ptr' len' (n + 1) (count + 1) where
  pos := by
    intro t _ ht
    rcases Nat.lt_succ_iff_lt_or_eq.mp (show t < count + 1 by omega) with hlt | rfl
    · rw [hlen t hlt]
      exact h.pos t (Nat.zero_le t) (by omega)
    · omega
  begins := by
    intro hpos
    rw [hptr 0 hpos]
    exact h.begins hpos
  next := by
    intro t _ ht
    rw [hptr (t + 1) (by omega), hptr t (by omega), hlen t (by omega)]
    exact h.next t (Nat.zero_le t) ht
  ends := by
    intro t _ ht
    obtain rfl : t = count := by omega
    have hends := h.ends t (Nat.zero_le t) ht
    rw [hptr t (by omega)]
    omega
  empty := by
    intro hzero
    omega
  label_ptr := by
    intro t ht
    have hstop := h.stop_le_hi (Nat.zero_le t) (by omega)
    have hpos := h.pos t (Nat.zero_le t) (by omega)
    rw [hptr t ht, hlabel _ (by omega)]
    exact h.label_ptr t ht
  label_inside := by
    intro t ht j hlo hhi
    have hstop := h.stop_le_hi (Nat.zero_le t) (by omega)
    rw [hptr t ht] at hlo hhi
    rcases Nat.lt_succ_iff_lt_or_eq.mp ht with hlt | rfl
    · rw [hlen t hlt] at hhi
      rw [hlabel j (by omega)]
      exact h.label_inside t ht j hlo hhi
    · have hends := h.ends t (Nat.zero_le t) (by omega)
      rcases Nat.lt_or_ge j n with hj | hj
      · rw [hlabel j hj]
        exact h.label_inside t ht j hlo (by omega)
      · rw [show j = n by omega, hnew]

/-- Only the elements of the row and the segments that are open matter. -/
theorem Cut.congr (h : Cut label ptr len n count) (hlabel : ∀ j < n, label' j = label j)
    (hptr : ∀ t < count, ptr' t = ptr t) (hlen : ∀ t < count, len' t = len t) :
    Cut label' ptr' len' n count where
  pos := by
    intro t ht hlt
    rw [hlen t (by omega)]
    exact h.pos t ht hlt
  begins := by
    intro hpos
    rw [hptr 0 hpos]
    exact h.begins hpos
  next := by
    intro t ht hlt
    rw [hptr (t + 1) (by omega), hptr t (by omega), hlen t (by omega)]
    exact h.next t ht hlt
  ends := by
    intro t ht hlast
    rw [hptr t (by omega), hlen t (by omega)]
    exact h.ends t ht hlast
  empty := h.empty
  label_ptr := by
    intro t ht
    have hstop := h.stop_le_hi (Nat.zero_le t) (by omega)
    have hpos := h.pos t (Nat.zero_le t) (by omega)
    rw [hptr t ht, hlabel _ (by omega)]
    exact h.label_ptr t ht
  label_inside := by
    intro t ht j hlo hhi
    have hstop := h.stop_le_hi (Nat.zero_le t) (by omega)
    rw [hptr t ht] at hlo hhi
    rw [hlen t ht] at hhi
    rw [hlabel j (by omega)]
    exact h.label_inside t ht j hlo hhi

/-- A segment begins where its label is. -/
theorem Cut.label_eq_iff (h : Cut label ptr len n count) (ht : t < count) (hj : j < n) :
    label j = t ↔ ptr t = j := by
  constructor
  · intro hlabel
    obtain ⟨u, -, hu, hlo, hhi⟩ := h.exists_segment (Nat.zero_le j) hj
    rcases hlo.eq_or_lt with heq | hlt
    · rw [← heq, h.label_ptr u (by omega)] at hlabel
      rw [← Int.natCast_inj.mp hlabel, heq]
    · have hneg := h.label_inside u (by omega) j hlt hhi
      omega
  · rintro rfl
    exact h.label_ptr t ht

/-- A label that is not negative is at the front of a segment. -/
theorem Cut.nonneg_iff (h : Cut label ptr len n count) (hj : j < n) :
    0 ≤ label j ↔ ∃ t < count, ptr t = j := by
  constructor
  · intro hnonneg
    obtain ⟨t, -, ht, hlo, hhi⟩ := h.exists_segment (Nat.zero_le j) hj
    refine ⟨t, by omega, ?_⟩
    by_contra hne
    have hneg := h.label_inside t (by omega) j (by omega) hhi
    omega
  · rintro ⟨t, ht, rfl⟩
    rw [h.label_ptr t ht]
    exact Int.natCast_nonneg t

/-- An element lies in the segment that is its owner, and in no other. -/
theorem Cut.owner_iff (h : Cut label ptr len n count) {owner : Nat → Nat}
    (howner : ∀ t < count, ∀ j, ptr t ≤ j → j < ptr t + len t → owner j = t) (ht : t < count)
    (hj : j < n) : owner j = t ↔ ptr t ≤ j ∧ j < ptr t + len t := by
  constructor
  · intro heq
    obtain ⟨u, -, hu, hlo, hhi⟩ := h.exists_segment (Nat.zero_le j) hj
    rw [howner u (by omega) j hlo hhi] at heq
    rw [← heq]
    exact ⟨hlo, hhi⟩
  · rintro ⟨hlo, hhi⟩
    exact howner t ht j hlo hhi

theorem Cut.number_eq (h : Cut label ptr len n count) (ht : t < count) (hlo : ptr t ≤ j)
    (hhi : j < ptr t + len t) : number label j = t := by
  induction j, hlo using Nat.le_induction with
  | base =>
      have hlabel := h.label_ptr t ht
      rw [number_of_nonneg label (by omega), hlabel, Int.toNat_natCast]
  | succ j hlo ih =>
      rw [number_succ_of_neg (h.label_inside t ht (j + 1) (by omega) hhi)]
      exact ih (by omega)

/-- The segment of an element is the one whose bounds it lies in. -/
theorem Cut.number_eq_iff (h : Cut label ptr len n count) (ht : t < count) (hj : j < n) :
    number label j = t ↔ ptr t ≤ j ∧ j < ptr t + len t :=
  h.owner_iff (fun _ hu _ hlo hhi => h.number_eq hu hlo hhi) ht hj

theorem Cut.numbered (h : Cut label ptr len n count) (hn : 0 < n) : Numbered label n count := by
  have hcount : 0 < count := by
    by_contra hzero
    have := h.empty (by omega)
    omega
  have hlast := h.ends (count - 1) (Nat.zero_le _) (by omega)
  have hlen := h.pos (count - 1) (Nat.zero_le _) (by omega)
  constructor
  case pos => exact hn
  case zero =>
    have hzero := h.label_ptr 0 hcount
    rwa [h.begins hcount] at hzero
  case step =>
    intro j hj
    obtain ⟨t, -, ht, hlo, hhi⟩ := h.exists_segment (Nat.zero_le (j + 1)) hj
    rcases hlo.eq_or_lt with heq | hlt
    · -- a segment begins after `j`, which is the end of the one before
      obtain ⟨u, rfl⟩ : ∃ u, t = u + 1 := by
        refine ⟨t - 1, ?_⟩
        have hzero := h.begins hcount
        have hne : t ≠ 0 := by
          rintro rfl
          omega
        omega
      have hnext := h.next u (Nat.zero_le u) ht
      have hpos := h.pos u (Nat.zero_le u) (by omega)
      rw [h.number_eq (t := u) (by omega) (by omega) (by omega), ← heq,
        h.label_ptr (u + 1) (by omega)]
      exact Or.inr (by omega)
    · exact Or.inl (h.label_inside t (by omega) (j + 1) hlt hhi)
  case last =>
    rw [h.number_eq (t := count - 1) (by omega) (by omega) (by omega)]
    omega

end Cut

/-! ## Distances to the end of a segment -/

/-- In the first `count` segments the elements are counted from the last one. -/
def Counted (inum ptr len : Nat → Nat) (count : Nat) : Prop :=
  ∀ t < count, ∀ j, ptr t ≤ j → j < ptr t + len t → inum j + (j + 1) = ptr t + len t

/-- The counter goes down by one inside a segment and is 0 before the next one. -/
theorem Counted.step {label : Nat → Int} {inum ptr len : Nat → Nat} {n count j : Nat}
    (h : Counted inum ptr len count) (hcut : Cut label ptr len n count) (hj : j + 1 < n) :
    inum j = if label (j + 1) = -1 then inum (j + 1) + 1 else 0 := by
  obtain ⟨t, -, ht, hlo, hhi⟩ := hcut.exists_segment (Nat.zero_le j) (by omega)
  have hcounted := h t (by omega) j hlo hhi
  rcases Nat.lt_or_ge (j + 1) (ptr t + len t) with hlt | hge
  · have hnext := h t (by omega) (j + 1) (by omega) hlt
    rw [if_pos (hcut.label_inside t (by omega) (j + 1) (by omega) hlt)]
    omega
  · have hend : t + 1 < count := by
      by_contra hlast
      have hends := hcut.ends t (Nat.zero_le t) (by omega)
      omega
    have hptr := hcut.next t (Nat.zero_le t) (by omega)
    have hlabel := hcut.label_ptr (t + 1) hend
    rw [show ptr (t + 1) = j + 1 by omega] at hlabel
    rw [if_neg (by omega)]
    omega

theorem Counted.last {label : Nat → Int} {inum ptr len : Nat → Nat} {n count : Nat}
    (h : Counted inum ptr len count) (hcut : Cut label ptr len n count) (hn : 0 < n) :
    inum (n - 1) = 0 := by
  obtain ⟨t, -, ht, hlo, hhi⟩ := hcut.exists_segment (Nat.zero_le (n - 1)) (by omega)
  have hcounted := h t (by omega) (n - 1) hlo hhi
  have hstop := hcut.stop_le_hi (Nat.zero_le t) (by omega)
  omega

variable {α : Type*} (label : α → Int) (put : Nat → α → α)

/-- Backwards from the element before `j`, until the front of a segment. -/
def setInum : Nat → Nat → (Nat → α) → Nat → α
  | 0, _, row => row
  | j + 1, count, row =>
      let row := Function.update row j (put count (row j))
      if 0 ≤ label (row j) then row else setInum j (count + 1) row

variable {label put}

/-- The front of the segment is the last element that is written. -/
theorem setInum_eq (hput : ∀ c x, label (put c x) = label x) {row : Nat → α} {front k : Nat}
    (c : Nat) (hfront : 0 ≤ label (row front)) (hlt : front < k)
    (hinside : ∀ j, front < j → j < k → label (row j) < 0) :
    setInum label put k c row = fun j =>
      if front ≤ j ∧ j < k then put (c + (k - 1 - j)) (row j) else row j := by
  induction k generalizing c row with
  | zero => omega
  | succ k ih =>
      have hread : label (Function.update row k (put c (row k)) k) = label (row k) := by
        rw [Function.update_self, hput]
      rw [setInum]
      rw [hread]
      rcases Nat.lt_succ_iff_lt_or_eq.mp hlt with hlt' | rfl
      · have hother : ∀ j, j < k → Function.update row k (put c (row k)) j = row j := by
          intro j hj
          exact Function.update_of_ne (by omega) _ _
        rw [if_neg (by have := hinside k hlt' (by omega); omega),
          ih (c + 1) (by rw [hother front hlt']; exact hfront) hlt' (by
            intro j hj hjk
            rw [hother j hjk]
            exact hinside j hj (by omega))]
        funext j
        rcases Nat.lt_trichotomy j k with hj | rfl | hj
        · rw [hother j hj]
          by_cases hle : front ≤ j
          · rw [if_pos ⟨hle, hj⟩, if_pos ⟨hle, by omega⟩]
            congr 1
            omega
          · rw [if_neg (by omega), if_neg (by omega)]
        · rw [if_neg (by omega), if_pos (by omega), Function.update_self]
          congr 1
          omega
        · rw [if_neg (by omega), if_neg (by omega), Function.update_of_ne (by omega)]
      · rw [if_pos hfront]
        funext j
        rcases eq_or_ne j front with rfl | hne
        · rw [Function.update_self, if_pos (by omega)]
          congr 1
          omega
        · rw [Function.update_of_ne hne, if_neg (by omega)]

/-- Nothing but the distances is written, and none from `k` on. -/
theorem setInum_same {β : Type*} (get : α → β) (hput : ∀ c x, get (put c x) = get x) (k c : Nat)
    (row : Nat → α) (j : Nat) : get (setInum label put k c row j) = get (row j) := by
  induction k generalizing c row with
  | zero => rfl
  | succ k ih =>
      have hone : get (Function.update row k (put c (row k)) j) = get (row j) := by
        rcases eq_or_ne j k with rfl | hne
        · rw [Function.update_self, hput]
        · rw [Function.update_of_ne hne]
      rw [setInum]
      split
      · exact hone
      · rw [ih, hone]

theorem setInum_of_le {k c j : Nat} (row : Nat → α) (hj : k ≤ j) :
    setInum label put k c row j = row j := by
  induction k generalizing c row with
  | zero => rfl
  | succ k ih =>
      rw [setInum]
      split
      · exact Function.update_of_ne (by omega) _ _
      · rw [ih _ (by omega), Function.update_of_ne (by omega)]

/-- When the last segment is over, its distances are written: all the segments
are counted. The elements behind `k` have theirs already. -/
theorem Counted.setInum (label : α → Int) (inum : α → Nat)
    (hput : ∀ c x, label (put c x) = label x) (hinum : ∀ c x, inum (put c x) = c) {row : Nat → α}
    {ptr len : Nat → Nat}
    {n k c count : Nat} (hcut : Cut (fun j => label (row j)) ptr len n (count + 1))
    (h : Counted (fun j => inum (row j)) ptr len count) (hk : ptr count < k) (hkc : k + c = n)
    (hbehind : ∀ j, k ≤ j → j < n → inum (row j) + (j + 1) = n) :
    Counted (fun j => inum (setInum label put k c row j)) ptr len (count + 1) := by
  have hends := hcut.ends count (Nat.zero_le count) (by omega)
  have hlabel := hcut.label_ptr count (by omega)
  have hfront : 0 ≤ label (row (ptr count)) := by
    rw [hlabel]
    exact Int.natCast_nonneg count
  have heq := setInum_eq hput c hfront hk (by
    intro j hlo hhi
    have hneg : label (row j) = -1 := hcut.label_inside count (by omega) j hlo (by omega)
    omega)
  intro t ht j hlo hhi
  rw [heq]
  dsimp only
  rcases Nat.lt_succ_iff_lt_or_eq.mp ht with hlt | rfl
  · have hstop := hcut.stop_le (Nat.zero_le t) hlt (by omega)
    rw [if_neg (by omega)]
    exact h t hlt j hlo hhi
  · by_cases hjk : j < k
    · rw [if_pos ⟨hlo, hjk⟩, hinum]
      omega
    · rw [if_neg (by omega), hends]
      exact hbehind j (by omega) (by omega)

end Segments
