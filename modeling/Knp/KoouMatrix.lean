import Knp.Koou

/-!
# The matrix of correlative expressions (`change_matrix` of `koou.c`)

The starts rewrite the matrix one after the other, in Japanese a whole row at a time, in Chinese
a column of the row at a time.

> Nothing in front of a start goes between it and its first end, and what is between them goes
> behind the last end only as another expression. The entry of an expression is left, unless
> a later start lies between.

In Japanese a start has no other head; `f_start .. f_end` are the ends of one start, and what is
between them is free.
-/

namespace Knp.Koou

open Loop Mask

/-! ## Expressions -/

/-- The columns from `i` on to `n` that match an end. -/
structure IsEnd (d : KoouData) (n i j : Nat) : Prop where
  le : i ≤ j
  lt : j < n
  ends : d.koouMatrix i j = 1

/-- `f_start` and `f_end` -/
structure Ends (d : KoouData) (n i first last : Nat) : Prop where
  atFirst : IsEnd d n i first
  atLast : IsEnd d n i last
  first_le : ∀ j, IsEnd d n i j → first ≤ j
  le_last : ∀ j, IsEnd d n i j → j ≤ last

/-- The column `j` is marked in the row of the start `i`. -/
structure KoouPair (sp : KoouText) (d : KoouData) (i j : Nat) : Prop where
  start : d.koouMP i = true
  le : i ≤ j
  lt : j < sp.bnstNum
  marked : 0 < d.koouMatrix i j

/-- What is between `i` and `hi` is cut off from what is in front of `i` and behind `last`. -/
inductive KoouSpan (sp : KoouText) (d : KoouData) : Nat → Nat → Nat → Prop
  | japanese {i first last : Nat} (hlang : sp.chinese = false) (hstart : d.koouMP i = true)
      (hends : Ends d sp.bnstNum i first last) : KoouSpan sp d i first last
  | chinese {i j : Nat} (hlang : sp.chinese = true) (hpair : KoouPair sp d i j)
      (htype : d.koouDpndMatrix i j = charCode 'L' ∨ d.koouDpndMatrix i j = charCode 'R') :
      KoouSpan sp d i j j

/-- A later start lies between `a` and `b`; in Chinese also where a later mark of the row has the
type R, or a later start the same column with the type L. -/
inductive Erased (sp : KoouText) (d : KoouData) (a b : Nat) : Prop
  | between {i hi last : Nat} (hspan : KoouSpan sp d i hi last) (hai : a < i) (hib : i < b)
      (hbhi : b < hi) : Erased sp d a b
  | right {j : Nat} (hlang : sp.chinese = true) (hpair : KoouPair sp d a j) (hbj : b < j)
      (htype : d.koouDpndMatrix a j = charCode 'R') : Erased sp d a b
  | left {i : Nat} (hlang : sp.chinese = true) (hpair : KoouPair sp d i b) (hai : a < i)
      (htype : d.koouDpndMatrix i b = charCode 'L') : Erased sp d a b

/-! ## The row of a start -/

section Japanese

variable {d : KoouData} {n i a b : Nat}

theorem isEnd_succ {j : Nat} (hin : i ≤ n) :
    IsEnd d (n + 1) i j ↔ IsEnd d n i j ∨ j = n ∧ d.koouMatrix i n = 1 := by
  constructor
  · intro h
    rcases Nat.lt_succ_iff_lt_or_eq.mp h.lt with hlt | rfl
    · exact Or.inl ⟨h.le, hlt, h.ends⟩
    · exact Or.inr ⟨rfl, h.ends⟩
  · rintro (h | ⟨rfl, h⟩)
    · exact ⟨h.le, Nat.lt_succ_of_lt h.lt, h.ends⟩
    · exact ⟨hin, Nat.lt_succ_self j, h⟩

/-- `f_start` and `f_end` are -1, or the first and the last end. -/
def Bounds (d : KoouData) (n i : Nat) (fStart fEnd : Int) : Prop :=
  (fStart = -1 ∧ fEnd = -1 ∧ ∀ j, ¬IsEnd d n i j) ∨
    ∃ first last : Nat, fStart = first ∧ fEnd = last ∧ Ends d n i first last

/-- A column that is no end. -/
theorem Bounds.skip {fStart fEnd : Int} (h : Bounds d n i fStart fEnd) (hin : i ≤ n)
    (hne : d.koouMatrix i n ≠ 1) : Bounds d (n + 1) i fStart fEnd := by
  have heq : ∀ j, IsEnd d (n + 1) i j ↔ IsEnd d n i j := fun j => by
    rw [isEnd_succ hin]
    simp [hne]
  rcases h with ⟨hs, he, hnone⟩ | ⟨first, last, hs, he, hends⟩
  · exact Or.inl ⟨hs, he, fun j => (heq j).not.mpr (hnone j)⟩
  · exact Or.inr ⟨first, last, hs, he, (heq _).mpr hends.atFirst, (heq _).mpr hends.atLast,
      fun j hj => hends.first_le j ((heq j).mp hj), fun j hj => hends.le_last j ((heq j).mp hj)⟩

/-- A column that is an end. -/
theorem Bounds.take {fStart fEnd : Int} (h : Bounds d n i fStart fEnd) (hin : i ≤ n)
    (hend : d.koouMatrix i n = 1) :
    Bounds d (n + 1) i (if fStart < 0 then (n : Int) else fStart) n := by
  have hn : IsEnd d (n + 1) i n := (isEnd_succ hin).mpr (Or.inr ⟨rfl, hend⟩)
  rcases h with ⟨hs, he, hnone⟩ | ⟨first, last, hs, he, hends⟩
  · have honly : ∀ j, IsEnd d (n + 1) i j → j = n := fun j hj =>
      ((isEnd_succ hin).mp hj).elim (fun h => absurd h (hnone j)) And.left
    refine Or.inr ⟨n, n, if_pos (by omega), rfl, hn, hn, ?_, ?_⟩
    · exact fun j hj => (honly j hj).ge
    · exact fun j hj => (honly j hj).le
  · have hfirst := hends.atFirst
    refine Or.inr ⟨first, n, ?_, rfl, (isEnd_succ hin).mpr (Or.inl hfirst), hn, ?_, ?_⟩
    · rw [if_neg (by omega), hs]
    · intro j hj
      rcases (isEnd_succ hin).mp hj with hj | ⟨rfl, -⟩
      · exact hends.first_le j hj
      · exact hfirst.lt.le
    · exact fun j hj => Nat.le_of_lt_succ hj.lt

theorem rowLoop_spec (m : Nat → Nat → Int) (hin : i ≤ n) :
    (∀ a b, (upTo i n (rowTurn d i) (m, -1, -1)).1 a b =
      if a = i ∧ i ≤ b ∧ b < n then (if 0 < d.koouMatrix i b then d.koouDpndMatrix i b else 0)
      else m a b) ∧
    Bounds d n i (upTo i n (rowTurn d i) (m, -1, -1)).2.1
      (upTo i n (rowTurn d i) (m, -1, -1)).2.2 := by
  refine upTo_induction (rowTurn d i) (fun n s => (∀ a b, s.1 a b =
      if a = i ∧ i ≤ b ∧ b < n then (if 0 < d.koouMatrix i b then d.koouDpndMatrix i b else 0)
      else m a b) ∧ Bounds d n i s.2.1 s.2.2) hin ?_ ?_
  · rintro n ⟨m', fStart, fEnd⟩ hlo _ ⟨hm, hbounds⟩
    constructor
    · intro a b
      have hrow : (rowTurn d i n (m', fStart, fEnd)).1 a b = if a = i ∧ b = n then
          (if 0 < d.koouMatrix i n then d.koouDpndMatrix i n else 0) else m' a b := by
        unfold rowTurn put
        by_cases hpos : 0 < d.koouMatrix i n <;> simp [hpos]
      rw [hrow, show m' a b = _ from hm a b]
      by_cases hcell : a = i ∧ b = n
      · obtain ⟨rfl, rfl⟩ := hcell
        simp [hlo]
      · have hbound : (a = i ∧ i ≤ b ∧ b < n + 1) ↔ (a = i ∧ i ≤ b ∧ b < n) := by omega
        simp only [hcell, if_false, hbound]
    · unfold rowTurn
      by_cases hend : d.koouMatrix i n = 1
      · simpa [hend] using hbounds.take hlo hend
      · by_cases hpos : 0 < d.koouMatrix i n
        · simpa [hend, hpos] using hbounds.skip hlo hend
        · simpa [hpos] using hbounds.skip hlo hend
  · refine ⟨fun a b => by rw [if_neg (by omega)], Or.inl ⟨rfl, rfl, fun j hj => ?_⟩⟩
    have := hj.le
    have := hj.lt
    omega

/-- The cells that are masked in the turn of the start `i`. -/
def Masked (d : KoouData) (n i a b : Nat) : Prop :=
  ∃ first last, Ends d n i first last ∧
    (a < i ∧ i < b ∧ b < first ∨ i < a ∧ a < first ∧ last < b ∧ b < n)

theorem fills_masks {fStart fEnd : Int} (h : Bounds d n i fStart fEnd) :
    Fills 0 (fun m => maskBack i fStart (maskFor n i fStart fEnd m)) (Masked d n i) := by
  refine ((fills_rectangle (i + 1) fStart.toNat (fEnd + 1).toNat n 0).comp
    (fills_rectangle 0 i (i + 1) fStart.toNat 0)).congr fun a b => ?_
  rcases h with ⟨rfl, rfl, hnone⟩ | ⟨first, last, rfl, rfl, hends⟩
  · constructor
    · rintro (h | h) <;> omega
    · rintro ⟨first, last, hends, -⟩
      exact absurd hends.atFirst (hnone first)
  · constructor
    · rintro (h | h)
      · exact ⟨first, last, hends, Or.inr (by omega)⟩
      · exact ⟨first, last, hends, Or.inl (by omega)⟩
    · rintro ⟨first', last', hends', h⟩
      obtain rfl := Nat.le_antisymm (hends.first_le _ hends'.atFirst)
        (hends'.first_le _ hends.atFirst)
      obtain rfl := Nat.le_antisymm (hends'.le_last _ hends.atLast)
        (hends.le_last _ hends'.atLast)
      rcases h with h | h
      · exact Or.inr (by omega)
      · exact Or.inl (by omega)

theorem Masked.ne (h : Masked d n i a b) : a ≠ i := by
  obtain ⟨first, last, -, h | h⟩ := h
  · omega
  · omega

/-- The turn of a start. -/
theorem japaneseTurn_spec (m : Nat → Nat → Int) (hin : i ≤ n) :
    (i ≤ b → b < n → japaneseTurn n d i m i b =
      if 0 < d.koouMatrix i b then d.koouDpndMatrix i b else 0) ∧
    (Masked d n i a b → japaneseTurn n d i m a b = 0) ∧
    (a ≠ i → ¬Masked d n i a b → japaneseTurn n d i m a b = m a b) := by
  obtain ⟨hrow, hbounds⟩ := rowLoop_spec (d := d) m hin
  have hfills := fills_masks hbounds (upTo i n (rowTurn d i) (m, -1, -1)).1
  refine ⟨fun hib hbn => ?_, fun h => (hfills a b).1 h, fun hne h => ?_⟩
  · refine ((hfills i b).2 fun h => h.ne rfl).trans ?_
    rw [hrow, if_pos ⟨rfl, hib, hbn⟩]
  · refine ((hfills a b).2 h).trans ?_
    rw [hrow, if_neg fun hc => hne hc.1]

/-- Rows of other bunsetsu are at most masked. -/
theorem japaneseTurn_or (m : Nat → Nat → Int) (hin : i ≤ n) (hne : a ≠ i) :
    japaneseTurn n d i m a b = m a b ∨ japaneseTurn n d i m a b = 0 := by
  obtain ⟨-, hmask, hkeep⟩ := japaneseTurn_spec (a := a) (b := b) (d := d) m hin
  by_cases h : Masked d n i a b
  · exact Or.inr (hmask h)
  · exact Or.inl (hkeep hne h)

end Japanese

/-! ## A column of a start in Chinese -/

section Chinese

variable {d : KoouData} {n i j a b : Nat}

/-- The cells that `maskBetween` sets to zero. -/
def Between (n i j a b : Nat) : Prop :=
  a < i ∧ i < b ∧ b < j ∨ i < a ∧ a < j ∧ j < b ∧ b < n

theorem fills_maskBetween (n i j : Nat) : Fills 0 (maskBetween n i j) (Between n i j) := by
  refine (fills_upTo fun k =>
    (fills_column k 0 i 0).comp (fills_row k (j + 1) n 0)).congr fun a b => ?_
  constructor
  · rintro ⟨k, hk, ⟨ha, rfl⟩ | ⟨rfl, hb⟩⟩
    · exact Or.inl (by omega)
    · exact Or.inr (by omega)
  · rintro (h | h)
    · exact ⟨b, by omega, Or.inl ⟨by omega, rfl⟩⟩
    · exact ⟨a, by omega, Or.inr ⟨rfl, by omega⟩⟩

/-- The cells that are set to zero for a mark of the type L. -/
def LeftMasked (n i j a b : Nat) : Prop :=
  (a = j ∧ j < b ∧ b < n ∨ a < i ∧ b = j) ∨ Between n i j a b

/-- The cells that are set to zero for a mark of the type R. -/
def RightMasked (n i j a b : Nat) : Prop :=
  (a = i ∧ i < b ∧ b < n ∧ b ≠ j ∨ a = i ∧ b < i) ∨ Between n i j a b

/-- The cells that are set to zero in the turn of a mark. -/
def Cleared (d : KoouData) (n i j a b : Nat) : Prop :=
  d.koouDpndMatrix i j = charCode 'L' ∧ LeftMasked n i j a b ∨
    d.koouDpndMatrix i j = charCode 'R' ∧ RightMasked n i j a b

theorem fills_leftMasked (n i j : Nat) : Fills 0 (fun m => maskBetween n i j
      (upTo 0 i (fun k => put k j 0) (upTo (j + 1) n (fun k => put j k 0) m)))
    (LeftMasked n i j) := by
  refine (((fills_row j (j + 1) n 0).comp (fills_column j 0 i 0)).comp
    (fills_maskBetween n i j)).congr fun a b => or_congr_left (or_congr Iff.rfl ?_)
  exact and_congr_left fun _ => ⟨And.right, fun h => ⟨Nat.zero_le a, h⟩⟩

theorem fills_rightMasked (n i j : Nat) : Fills 0 (fun m => maskBetween n i j
      (upTo 0 i (fun k => put i k 0)
        (upTo (i + 1) n (fun k m => if k ≠ j then put i k 0 m else m) m)))
    (RightMasked n i j) := by
  have hrow : Fills (0 : Int) (upTo (i + 1) n fun k m => if k ≠ j then put i k 0 m else m)
      fun a b => a = i ∧ i < b ∧ b < n ∧ b ≠ j := by
    refine (fills_upTo fun k => (fills_put i k 0).ite).congr fun a b => ?_
    constructor
    · rintro ⟨k, hk, hne, rfl, rfl⟩
      exact ⟨rfl, hk.1, hk.2, hne⟩
    · rintro ⟨ha, hib, hbn, hne⟩
      exact ⟨b, ⟨hib, hbn⟩, hne, ha, rfl⟩
  refine ((hrow.comp (fills_row i 0 i 0)).comp (fills_maskBetween n i j)).congr
    fun a b => or_congr_left (or_congr Iff.rfl ?_)
  exact and_congr_right fun _ => ⟨And.right, fun h => ⟨Nat.zero_le b, h⟩⟩

/-- The turn of a mark. -/
theorem chineseTurn_spec (m : Nat → Nat → Int) (hpos : 0 < d.koouMatrix i j) :
    (Cleared d n i j a b → chineseTurn n d i j m a b = 0) ∧
    (¬Cleared d n i j a b →
      chineseTurn n d i j m a b = put i j (d.koouDpndMatrix i j) m a b) := by
  have hfills := ((fills_leftMasked n i j).ite (p := d.koouDpndMatrix i j = charCode 'L')).comp
    ((fills_rightMasked n i j).ite (p := d.koouDpndMatrix i j = charCode 'R'))
  unfold chineseTurn
  rw [if_pos hpos]
  exact hfills _ a b

/-- A turn writes the mark into its own cell, and else nothing but zero. -/
theorem chineseTurn_or (n : Nat) (d : KoouData) (i j : Nat) (m : Nat → Nat → Int) (a b : Nat) :
    chineseTurn n d i j m a b = m a b ∨ chineseTurn n d i j m a b = 0 ∨
      (a = i ∧ b = j ∧ 0 < d.koouMatrix i j ∧
        chineseTurn n d i j m a b = d.koouDpndMatrix i j) := by
  by_cases hpos : 0 < d.koouMatrix i j
  · obtain ⟨hclear, hkeep⟩ := chineseTurn_spec (a := a) (b := b) (n := n) m hpos
    by_cases hc : Cleared d n i j a b
    · exact Or.inr (Or.inl (hclear hc))
    · rw [hkeep hc]
      unfold put
      split_ifs with hcell
      · exact Or.inr (Or.inr ⟨hcell.1, hcell.2, hpos, rfl⟩)
      · exact Or.inl rfl
  · exact Or.inl (by rw [chineseTurn, if_neg hpos])

end Chinese

/-! ## The run -/

section Run

variable {sp : KoouText} {d : KoouData} {m : Nat → Nat → Int}

/-- What the turn of a start brings about and those of later ones preserve. -/
theorem changeMatrix_japanese {P : (Nat → Nat → Int) → Prop} {x : Nat}
    (hlang : sp.chinese = false) (hstart : d.koouMP x = true) (hx : x < sp.bnstNum)
    (hset : ∀ m, P (japaneseTurn sp.bnstNum d x m))
    (hkeep : ∀ i m, x < i → d.koouMP i = true → i < sp.bnstNum → P m →
      P (japaneseTurn sp.bnstNum d i m)) : P (changeMatrix sp d m) := by
  unfold changeMatrix
  rw [if_neg (by simp [hlang])]
  refine upTo_established _ P (Nat.zero_le x) hx (fun m => ?_) fun i m hxi hi hm => ?_
  · rw [if_pos hstart]
    exact hset m
  · split_ifs with hlater
    · exact hkeep i m hxi hlater hi hm
    · exact hm

/-- What the turn of a mark brings about and those of later ones preserve: later ones of the same
row, and those of later starts. -/
theorem changeMatrix_chinese {P : (Nat → Nat → Int) → Prop} {x y : Nat}
    (hlang : sp.chinese = true) (hpair : KoouPair sp d x y)
    (hset : ∀ m, P (chineseTurn sp.bnstNum d x y m))
    (hrow : ∀ j m, y < j → j < sp.bnstNum → P m → P (chineseTurn sp.bnstNum d x j m))
    (hkeep : ∀ i j m, x < i → d.koouMP i = true → i ≤ j → j < sp.bnstNum → P m →
      P (chineseTurn sp.bnstNum d i j m)) : P (changeMatrix sp d m) := by
  unfold changeMatrix
  rw [if_pos hlang]
  refine upTo_established _ P (Nat.zero_le x) (hpair.le.trans_lt hpair.lt) (fun m => ?_)
    fun i m hxi hi hm => ?_
  · rw [if_pos hpair.start]
    exact upTo_established _ P hpair.le hpair.lt hset fun j m hyj hj hm => hrow j m hyj hj hm
  · split_ifs with hstart
    · exact upTo_induction (chineseTurn sp.bnstNum d i) (fun _ m => P m) hi.le
        (fun j m hij hj hm => hkeep i j m hxi hstart hij hj hm) hm
    · exact hm

end Run

/-! ## What is left -/

/-- The matrix after `change_matrix`. -/
structure KoouMasked (sp : KoouText) (d : KoouData) (after : Nat → Nat → Int) : Prop where
  /-- Nothing in front of a start goes in between. -/
  front : ∀ i hi last, KoouSpan sp d i hi last → ∀ a b, a < i → i < b → b < hi → after a b = 0
  /-- What is in between goes behind the last end only as an expression of its own. -/
  inside : ∀ i hi last, KoouSpan sp d i hi last → ∀ a b, i < a → a < hi → last < b →
    b < sp.bnstNum → after a b = 0 ∨ KoouPair sp d a b ∧ after a b = d.koouDpndMatrix a b
  /-- The heads of a start are those marks of its row that are not erased. -/
  pairs : ∀ a b, KoouPair sp d a b → a < b →
    (Erased sp d a b → after a b = 0) ∧ (¬Erased sp d a b → after a b = d.koouDpndMatrix a b)
  heads : ∀ a, (∃ b, a < b ∧ KoouPair sp d a b ∧ after a b ≠ 0) ↔
    ∃ b, a < b ∧ KoouPair sp d a b ∧ ¬Erased sp d a b ∧ d.koouDpndMatrix a b ≠ 0
  /-- In Japanese a start has no other heads. -/
  others : sp.chinese = false → ∀ a b, d.koouMP a = true → a < b → b < sp.bnstNum →
    ¬KoouPair sp d a b → after a b = 0

section Masked

variable {sp : KoouText} {d : KoouData} {m : Nat → Nat → Int} {a b : Nat}

theorem japaneseTurn_zero {n i : Nat} (hin : i ≤ n) (hne : a ≠ i) (hm : m a b = 0) :
    japaneseTurn n d i m a b = 0 :=
  (japaneseTurn_or m hin hne).elim (fun h => h.trans hm) id

/-- The cells that are cleared in the turn of a mark stay zero, unless they are marks themselves
that have their turn later. -/
theorem changeMatrix_cleared {x y : Nat} (hlang : sp.chinese = true)
    (hpair : KoouPair sp d x y) (hcleared : Cleared d sp.bnstNum x y a b) :
    changeMatrix sp d m a b = 0 ∨ (x < a ∨ x = a ∧ y < b) ∧ KoouPair sp d a b ∧
      changeMatrix sp d m a b = d.koouDpndMatrix a b := by
  refine changeMatrix_chinese (P := fun m => m a b = 0 ∨ (x < a ∨ x = a ∧ y < b) ∧
    KoouPair sp d a b ∧ m a b = d.koouDpndMatrix a b) hlang hpair (fun m => ?_)
    (fun j m hyj hj hm => ?_) fun i j m hxi hstart hij hj hm => ?_
  · exact Or.inl ((chineseTurn_spec m hpair.marked).1 hcleared)
  · rcases chineseTurn_or sp.bnstNum d x j m a b with h | h | ⟨rfl, rfl, hpos, h⟩
    · rwa [h]
    · exact Or.inl h
    · exact Or.inr ⟨Or.inr ⟨rfl, hyj⟩, ⟨hpair.start, hpair.le.trans hyj.le, hj, hpos⟩, h⟩
  · rcases chineseTurn_or sp.bnstNum d i j m a b with h | h | ⟨rfl, rfl, hpos, h⟩
    · rwa [h]
    · exact Or.inl h
    · exact Or.inr ⟨Or.inl hxi, ⟨hstart, hij, hj, hpos⟩, h⟩

theorem cleared_between {i j : Nat} (htype : d.koouDpndMatrix i j = charCode 'L' ∨
    d.koouDpndMatrix i j = charCode 'R') {n : Nat} (h : Between n i j a b) :
    Cleared d n i j a b :=
  htype.imp (fun ht => ⟨ht, Or.inr h⟩) fun ht => ⟨ht, Or.inr h⟩

theorem changeMatrix_front {i hi last : Nat} (hspan : KoouSpan sp d i hi last) (hai : a < i)
    (hib : i < b) (hbhi : b < hi) : changeMatrix sp d m a b = 0 := by
  cases hspan with
  | japanese hlang hstart hends =>
      have hlt := hends.atFirst.le.trans_lt hends.atFirst.lt
      refine changeMatrix_japanese (P := fun m => m a b = 0) hlang hstart hlt (fun m => ?_)
        fun y m hy _ hyn hm => japaneseTurn_zero hyn.le (by omega) hm
      exact (japaneseTurn_spec m hlt.le).2.1 ⟨hi, last, hends, Or.inl ⟨hai, hib, hbhi⟩⟩
  | chinese hlang hpair htype =>
      have hcleared := cleared_between (n := sp.bnstNum) htype (Or.inl ⟨hai, hib, hbhi⟩)
      rcases changeMatrix_cleared (m := m) hlang hpair hcleared with h | ⟨hlater, -⟩
      · exact h
      · omega

theorem changeMatrix_inside {i hi last : Nat} (hspan : KoouSpan sp d i hi last) (hia : i < a)
    (hahi : a < hi) (hlast : last < b) (hb : b < sp.bnstNum) :
    changeMatrix sp d m a b = 0 ∨
      KoouPair sp d a b ∧ changeMatrix sp d m a b = d.koouDpndMatrix a b := by
  cases hspan with
  | japanese hlang hstart hends =>
      have hlt := hends.atFirst.le.trans_lt hends.atFirst.lt
      have hab := (hends.first_le _ hends.atLast).trans hlast.le
      refine changeMatrix_japanese (P := fun m => m a b = 0 ∨
        KoouPair sp d a b ∧ m a b = d.koouDpndMatrix a b) hlang hstart hlt (fun m => ?_)
        fun y m hy hlater hyn hm => ?_
      · exact Or.inl ((japaneseTurn_spec m hlt.le).2.1
          ⟨hi, last, hends, Or.inr ⟨hia, hahi, hlast, hb⟩⟩)
      · by_cases hay : a = y
        · subst hay
          have hcell := (japaneseTurn_spec (a := a) (d := d) m hyn.le).1 (by omega) hb
          split_ifs at hcell with hpos
          · exact Or.inr ⟨⟨hlater, by omega, hb, hpos⟩, hcell⟩
          · exact Or.inl hcell
        · rcases japaneseTurn_or (b := b) (d := d) m hyn.le hay with h | h
          · rwa [h]
          · exact Or.inl h
  | chinese hlang hpair htype =>
      have hcleared := cleared_between (n := sp.bnstNum) htype
        (Or.inr ⟨hia, hahi, hlast, hb⟩)
      exact (changeMatrix_cleared hlang hpair hcleared).imp_right And.right

theorem changeMatrix_erased (h : Erased sp d a b) (hab : a < b) (hb : b < sp.bnstNum) :
    changeMatrix sp d m a b = 0 := by
  cases h with
  | between hspan hai hib hbhi => exact changeMatrix_front hspan hai hib hbhi
  | @right j hlang hpair hbj htype =>
      have hcleared : Cleared d sp.bnstNum a j a b :=
        Or.inr ⟨htype, Or.inl (Or.inl ⟨rfl, hab, hb, hbj.ne⟩)⟩
      rcases changeMatrix_cleared (m := m) hlang hpair hcleared with h | ⟨hlater, -⟩
      · exact h
      · omega
  | @left i hlang hpair hai htype =>
      have hcleared : Cleared d sp.bnstNum i b a b :=
        Or.inl ⟨htype, Or.inl (Or.inr ⟨hai, rfl⟩)⟩
      rcases changeMatrix_cleared (m := m) hlang hpair hcleared with h | ⟨hlater, -⟩
      · exact h
      · omega

theorem changeMatrix_pair (hpair : KoouPair sp d a b) (hab : a < b) (hnot : ¬Erased sp d a b) :
    changeMatrix sp d m a b = d.koouDpndMatrix a b := by
  have ha := hab.trans hpair.lt
  cases hlang : sp.chinese with
  | false =>
      refine changeMatrix_japanese (P := fun m => m a b = d.koouDpndMatrix a b) hlang hpair.start
        ha (fun m => ?_) fun y m hy hlater hyn hm => ?_
      · exact ((japaneseTurn_spec (a := a) m ha.le).1 hab.le hpair.lt).trans
          (if_pos hpair.marked)
      · refine ((japaneseTurn_spec m hyn.le).2.2 hy.ne ?_).trans hm
        rintro ⟨first, last, hends, ⟨hay, hyb, hbf⟩ | ⟨hya, -⟩⟩
        · exact hnot (.between (.japanese hlang hlater hends) hay hyb hbf)
        · omega
  | true =>
      refine changeMatrix_chinese (P := fun m => m a b = d.koouDpndMatrix a b) hlang hpair
        (fun m => ?_) (fun j m hbj hj hm => ?_) fun i j m hai hlater hij hj hm => ?_
      · refine ((chineseTurn_spec m hpair.marked).2 ?_).trans (if_pos ⟨rfl, rfl⟩)
        rintro (⟨-, h⟩ | ⟨-, h⟩)
        · unfold LeftMasked Between at h
          omega
        · unfold RightMasked Between at h
          omega
      · by_cases hpos : 0 < d.koouMatrix a j
        · refine ((chineseTurn_spec m hpos).2 ?_).trans ((if_neg fun hc => hbj.ne hc.2).trans hm)
          rintro (⟨-, h⟩ | ⟨htype, -⟩)
          · unfold LeftMasked Between at h
            omega
          · exact hnot (.right hlang ⟨hpair.start, hpair.le.trans hbj.le, hj, hpos⟩ hbj htype)
        · rwa [chineseTurn, if_neg hpos]
      · by_cases hpos : 0 < d.koouMatrix i j
        · have hlaterPair : KoouPair sp d i j := ⟨hlater, hij, hj, hpos⟩
          refine ((chineseTurn_spec m hpos).2 ?_).trans ((if_neg fun hc => hai.ne hc.1).trans hm)
          have hbetween : (d.koouDpndMatrix i j = charCode 'L' ∨
              d.koouDpndMatrix i j = charCode 'R') → ¬Between sp.bnstNum i j a b := by
            rintro htype (⟨-, hib, hbj⟩ | ⟨hia, -⟩)
            · exact hnot (.between (.chinese hlang hlaterPair htype) hai hib hbj)
            · omega
          rintro (⟨htype, (⟨rfl, -⟩ | ⟨-, rfl⟩) | h⟩ | ⟨htype, (⟨rfl, -⟩ | ⟨rfl, -⟩) | h⟩)
          · omega
          · exact hnot (.left hlang hlaterPair hai htype)
          · exact hbetween (Or.inl htype) h
          · omega
          · omega
          · exact hbetween (Or.inr htype) h
        · rwa [chineseTurn, if_neg hpos]

theorem changeMatrix_others (hlang : sp.chinese = false) (hstart : d.koouMP a = true)
    (hab : a < b) (hb : b < sp.bnstNum) (hnot : ¬KoouPair sp d a b) :
    changeMatrix sp d m a b = 0 := by
  refine changeMatrix_japanese (P := fun m => m a b = 0) hlang hstart (hab.trans hb)
    (fun m => ?_) fun y m hy _ hyn hm => japaneseTurn_zero hyn.le hy.ne hm
  refine ((japaneseTurn_spec (a := a) m (hab.trans hb).le).1 hab.le hb).trans (if_neg ?_)
  exact fun hpos => hnot ⟨hstart, hab.le, hb, hpos⟩

end Masked

theorem changeMatrix_masked (sp : KoouText) (d : KoouData) (m : Nat → Nat → Int) :
    KoouMasked sp d (changeMatrix sp d m) where
  front := fun _ _ _ hspan _ _ => changeMatrix_front hspan
  inside := fun _ _ _ hspan _ _ => changeMatrix_inside hspan
  pairs := fun _ _ hpair hab =>
    ⟨fun h => changeMatrix_erased h hab hpair.lt, changeMatrix_pair hpair hab⟩
  heads := fun a => by
    refine exists_congr fun b => and_congr_right fun hab => and_congr_right fun hpair => ?_
    by_cases herased : Erased sp d a b
    · simp [changeMatrix_erased (m := m) herased hab hpair.lt, herased]
    · simp [changeMatrix_pair (m := m) hpair hab herased, herased]
  others := fun hlang _ _ => changeMatrix_others hlang

/-- For every set of rules and every matrix, in either language. -/
theorem koou_masked (sp : KoouText) (rules : List KoouRule) (m : Nat → Nat → Int) :
    Detects sp rules (checkKoou sp rules).1 ∧
      KoouMasked sp (checkKoou sp rules).1 (koou sp rules m).1 :=
  ⟨checkKoou_detects sp rules, changeMatrix_masked sp (checkKoou sp rules).1 m⟩

/-- Each start has a head behind it, and no entry crosses a pair of a start and an end. -/
structure KoouSafe (sp : KoouText) (d : KoouData) (after : Nat → Nat → Int) : Prop where
  head : ∀ i k, KoouPair sp d i k → d.koouMatrix i k = 1 →
    ∃ j, i < j ∧ KoouPair sp d i j ∧ after i j ≠ 0
  cross : ∀ i k, KoouPair sp d i k → d.koouMatrix i k = 1 → ∀ a b, a < sp.bnstNum →
    b < sp.bnstNum → (i < a ∧ a < k ∧ (b < i ∨ k < b) ∨ i < b ∧ b < k ∧ (a < i ∨ k < a)) →
    after a b = 0

def fourBnst : KoouText := ⟨.japanese, [[], [], [], []]⟩

/-- A rule for the bunsetsu of the given numbers. -/
def numberRule (start : Nat) (ends : List Nat) : KoouRule :=
  ⟨fun i => i = start, fun k => k ∈ ends, none, 'D'⟩

def upperTriangle (i j : Nat) : Int := if i < j then charCode 'D' else 0

/-- Two ends of one start, where what is between goes to the second one; and two expressions that
cross, where the first start has lost its end. -/
theorem twoEnds_cross :
    ¬KoouSafe fourBnst (checkKoou fourBnst [numberRule 0 [2, 3]]).1
        (koou fourBnst [numberRule 0 [2, 3]] upperTriangle).1 ∧
      ¬KoouSafe fourBnst (checkKoou fourBnst [numberRule 0 [2], numberRule 1 [3]]).1
        (koou fourBnst [numberRule 0 [2], numberRule 1 [3]] upperTriangle).1 := by
  constructor
  · intro h
    have hcell := h.cross 0 2 ⟨rfl, by decide, by decide, by decide⟩ rfl 1 3 (by decide)
      (by decide) (by decide)
    exact absurd hcell (by decide)
  · intro h
    obtain ⟨j, hj, hpair, hne⟩ := h.head 0 2 ⟨rfl, by decide, by decide, by decide⟩ rfl
    have hlt : j < 4 := hpair.lt
    obtain rfl | rfl | rfl : j = 1 ∨ j = 2 ∨ j = 3 := by omega
    · exact absurd hpair.marked (by decide)
    · exact hne (by decide)
    · exact absurd hpair.marked (by decide)

end Knp.Koou
