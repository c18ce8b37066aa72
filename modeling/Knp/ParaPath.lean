import Knp.ParaScore
import Knp.TreeConv

/-!
# The table of scores and its back-pointers

One lemma for each of the three loops over the rows of a column, then the table
over all columns, from the end of the scope down to the column behind the key.
-/

namespace Knp

open FirstBest

variable {t : ParaText} {penaltyTable : Nat → Int} {keyPos iendPos jendPos j : Nat}
  {s s₀ : DpState}

@[simp] theorem setEntry_self (m : Nat → Nat → Int) (i j : Nat) (v : Int) :
    setEntry m i j v i j = v :=
  if_pos ⟨rfl, rfl⟩

theorem setEntry_of_ne {m : Nat → Nat → Int} {i j i' j' : Nat} {v : Int}
    (h : i' ≠ i ∨ j' ≠ j) : setEntry m i j v i' j' = m i' j' := by
  unfold setEntry
  rw [if_neg]
  rintro ⟨rfl, rfl⟩
  simp at h

theorem passCost_self (lo : Nat) : passCost t penaltyTable lo lo = 0 := by
  simp [passCost]

theorem passCost_succ {lo hi : Nat} (h : lo < hi) : passCost t penaltyTable lo hi =
    rowCost t penaltyTable lo + passCost t penaltyTable (lo + 1) hi :=
  Finset.sum_eq_sum_Ico_succ_bot h _

/-! ## The best cell below a row -/

/-- `maxpos_array` and `maxsco_array` for the next column: from row `i` on, the
first of the rows that are best when the passed rows are paid for. -/
structure MaxRow (t : ParaText) (penaltyTable : Nat → Int) (iendPos j i : Nat) (s : DpState) :
    Prop where
  ge : i ≤ s.maxpos i
  le : s.maxpos i ≤ iendPos
  sco : s.maxsco i = s.score (s.maxpos i) j - passCost t penaltyTable i (s.maxpos i)
  max : ∀ r, i ≤ r → r ≤ iendPos →
    s.score r j - passCost t penaltyTable i r < s.maxsco i ∨
      s.score r j - passCost t penaltyTable i r = s.maxsco i ∧ s.maxpos i ≤ r

/-- The state of the loop over the rows. -/
structure MaxLoop (t : ParaText) (penaltyTable : Nat → Int) (iendPos j : Nat) (s : DpState)
    (i : Nat) (x : Int × DpState) : Prop where
  current : x.1 = x.2.maxsco i
  score : x.2.score = s.score
  prepos : x.2.prepos = s.prepos
  rows : ∀ k, i ≤ k → k ≤ iendPos → MaxRow t penaltyTable iendPos j k x.2

theorem MaxRow.congr {s s' : DpState} {i : Nat} (h : MaxRow t penaltyTable iendPos j i s)
    (hscore : s'.score = s.score) (hpos : s'.maxpos i = s.maxpos i)
    (hsco : s'.maxsco i = s.maxsco i) : MaxRow t penaltyTable iendPos j i s' := by
  obtain ⟨hge, hle, heq, hmax⟩ := h
  constructor
  · rwa [hpos]
  · rwa [hpos]
  · rwa [hsco, hpos, hscore]
  · rwa [hsco, hpos, hscore]

theorem maxRow_step {i : Nat} {x : Int × DpState} (hi : i < iendPos)
    (h : MaxLoop t penaltyTable iendPos j s (i + 1) x) :
    MaxLoop t penaltyTable iendPos j s i (maxRow t penaltyTable j i x) := by
  obtain ⟨hcur, hscore, hprepos, hrows⟩ := h
  have hbelow := hrows (i + 1) (Nat.le_refl _) hi
  -- what the rows below come to when row `i` is passed as well
  have hpass : ∀ r, i + 1 ≤ r → passCost t penaltyTable i r =
      rowCost t penaltyTable i + passCost t penaltyTable (i + 1) r :=
    fun r hr => passCost_succ hr
  have hkeep : ∀ (pos : Nat) (sco : Int) (k : Nat), i + 1 ≤ k → k ≤ iendPos →
      MaxRow t penaltyTable iendPos j k { x.2 with
        maxpos := Function.update x.2.maxpos i pos
        maxsco := Function.update x.2.maxsco i sco } := fun pos sco k hk hkle =>
    (hrows k hk hkle).congr rfl (Function.update_of_ne (by omega) _ _)
      (Function.update_of_ne (by omega) _ _)
  unfold maxRow
  dsimp only
  by_cases hle : x.1 - rowCost t penaltyTable i ≤ x.2.score i j
  · rw [if_pos hle]
    refine ⟨by simp, hscore, hprepos, fun k hk hkle => ?_⟩
    rcases Nat.lt_or_ge i k with hik | hki
    · exact hkeep i (x.2.score i j) k hik hkle
    obtain rfl : k = i := by omega
    constructor
    · simp
    · simpa using hi.le
    · simp [passCost_self]
    · intro r hr hrle
      simp only [Function.update_self]
      rcases Nat.lt_or_ge k r with hkr | hrk
      · have hbound : x.2.score r j - passCost t penaltyTable (k + 1) r ≤ x.2.maxsco (k + 1) :=
          (hbelow.max r hkr hrle).elim le_of_lt fun h => h.1.le
        have := hpass r hkr
        omega
      · obtain rfl : r = k := by omega
        exact .inr ⟨by simp [passCost_self], Nat.le_refl _⟩
  · rw [if_neg hle]
    refine ⟨by simp, hscore, hprepos, fun k hk hkle => ?_⟩
    rcases Nat.lt_or_ge i k with hik | hki
    · exact hkeep (x.2.maxpos (i + 1)) (x.1 - rowCost t penaltyTable i) k hik hkle
    obtain rfl : k = i := by omega
    have hge := hbelow.ge
    constructor
    · simp only [Function.update_self]
      omega
    · simpa using hbelow.le
    · simp only [Function.update_self]
      rw [hcur, hbelow.sco, hpass _ hge]
      omega
    · intro r hr hrle
      simp only [Function.update_self]
      rcases Nat.lt_or_ge k r with hkr | hrk
      · rw [hpass r hkr, hcur]
        rcases hbelow.max r hkr hrle with hlt | ⟨heq, hpos⟩
        · exact .inl (by omega)
        · exact .inr ⟨by omega, hpos⟩
      · obtain rfl : r = k := by omega
        rw [passCost_self]
        exact .inl (by omega)

theorem columnMax_spec (t : ParaText) (penaltyTable : Nat → Int) (iendPos j : Nat)
    (s : DpState) :
    (columnMax t penaltyTable iendPos j s).score = s.score ∧
    (columnMax t penaltyTable iendPos j s).prepos = s.prepos ∧
    ∀ i ≤ iendPos, MaxRow t penaltyTable iendPos j i (columnMax t penaltyTable iendPos j s) := by
  have hloop : MaxLoop t penaltyTable iendPos j s 0 (Loop.down 0 iendPos
      (maxRow t penaltyTable j) (s.score iendPos j,
        { s with
          maxpos := Function.update s.maxpos iendPos iendPos
          maxsco := Function.update s.maxsco iendPos (s.score iendPos j) })) := by
    refine Loop.down_induction _ (MaxLoop t penaltyTable iendPos j s) (Nat.zero_le _)
      (fun i x _ hi hx => maxRow_step hi hx) ⟨by simp, rfl, rfl, fun k hk hkle => ?_⟩
    obtain rfl : k = iendPos := by omega
    constructor
    · simp
    · simp
    · simp [passCost_self]
    · intro r hr hrle
      obtain rfl : r = k := by omega
      simp [passCost_self]
  exact ⟨hloop.score, hloop.prepos, fun i hi => hloop.rows i (Nat.zero_le i) hi⟩

/-! ## A column -/

/-- The loop over the rows of the last column. -/
structure LastColumn (t : ParaText) (iendPos jendPos : Nat) (s : DpState) (i : Nat) (x : DpState) :
    Prop where
  start : ∀ r, i ≤ r → r ≤ iendPos → x.score r jendPos = startSum t iendPos jendPos r
  other : ∀ r c, c ≠ jendPos ∨ iendPos < r → x.score r c = s.score r c
  prepos : x.prepos = setEntry s.prepos iendPos jendPos START_HERE

theorem lastColumn_spec (t : ParaText) (iendPos jendPos : Nat) (s : DpState) :
    LastColumn t iendPos jendPos s 0 (lastColumn t iendPos jendPos s) := by
  unfold lastColumn
  refine Loop.down_induction _ (LastColumn t iendPos jendPos s) (Nat.zero_le _)
    (fun i x _ hi hx => ⟨fun r hr hrle => ?_, fun r c hrc => ?_, hx.prepos⟩)
    ⟨fun r hr hrle => ?_, fun r c hrc => setEntry_of_ne (by omega), rfl⟩
  · rcases Nat.lt_or_ge i r with hir | hri
    · dsimp only
      rw [setEntry_of_ne (.inl (by omega)), hx.start r hir hrle]
    · obtain rfl : r = i := by omega
      dsimp only
      rw [setEntry_self, startSum, if_neg (by omega)]
  · dsimp only
    rw [setEntry_of_ne (by omega), hx.other r c hrc]
  · obtain rfl : r = iendPos := by omega
    simp [startSum]

/-- The score and the back-pointer of a cell. -/
def cellOf (t : ParaText) (penaltyTable : Nat → Int) (keyPos j i : Nat) (s : DpState) :
    Int × Int :=
  if keyColumn t j then (scoreSideway t penaltyTable i j s, i)
  else if scoreSideway t penaltyTable i j s ≤ scoreUpward t penaltyTable keyPos i j s then
    (scoreUpward t penaltyTable keyPos i j s, s.maxpos (i + 1))
  else (scoreSideway t penaltyTable i j s, i)

theorem scoreCell_eq (keyPos i : Nat) : scoreCell t penaltyTable keyPos j i s =
    { s with
      score := setEntry s.score i j (cellOf t penaltyTable keyPos j i s).1
      prepos := setEntry s.prepos i j (cellOf t penaltyTable keyPos j i s).2 } := by
  unfold scoreCell cellOf
  split
  · rfl
  · split <;> rfl

theorem cellOf_congr {i : Nat} {s' : DpState} (hscore : s'.score i (j + 1) = s.score i (j + 1))
    (hpos : s'.maxpos = s.maxpos) (hsco : s'.maxsco = s.maxsco) :
    cellOf t penaltyTable keyPos j i s' = cellOf t penaltyTable keyPos j i s := by
  unfold cellOf scoreSideway scoreUpward
  rw [hscore, hpos, hsco]

/-- The loop over the rows of a column further left. -/
structure InnerColumn (t : ParaText) (penaltyTable : Nat → Int) (keyPos iendPos j : Nat) (s : DpState)
    (i : Nat) (x : DpState) : Prop where
  maxpos : x.maxpos = s.maxpos
  maxsco : x.maxsco = s.maxsco
  bottom : x.score iendPos j = s.score iendPos (j + 1) - PENALTY - penaltyTable j ∧
    x.prepos iendPos j = iendPos
  cell : ∀ r, i ≤ r → r < iendPos →
    (x.score r j, x.prepos r j) = cellOf t penaltyTable keyPos j r s
  other : ∀ r c, c ≠ j ∨ iendPos < r → x.score r c = s.score r c ∧ x.prepos r c = s.prepos r c

theorem innerColumn_spec (t : ParaText) (penaltyTable : Nat → Int) (keyPos iendPos j : Nat)
    (s : DpState) :
    InnerColumn t penaltyTable keyPos iendPos j s 0
      (innerColumn t penaltyTable keyPos iendPos j s) := by
  unfold innerColumn
  refine Loop.down_induction _ (InnerColumn t penaltyTable keyPos iendPos j s) (Nat.zero_le _)
    (fun i x _ hi hx => ?_) ⟨rfl, rfl, ⟨setEntry_self .., setEntry_self ..⟩,
      fun r hr hlt => absurd hlt (Nat.not_lt.mpr hr),
      fun r c hrc => ⟨setEntry_of_ne (by omega), setEntry_of_ne (by omega)⟩⟩
  rw [scoreCell_eq, cellOf_congr (hx.other i (j + 1) (.inl (by omega))).1 hx.maxpos hx.maxsco]
  refine ⟨hx.maxpos, hx.maxsco, ?_, fun r hr hlt => ?_, fun r c hrc => ?_⟩
  · dsimp only
    rw [setEntry_of_ne (.inl (by omega)), setEntry_of_ne (.inl (by omega))]
    exact hx.bottom
  · rcases Nat.lt_or_ge i r with hir | hri
    · dsimp only
      rw [setEntry_of_ne (.inl (by omega)), setEntry_of_ne (.inl (by omega))]
      exact hx.cell r hir hlt
    · obtain rfl : r = i := by omega
      simp
  · dsimp only
    rw [setEntry_of_ne (by omega), setEntry_of_ne (by omega)]
    exact hx.other r c hrc

/-- A cell that is not on the bottom has the first of the best steps. -/
theorem cellOf_best {i : Nat} (hi : i < iendPos)
    (hmax : MaxRow t penaltyTable iendPos (j + 1) (i + 1) s) :
    ∃ back : Nat, (cellOf t penaltyTable keyPos j i s).2 = back ∧ Moves t iendPos j i back ∧
      (cellOf t penaltyTable keyPos j i s).1 =
        gain t penaltyTable keyPos iendPos j i back + s.score back (j + 1) ∧
      ∀ r', Moves t iendPos j i r' →
        gain t penaltyTable keyPos iendPos j i r' + s.score r' (j + 1) <
            (cellOf t penaltyTable keyPos j i s).1 ∨
          gain t penaltyTable keyPos iendPos j i r' + s.score r' (j + 1) =
            (cellOf t penaltyTable keyPos j i s).1 ∧ (r' = back ∨ Prefers i back r') := by
  have hside : scoreSideway t penaltyTable i j s =
      gain t penaltyTable keyPos iendPos j i i + s.score i (j + 1) := by
    unfold scoreSideway gain
    have hne : i ≠ iendPos := by omega
    rw [if_pos rfl]
    by_cases hch : t.language = .chinese
    · rw [if_pos hch, if_pos ⟨hch, hne⟩]
      omega
    · rw [if_neg hch, if_neg fun h => hch h.1]
      omega
  -- the best cell below, and every other cell below
  have hup : ∀ r', i < r' → gain t penaltyTable keyPos iendPos j i r' + s.score r' (j + 1) =
      scoreUpward t penaltyTable keyPos i j s - s.maxsco (i + 1) +
        (s.score r' (j + 1) - passCost t penaltyTable (i + 1) r') := by
    intro r' hr'
    unfold scoreUpward gain
    rw [if_neg (by omega)]
    by_cases hch : t.language = .chinese
    · rw [if_pos hch, if_pos hch]
      omega
    · rw [if_neg hch, if_neg hch]
      omega
  have hbest := hup (s.maxpos (i + 1)) hmax.ge
  rw [← hmax.sco] at hbest
  have hbelow : ∀ r', i < r' → r' ≤ iendPos →
      gain t penaltyTable keyPos iendPos j i r' + s.score r' (j + 1) <
          scoreUpward t penaltyTable keyPos i j s ∨
        gain t penaltyTable keyPos iendPos j i r' + s.score r' (j + 1) =
          scoreUpward t penaltyTable keyPos i j s ∧ s.maxpos (i + 1) ≤ r' := by
    intro r' hr' hle
    rw [hup r' hr']
    exact (hmax.max r' hr' hle).imp (fun h => by omega) fun h => ⟨by omega, h.2⟩
  unfold cellOf
  by_cases hkey : keyColumn t j = true
  · rw [if_pos hkey]
    refine ⟨i, rfl, ⟨hi.le, .inl rfl⟩, hside, fun r' ⟨hle, hr'⟩ => ?_⟩
    rcases hr' with rfl | ⟨-, hnot⟩
    · exact .inr ⟨hside.symm, .inl rfl⟩
    · rw [hkey] at hnot
      cases hnot
  rw [if_neg hkey]
  by_cases hle : scoreSideway t penaltyTable i j s ≤ scoreUpward t penaltyTable keyPos i j s
  · rw [if_pos hle]
    have hge := hmax.ge
    refine ⟨s.maxpos (i + 1), rfl, ⟨hmax.le, .inr ⟨hge, by simpa using hkey⟩⟩,
      by dsimp only; omega, fun r' ⟨hle', hr'⟩ => ?_⟩
    dsimp only
    rcases hr' with rfl | ⟨hr', -⟩
    · rw [← hside]
      rcases lt_or_eq_of_le hle with hlt | heq
      · exact .inl hlt
      · exact .inr ⟨heq, .inr ⟨hge, .inl rfl⟩⟩
    · refine (hbelow r' hr' hle').imp_right fun ⟨heq, hpos⟩ => ⟨heq, ?_⟩
      rcases Nat.lt_or_eq_of_le hpos with hlt | heq
      · exact .inr ⟨hge, .inr hlt⟩
      · exact .inl heq.symm
  · rw [if_neg hle]
    refine ⟨i, rfl, ⟨hi.le, .inl rfl⟩, hside, fun r' ⟨hle', hr'⟩ => ?_⟩
    dsimp only
    rcases hr' with rfl | ⟨hr', -⟩
    · exact .inr ⟨hside.symm, .inl rfl⟩
    · refine .inl ?_
      rcases hbelow r' hr' hle' with hlt | ⟨heq, -⟩ <;> omega

/-! ## All columns -/

/-- The columns from `j` to the end are filled. -/
structure ColumnsFilled (t : ParaText) (penaltyTable : Nat → Int) (keyPos iendPos jendPos : Nat)
    (s : DpState) (j : Nat) (x : DpState) : Prop where
  table : Table (· ≤ iendPos) (Moves t iendPos) Prefers (startSum t iendPos jendPos)
    (gain t penaltyTable keyPos iendPos) j jendPos x.score fun r c => (x.prepos r c).toNat
  nonneg : ∀ c, j ≤ c → c < jendPos → ∀ r ≤ iendPos, 0 ≤ x.prepos r c
  maxima : ∀ i ≤ iendPos, MaxRow t penaltyTable iendPos j i x
  last : ∀ r, x.prepos r jendPos = if r = iendPos then START_HERE else s.prepos r jendPos
  other : ∀ r c, c < j ∨ jendPos < c ∨ iendPos < r →
    x.score r c = s.score r c ∧ x.prepos r c = s.prepos r c

theorem columnsFilled_last (t : ParaText) (penaltyTable : Nat → Int) (keyPos iendPos jendPos : Nat)
    (s : DpState) : ColumnsFilled t penaltyTable keyPos iendPos jendPos s jendPos
      (dpColumn t penaltyTable keyPos iendPos jendPos jendPos s) := by
  unfold dpColumn
  rw [if_pos rfl]
  obtain ⟨hscore, hprepos, hmax⟩ := columnMax_spec t penaltyTable iendPos jendPos
    (lastColumn t iendPos jendPos s)
  have hlast := lastColumn_spec t iendPos jendPos s
  refine ⟨⟨fun r hr => ?_, fun c hc hlt => absurd hlt (Nat.not_lt.mpr hc),
    fun c hc hlt => absurd hlt (Nat.not_lt.mpr hc)⟩, fun c hc hlt => absurd hlt (Nat.not_lt.mpr hc),
    hmax, fun r => ?_, fun r c hrc => ?_⟩
  · rw [hscore]
    exact hlast.start r (Nat.zero_le r) hr
  · rw [hprepos, hlast.prepos]
    by_cases hr : r = iendPos
    · rw [if_pos hr, hr, setEntry_self]
    · rw [if_neg hr, setEntry_of_ne (.inl hr)]
  · rw [hscore, hprepos, hlast.prepos]
    exact ⟨hlast.other r c (by omega), setEntry_of_ne (by omega)⟩

theorem columnsFilled_step (hj : j < jendPos) {x : DpState}
    (h : ColumnsFilled t penaltyTable keyPos iendPos jendPos s (j + 1) x) :
    ColumnsFilled t penaltyTable keyPos iendPos jendPos s j
      (dpColumn t penaltyTable keyPos iendPos jendPos j x) := by
  unfold dpColumn
  rw [if_neg hj.ne]
  obtain ⟨hscore, hprepos, hmax⟩ := columnMax_spec t penaltyTable iendPos j
    (innerColumn t penaltyTable keyPos iendPos j x)
  have hin := innerColumn_spec t penaltyTable keyPos iendPos j x
  -- the columns behind `j` stay as they are
  have hkeep : ∀ r c, c ≠ j →
      (columnMax t penaltyTable iendPos j
        (innerColumn t penaltyTable keyPos iendPos j x)).score r c = x.score r c ∧
      (columnMax t penaltyTable iendPos j
        (innerColumn t penaltyTable keyPos iendPos j x)).prepos r c = x.prepos r c := by
    intro r c hc
    rw [hscore, hprepos]
    exact hin.other r c (.inl hc)
  -- the cells of column `j`
  have hcell : ∀ r ≤ iendPos, ∃ back : Nat,
      (innerColumn t penaltyTable keyPos iendPos j x).prepos r j = back ∧
      Moves t iendPos j r back ∧
      (innerColumn t penaltyTable keyPos iendPos j x).score r j =
        gain t penaltyTable keyPos iendPos j r back + x.score back (j + 1) ∧
      ∀ r', Moves t iendPos j r r' →
        gain t penaltyTable keyPos iendPos j r r' + x.score r' (j + 1) <
            (innerColumn t penaltyTable keyPos iendPos j x).score r j ∨
          gain t penaltyTable keyPos iendPos j r r' + x.score r' (j + 1) =
            (innerColumn t penaltyTable keyPos iendPos j x).score r j ∧
            (r' = back ∨ Prefers r back r') := by
    intro r hr
    rcases Nat.lt_or_eq_of_le hr with hlt | rfl
    · obtain ⟨hsco, hpre⟩ := Prod.mk.inj (hin.cell r (Nat.zero_le r) hlt)
      rw [hsco, hpre]
      exact cellOf_best hlt (h.maxima (r + 1) hlt)
    · have hgain : gain t penaltyTable keyPos r j r r = -PENALTY - penaltyTable j := by
        simp [gain]
      refine ⟨r, hin.bottom.2, ⟨Nat.le_refl r, .inl rfl⟩, ?_, fun r' ⟨hle, hr'⟩ => ?_⟩
      · rw [hin.bottom.1, hgain]
        omega
      · obtain rfl : r' = r := by omega
        refine .inr ⟨?_, .inl rfl⟩
        rw [hin.bottom.1, hgain]
        omega
  refine ⟨⟨fun r hr => ?_, fun c hc hlt r hr => ?_, fun c hc hlt r r' hr hr' hmove => ?_⟩,
    fun c hc hlt r hr => ?_, hmax, fun r => ?_, fun r c hrc => ?_⟩
  · rw [(hkeep r jendPos hj.ne').1]
    exact h.table.last r hr
  · rcases Nat.lt_or_eq_of_le hc with hjc | rfl
    · obtain ⟨hok, hnext, hval⟩ := h.table.attained c hjc hlt r hr
      rw [(hkeep r c hjc.ne').1, (hkeep r c hjc.ne').2, (hkeep _ (c + 1) (by omega)).1]
      exact ⟨hok, hnext, hval⟩
    · obtain ⟨back, hback, hmove, hval, -⟩ := hcell r hr
      rw [(hkeep _ (j + 1) (by omega)).1, hscore, hprepos, hback, Int.toNat_natCast]
      exact ⟨hmove.1, hmove, hval⟩
  · rcases Nat.lt_or_eq_of_le hc with hjc | rfl
    · rw [(hkeep r c hjc.ne').1, (hkeep r c hjc.ne').2, (hkeep _ (c + 1) (by omega)).1]
      exact h.table.upper c hjc hlt r r' hr hr' hmove
    · obtain ⟨back, hback, -, -, hbest⟩ := hcell r hr
      rw [(hkeep _ (j + 1) (by omega)).1, hscore, hprepos, hback, Int.toNat_natCast]
      exact hbest r' hmove
  · rcases Nat.lt_or_eq_of_le hc with hjc | rfl
    · rw [(hkeep r c hjc.ne').2]
      exact h.nonneg c hjc hlt r hr
    · obtain ⟨back, hback, -⟩ := hcell r hr
      rw [hprepos, hback]
      exact Int.natCast_nonneg back
  · rw [(hkeep r jendPos hj.ne').2]
    exact h.last r
  · rw [hscore, hprepos, (hin.other r c (by omega)).1, (hin.other r c (by omega)).2]
    exact h.other r c (by omega)

theorem dpSearchScope_filled (t : ParaText) (penaltyTable : Nat → Int) (iendPos : Nat)
    (hkey : keyPos < jendPos) (s : DpState) :
    ColumnsFilled t penaltyTable keyPos iendPos jendPos s (keyPos + 1)
      (dpSearchScope t penaltyTable keyPos iendPos jendPos s) := by
  unfold dpSearchScope
  rw [Loop.down_succ _ hkey]
  exact Loop.down_induction _ (ColumnsFilled t penaltyTable keyPos iendPos jendPos s) hkey
    (fun i x _ hi hx => columnsFilled_step hi hx)
    (columnsFilled_last t penaltyTable keyPos iendPos jendPos s)

theorem dpSearchScope_other (t : ParaText) (penaltyTable : Nat → Int) (iendPos : Nat)
    (hkey : keyPos < jendPos) (s : DpState) {r c : Nat} (hc : jendPos < c) :
    (dpSearchScope t penaltyTable keyPos iendPos jendPos s).score r c = s.score r c ∧
      (dpSearchScope t penaltyTable keyPos iendPos jendPos s).prepos r c = s.prepos r c :=
  (dpSearchScope_filled t penaltyTable iendPos hkey s).other r c (.inr (.inl hc))

/-- The scores behind the key do not depend on what was there before, up to the
end of the scope. -/
theorem dpSearchScope_score_congr (t : ParaText) (penaltyTable : Nat → Int) {iendPos i c : Nat}
    (hkey : keyPos < jendPos) (hi : i ≤ iendPos) (hc : keyPos < c)
    (h : ∀ r c, jendPos < c → s.score r c = s₀.score r c) :
    (dpSearchScope t penaltyTable keyPos iendPos jendPos s).score i c =
      (dpSearchScope t penaltyTable keyPos iendPos jendPos s₀).score i c := by
  rcases Nat.lt_or_ge jendPos c with hlt | hge
  · rw [(dpSearchScope_other t penaltyTable iendPos hkey s hlt).1,
      (dpSearchScope_other t penaltyTable iendPos hkey s₀ hlt).1, h i c hlt]
  · exact ((dpSearchScope_filled t penaltyTable iendPos hkey s).table.isGreatest hc hge hi).unique
      ((dpSearchScope_filled t penaltyTable iendPos hkey s₀).table.isGreatest hc hge hi)

/-! ## The back-pointers -/

theorem tracePath_cons {prepos : Nat → Nat → Int} {n row col : Nat} (h : 0 ≤ prepos row col) :
    tracePath prepos (n + 1) row col =
      (tracePath prepos n (prepos row col).toNat (col + 1)).map fun x => (row :: x.1, x.2) := by
  have hne : prepos row col ≠ START_HERE := by
    unfold START_HERE
    omega
  rw [tracePath, if_neg hne, if_neg (by omega)]

/-- What is traced follows the back-pointers as far as they are rows. -/
theorem tracePath_follow (iendPos : Nat) (prepos : Nat → Nat → Int) :
    ∀ (n m row col : Nat), n ≤ m →
      (∀ c, col ≤ c → c < col + n → ∀ r ≤ iendPos, 0 ≤ prepos r c ∧ (prepos r c).toNat ≤ iendPos) →
      row ≤ iendPos → ∃ (front : List Nat) (r : Nat), r ≤ iendPos ∧ front.length = n ∧
        follow (fun r c => (prepos r c).toNat) n col row = front ++ [r] ∧
        tracePath prepos m row col =
          (tracePath prepos (m - n) r (col + n)).map fun x => (front ++ x.1, x.2)
  | 0, m, row, col, _, _, hrow =>
      ⟨[], row, hrow, rfl, rfl, by simp⟩
  | n + 1, 0, _, _, hm, _, _ => absurd hm (Nat.not_succ_le_zero n)
  | n + 1, m + 1, row, col, hm, hin, hrow => by
      obtain ⟨hnonneg, hle⟩ := hin col (Nat.le_refl col) (by omega) row hrow
      obtain ⟨front, r, hr, hlen, hfollow, htrace⟩ := tracePath_follow iendPos prepos n m
        (prepos row col).toNat
        (col + 1) (by omega) (fun c hc hlt => hin c (by omega) (by omega)) hle
      refine ⟨row :: front, r, hr, by rw [List.length_cons, hlen], by rw [follow, hfollow]; rfl, ?_⟩
      rw [tracePath_cons hnonneg, htrace, Option.map_map, Nat.add_sub_add_right, Nat.add_right_comm,
        Nat.add_assoc]
      rfl

theorem tracePath_le {prepos : Nat → Nat → Int} : ∀ (n row col : Nat) {x : List Nat × Nat},
    tracePath prepos n row col = some x → col ≤ x.2
  | 0, _, _, _, h => by cases h
  | n + 1, row, col, x, h => by
      rw [tracePath] at h
      split at h
      · cases h
        exact Nat.le_refl col
      · split at h
        · cases h
        · obtain ⟨y, hy, rfl⟩ := Option.map_eq_some_iff.mp h
          have := tracePath_le n _ (col + 1) hy
          dsimp only
          omega

theorem rowPath_pairwise {path : List Nat} (h : RowPath t iendPos jendPos j path) :
    path.Pairwise (· ≤ ·) := by
  induction h with
  | last => exact List.pairwise_singleton _ _
  | step _ _ hmove _ ih =>
      refine List.pairwise_cons.mpr ⟨fun b hb => ?_, ih⟩
      have hle := hmove.2
      rcases List.mem_cons.mp hb with rfl | hb
      · omega
      · have := List.rel_of_pairwise_cons ih hb
        omega

/-- From row `i` the back-pointers lead through one row for each column, never
upwards, and end in column `jendPos`. -/
def TracesBack (prepos : Nat → Nat → Int) (keyPos jendPos i : Nat) : Prop :=
  ∃ path, tracePath prepos (BNST_MAX - (keyPos + 1)) i (keyPos + 1) = some (path, jendPos) ∧
    path.length = jendPos - keyPos ∧ path.Pairwise (· ≤ ·)

/-- The first of the best paths from row `i` starts on the bottom of the last
column, or where `START_HERE` has been left before. -/
def FromBottom (t : ParaText) (penaltyTable : Nat → Int) (keyPos iendPos jendPos : Nat)
    (prepos : Nat → Nat → Int) (i : Nat) : Prop :=
  ∃ path r, FirstPath t penaltyTable keyPos iendPos jendPos (keyPos + 1) path ∧
    path.head? = some i ∧ path.getLast? = some r ∧ (r = iendPos ∨ prepos r jendPos = START_HERE)

/-- What is traced from row `i` runs along the first of the best paths, and goes
on from its last row. -/
theorem dpSearchScope_trace (t : ParaText) (penaltyTable : Nat → Int) {iendPos i : Nat}
    (hkey : keyPos < jendPos) (hmax : jendPos < BNST_MAX) (hi : i ≤ iendPos) (s : DpState) :
    ∃ (front : List Nat) (r m : Nat),
      FirstPath t penaltyTable keyPos iendPos jendPos (keyPos + 1) (front ++ [r]) ∧
      (front ++ [r]).head? = some i ∧ front.length = jendPos - (keyPos + 1) ∧
      (dpSearchScope t penaltyTable keyPos iendPos jendPos s).prepos r jendPos =
        (if r = iendPos then START_HERE else s.prepos r jendPos) ∧
      tracePath (dpSearchScope t penaltyTable keyPos iendPos jendPos s).prepos
          (BNST_MAX - (keyPos + 1)) i (keyPos + 1) =
        (tracePath (dpSearchScope t penaltyTable keyPos iendPos jendPos s).prepos (m + 1) r
          jendPos).map fun x => (front ++ x.1, x.2) := by
  have hfill := dpSearchScope_filled t penaltyTable iendPos hkey s
  generalize dpSearchScope t penaltyTable keyPos iendPos jendPos s = x at hfill ⊢
  have hfirst := hfill.table.first_follow (n := jendPos - (keyPos + 1)) (Nat.le_refl _)
    (by omega) hi
  obtain ⟨front, r, hr, hlen, hfollow, htrace⟩ := tracePath_follow iendPos
    x.prepos (jendPos - (keyPos + 1)) (BNST_MAX - (keyPos + 1)) i (keyPos + 1) (by omega)
    (fun c hc hlt r hr => ⟨hfill.nonneg c hc (by omega) r hr,
      (hfill.table.attained c hc (by omega) r hr).1⟩) hi
  rw [hfollow] at hfirst
  have hhead : (front ++ [r]).head? = some i := by
    obtain ⟨l, hl⟩ := follow_eq_cons (fun r c => (x.prepos r c).toNat) (jendPos - (keyPos + 1))
      (keyPos + 1) i
    rw [← hfollow, hl]
    rfl
  have hcol : keyPos + 1 + (jendPos - (keyPos + 1)) = jendPos := by omega
  obtain ⟨m, hm⟩ : ∃ m, BNST_MAX - (keyPos + 1) - (jendPos - (keyPos + 1)) = m + 1 :=
    ⟨BNST_MAX - (keyPos + 1) - (jendPos - (keyPos + 1)) - 1, by omega⟩
  rw [hcol, hm] at htrace
  exact ⟨front, r, m, hfirst, hhead, hlen, hfill.last r, htrace⟩

theorem fromBottom_of_trace {i : Nat} {path : List Nat} (hkey : keyPos < jendPos)
    (hmax : jendPos < BNST_MAX) (hi : i ≤ iendPos)
    (hpath : tracePath (dpSearchScope t penaltyTable keyPos iendPos jendPos s).prepos
      (BNST_MAX - (keyPos + 1)) i (keyPos + 1) = some (path, jendPos)) :
    FromBottom t penaltyTable keyPos iendPos jendPos s.prepos i := by
  obtain ⟨front, r, m, hfirst, hhead, -, hlast, htrace⟩ :=
    dpSearchScope_trace t penaltyTable hkey hmax hi s
  refine ⟨front ++ [r], r, hfirst, hhead, by simp, ?_⟩
  by_contra hnot
  obtain ⟨hne, hstale⟩ := not_or.mp hnot
  rw [if_neg hne] at hlast
  -- beyond the last column there is no way back to it
  rw [htrace, tracePath, hlast, if_neg hstale] at hpath
  split at hpath
  · cases hpath
  · obtain ⟨y, hy, hyeq⟩ := Option.map_eq_some_iff.mp hpath
    obtain ⟨z, hz, rfl⟩ := Option.map_eq_some_iff.mp hy
    have hcol := tracePath_le m _ _ hz
    have heq := (Prod.mk.inj hyeq).2
    dsimp only at heq
    omega

theorem tracesBack_iff (t : ParaText) (penaltyTable : Nat → Int) {iendPos i : Nat}
    (hkey : keyPos < jendPos) (hmax : jendPos < BNST_MAX) (hi : i ≤ iendPos) (s : DpState) :
    TracesBack (dpSearchScope t penaltyTable keyPos iendPos jendPos s).prepos keyPos jendPos i ↔
      FromBottom t penaltyTable keyPos iendPos jendPos s.prepos i := by
  constructor
  · rintro ⟨path, hpath, -, -⟩
    exact fromBottom_of_trace hkey hmax hi hpath
  · rintro ⟨path, r', hpath, hpathHead, hpathLast, hend⟩
    obtain ⟨front, r, m, hfirst, hhead, hlen, hlast, htrace⟩ :=
      dpSearchScope_trace t penaltyTable hkey hmax hi s
    have heq : path = front ++ [r] := hfirst.unique Prefers.asymm hpath (hpathHead.trans hhead.symm)
    subst heq
    obtain rfl : r' = r := by simpa using hpathLast.symm
    have hstart : (dpSearchScope t penaltyTable keyPos iendPos jendPos s).prepos r' jendPos =
        START_HERE := by
      rw [hlast]
      split
      · rfl
      · exact hend.resolve_left ‹_›
    refine ⟨front ++ [r'], ?_, by rw [List.length_append, hlen, List.length_singleton]; omega,
      rowPath_pairwise hfirst.path⟩
    rw [htrace, tracePath, if_pos hstart]
    rfl

/-- **The scores of the scopes.** The scores of the column behind the key are the
greatest sums of the row paths. The back-pointers lead from row `i` back to the
last column if and only if the first of the best paths starts on its bottom. -/
theorem dpSearchScope_iff (t : ParaText) (penaltyTable : Nat → Int) {iendPos i : Nat}
    (hkey : keyPos < jendPos) (hmax : jendPos < BNST_MAX) (hi : i ≤ iendPos) (s : DpState) :
    IsGreatest {x | ∃ path, RowPath t iendPos jendPos (keyPos + 1) (i :: path) ∧
        rowSum t penaltyTable keyPos iendPos jendPos (keyPos + 1) (i :: path) = x}
      ((dpSearchScope t penaltyTable keyPos iendPos jendPos s).score i (keyPos + 1)) ∧
    (TracesBack (dpSearchScope t penaltyTable keyPos iendPos jendPos s).prepos keyPos jendPos i ↔
      FromBottom t penaltyTable keyPos iendPos jendPos s.prepos i) :=
  ⟨(dpSearchScope_filled t penaltyTable iendPos hkey s).table.isGreatest (Nat.le_refl _) hkey hi,
    tracesBack_iff t penaltyTable hkey hmax hi s⟩

/-- A key behind many bunsetsu of a high level, and a far one that is very similar. -/
def farRow : ParaText where
  bnstNum := 28
  language := .japanese
  feature _ _ := none
  spLevel i := if i = 25 then 1 else if i = 0 ∨ 25 < i then 0 else 6
  matchScore i j := if i = 25 ∧ j = 27 then 2 else if i = 0 ∧ j = 26 then 1100 else 0
  quoteData := []
  optInputParsed := false
  dpndHead _ := 0

/-- The arrays before the first sentence. -/
def blankDp : DpState := ⟨fun _ _ => 0, fun _ _ => 0, fun _ => 0, fun _ => 0⟩

theorem dpSearchScope_farRow : 25 < 27 ∧ 27 < BNST_MAX ∧ 0 ≤ 25 ∧
    IsGreatest {x | ∃ path, RowPath farRow 25 27 (25 + 1) (0 :: path) ∧
        rowSum farRow (penaltyTableOf farRow 25) 25 25 27 (25 + 1) (0 :: path) = x}
      ((dpSearchScope farRow (penaltyTableOf farRow 25) 25 25 27 blankDp).score 0 (25 + 1)) ∧
    (TracesBack (dpSearchScope farRow (penaltyTableOf farRow 25) 25 25 27 blankDp).prepos 25 27 0 ↔
      FromBottom farRow (penaltyTableOf farRow 25) 25 25 27 blankDp.prepos 0) :=
  have hkey : 25 < 27 := by decide
  have hmax : 27 < BNST_MAX := by decide
  have hi : 0 ≤ 25 := by decide
  ⟨hkey, hmax, hi, dpSearchScope_iff farRow (penaltyTableOf farRow 25) hkey hmax hi blankDp⟩

end Knp
