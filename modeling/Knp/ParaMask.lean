import Knp.ParaChoice
import Knp.ParaSpan

/-!
# The links of the coordinations in the mask (`para_dpnd.c`)

Each manager masks off its parts in the one `Mask_matrix` and gives the links
between the ends of its parts the value 2. A link stays as it is unless it
enters or leaves a part of another manager, where only the end of the last part
is open.

> If the check succeeds and no link crosses a part of another manager, all
> links have the value 2.

This is about all languages but Chinese, for which there are no links.
-/

namespace Knp

/-! ## Parts and links -/

/-- The parts of a manager follow each other. -/
structure Parted (m : ParaManager) : Prop where
  two_le : 2 ≤ m.partNum
  start_le : ∀ k < m.partNum, m.start k ≤ m.stop k
  stop_lt : ∀ k, k + 1 < m.partNum → m.stop k < m.start (k + 1)

/-- The link from bunsetsu `a` to bunsetsu `b` crosses a part of the manager. -/
def Crosses (a b : Nat) (m : ParaManager) : Prop :=
  ∃ k < m.partNum,
    (a < m.start k ∧ m.start k ≤ b ∧ b ≤ m.stop k ∧ ¬ (k = m.last ∧ b = m.stop k)) ∨
    (m.start k ≤ a ∧ a ≤ m.stop k ∧ m.stop k < b ∧ ¬ (k = m.last ∧ a = m.stop k))

/-- No link of the one manager crosses a part of the other. -/
def Clear (m other : ParaManager) : Prop :=
  ∀ k < m.last, ¬ Crosses (m.stop k) (m.stop (k + 1)) other

section Parts

variable {mgr other : ParaManager} {k l : Nat}

theorem Parted.last_lt (h : Parted mgr) : mgr.last < mgr.partNum := by
  have := h.two_le
  unfold ParaManager.last
  omega

theorem Parted.stop_lt_start (h : Parted mgr) (hkl : k < l) (hl : l < mgr.partNum) :
    mgr.stop k < mgr.start l := by
  induction l with
  | zero => exact absurd hkl (Nat.not_lt_zero k)
  | succ l ih =>
      rcases Nat.lt_or_eq_of_le (Nat.le_of_lt_succ hkl) with hlt | rfl
      · have hstart := ih hlt (Nat.lt_of_succ_lt hl)
        have hpart := h.start_le l (Nat.lt_of_succ_lt hl)
        have hnext := h.stop_lt l hl
        omega
      · exact h.stop_lt k hl

theorem Parted.stop_lt_stop (h : Parted mgr) (hkl : k < l) (hl : l < mgr.partNum) :
    mgr.stop k < mgr.stop l :=
  lt_of_lt_of_le (h.stop_lt_start hkl hl) (h.start_le l hl)

/-- A bunsetsu lies in one part only. -/
theorem Parted.part_unique (h : Parted mgr) {i : Nat} (hk : k < mgr.partNum) (hl : l < mgr.partNum)
    (hik : mgr.start k ≤ i ∧ i ≤ mgr.stop k) (hil : mgr.start l ≤ i ∧ i ≤ mgr.stop l) : k = l := by
  rcases Nat.lt_trichotomy k l with hlt | heq | hlt
  · have := h.stop_lt_start hlt hl
    omega
  · exact heq
  · have := h.stop_lt_start hlt hk
    omega

/-- Managers that are side by side, or the one inside a part of the other. -/
def Separate (m other : ParaManager) : Prop :=
  m.stop m.last < other.start 0 ∨ other.stop other.last < m.start 0 ∨
    (∃ k < other.partNum, other.start k ≤ m.start 0 ∧ m.stop m.last ≤ other.stop k) ∨
    ∃ k < m.partNum, m.start k ≤ other.start 0 ∧ other.stop other.last ≤ m.stop k

theorem Parted.start_zero_le (h : Parted mgr) (hk : k < mgr.partNum) :
    mgr.start 0 ≤ mgr.start k := by
  rcases Nat.eq_zero_or_pos k with rfl | hpos
  · exact le_rfl
  · have hfirst := h.start_le 0 (Nat.zero_lt_of_lt hk)
    have hlt := h.stop_lt_start hpos hk
    omega

theorem Parted.stop_le_last (h : Parted mgr) (hk : k < mgr.partNum) :
    mgr.stop k ≤ mgr.stop mgr.last := by
  rcases Nat.lt_or_ge k mgr.last with hlt | hge
  · exact (h.stop_lt_stop hlt h.last_lt).le
  · have : k = mgr.last := by
      unfold ParaManager.last at hge ⊢
      omega
    rw [this]

/-- What lies side by side or nested is clear of each other. -/
theorem Separate.clear (hm : Parted mgr) (ho : Parted other) (h : Separate mgr other) :
    Clear mgr other := by
  rintro k hk ⟨l, hl, hcross⟩
  have hk' : k + 1 < mgr.partNum := by
    unfold ParaManager.last at hk
    omega
  have hfirst := hm.start_zero_le (Nat.lt_of_succ_lt hk')
  have hpart := hm.start_le k (Nat.lt_of_succ_lt hk')
  have hnext := hm.stop_lt k hk'
  have hpart' := hm.start_le (k + 1) hk'
  have hlast := hm.stop_le_last hk'
  have ofirst := ho.start_zero_le hl
  have opart := ho.start_le l hl
  have olast := ho.stop_le_last hl
  rcases h with hside | hside | ⟨l', hl', hin⟩ | ⟨k', hk'', hin⟩
  · omega
  · omega
  · -- inside a part of the other
    rcases Nat.lt_trichotomy l l' with hlt | rfl | hlt
    · have := ho.stop_lt_start hlt hl'
      omega
    · omega
    · have := ho.stop_lt_start hlt hl
      omega
  · -- the other one lies in a part; a link only touches its last end
    have hend : other.stop l = other.stop other.last → l = other.last := by
      intro heq
      rcases Nat.lt_or_ge l other.last with hlt | hge
      · have := ho.stop_lt_stop hlt ho.last_lt
        omega
      · unfold ParaManager.last at hge ⊢
        omega
    rcases Nat.lt_trichotomy k' k with hlt | rfl | hlt
    · have := hm.stop_lt_start hlt (Nat.lt_of_succ_lt hk')
      omega
    · rcases hcross with ⟨_, _, _, hopen⟩ | ⟨_, _, _, hopen⟩
      · omega
      · exact hopen ⟨hend (by omega), by omega⟩
    · rcases Nat.lt_or_ge (k + 1) k' with hlt' | hge
      · have := hm.stop_lt_start hlt' hk''
        omega
      · obtain rfl : k' = k + 1 := by omega
        rcases hcross with ⟨_, _, _, hopen⟩ | ⟨_, _, _, hopen⟩
        · exact hopen ⟨hend (by omega), by omega⟩
        · omega

end Parts

/-! ## The masks of one manager -/

section Mask

variable {env : CheckEnv} {sp : ParaSentence} {mgr : ParaManager} {startPos : Nat} {invalid : Bool}
  {dFound : Nat → Bool} {mask : Nat → Nat → Nat} {a b : Nat}

theorem fillMask_of_not {p : Nat → Nat → Bool} {v : Nat} (h : ¬ p a b = true) :
    fillMask p v mask a b = mask a b := if_neg h

/-- The zeros of a part that is closed on both sides; for the first part the
zeros begin at `startPos`. -/
theorem closedPart_keep (bn : Nat) {pos s e : Nat} (hpos : pos ≤ s) (hin : ¬ (a < s ∧ s ≤ b ∧ b ≤ e))
    (hout : ¬ (s ≤ a ∧ a ≤ e ∧ e < b)) :
    fillMask (fun i j => s ≤ i && i ≤ e && e < j && j < bn) 0
      (fillMask (fun i j => i < pos && s ≤ j && j ≤ e) 0 mask) a b = mask a b := by
  rw [fillMask_of_not, fillMask_of_not]
  · intro hfill
    simp only [Bool.and_eq_true, decide_eq_true_eq] at hfill
    exact hin ⟨hfill.1.1.trans_le hpos, hfill.1.2, hfill.2⟩
  · intro hfill
    simp only [Bool.and_eq_true, decide_eq_true_eq] at hfill
    exact hout ⟨hfill.1.1.1, hfill.1.1.2, hfill.1.2⟩

/-- The zeros of the last part, whose end is open. -/
theorem openPart_keep (bn : Nat) {s e : Nat} (hin : ¬ (a < s ∧ s ≤ b ∧ b < e))
    (hout : ¬ (s ≤ a ∧ a < e ∧ e < b)) :
    fillMask (fun i j => s ≤ i && i < e && e < j && j < bn) 0
      (fillMask (fun i j => i < s && s ≤ j && j < e) 0 mask) a b = mask a b := by
  rw [fillMask_of_not, fillMask_of_not]
  · intro hfill
    simp only [Bool.and_eq_true, decide_eq_true_eq] at hfill
    exact hin ⟨hfill.1.1, hfill.1.2, hfill.2⟩
  · intro hfill
    simp only [Bool.and_eq_true, decide_eq_true_eq] at hfill
    exact hout ⟨hfill.1.1.1, hfill.1.1.2, hfill.1.2⟩

/-- The column above the end of a strong first part. -/
theorem strongPart_keep (strong : Prop) [Decidable strong] {s e : Nat} (hse : s ≤ e)
    (hin : ¬ (a < s ∧ s ≤ b ∧ b ≤ e)) :
    (if strong then fillMask (fun i j => i < s && j = e) 0 mask else mask) a b = mask a b := by
  split_ifs
  · refine fillMask_of_not fun hfill => ?_
    simp only [Bool.and_eq_true, decide_eq_true_eq] at hfill
    exact hin ⟨hfill.1, hfill.2 ▸ hse, hfill.2.le⟩
  · rfl

theorem linkMask_keep (mgr : ParaManager) (h : mask a b = 2) :
    Loop.upTo 0 mgr.last (fun k mask =>
      fillMask (fun i j => i = mgr.stop k && j = mgr.stop (k + 1)) 2 mask) mask a b = 2 := by
  refine Loop.upTo_invariant _ (fun mask : Nat → Nat → Nat => mask a b = 2)
    (fun k mask hv => ?_) h
  unfold fillMask
  split_ifs
  · rfl
  · exact hv

/-- Every bunsetsu of a part that stands at a link has a head. -/
def LinksFound (mgr : ParaManager) (dFound : Nat → Bool) (a b : Nat) : Prop :=
  ∀ k < mgr.partNum, mgr.start k ≤ a → a ≤ mgr.stop k → b = mgr.stop k ∨ b = mgr.stop mgr.last →
    dFound a = true

/-- The last stage: partial coordination. -/
theorem partialMask_keep (hfound : LinksFound mgr dFound a b) {v : Nat} (h : mask a b = v) :
    Loop.upTo 0 mgr.partNum (fun k mask =>
      fillMask (fun i j => mgr.start k ≤ i && i ≤ mgr.stop k && !dFound i &&
        (j = mgr.stop k || j = mgr.stop mgr.last)) 3 mask) mask a b = v := by
  refine Loop.upTo_induction _ (fun _ (mask : Nat → Nat → Nat) => mask a b = v)
    (Nat.zero_le mgr.partNum)
    (fun k mask _ hk hv => ?_) h
  rw [fillMask_of_not, hv]
  intro hfill
  simp only [Bool.and_eq_true, Bool.or_eq_true, Bool.not_eq_true', decide_eq_true_eq] at hfill
  have hd := hfound k hk hfill.1.1.1 hfill.1.1.2 hfill.2
  rw [hfill.1.2] at hd
  cases hd

/-- Another manager leaves the link alone. -/
theorem maskManager_of_clear (hm : Parted mgr) (hstart : startPos ≤ mgr.start 0)
    (hclear : ¬ Crosses a b mgr) (hfound : LinksFound mgr dFound a b) (h : mask a b = 2) :
    maskManager env sp mgr startPos invalid dFound mask a b = 2 := by
  have hzero : 0 < mgr.partNum := Nat.lt_of_lt_of_le Nat.zero_lt_two hm.two_le
  have hne : (0 : Nat) ≠ mgr.last := by
    have := hm.two_le
    unfold ParaManager.last
    omega
  -- what crosses a part is what the zeros are written to
  have hin : ∀ k < mgr.partNum, k ≠ mgr.last →
      ¬ (a < mgr.start k ∧ mgr.start k ≤ b ∧ b ≤ mgr.stop k) := by
    rintro k hk hlast ⟨h₁, h₂, h₃⟩
    exact hclear ⟨k, hk, Or.inl ⟨h₁, h₂, h₃, fun hend => hlast hend.1⟩⟩
  have hout : ∀ k < mgr.partNum, k ≠ mgr.last →
      ¬ (mgr.start k ≤ a ∧ a ≤ mgr.stop k ∧ mgr.stop k < b) := by
    rintro k hk hlast ⟨h₁, h₂, h₃⟩
    exact hclear ⟨k, hk, Or.inr ⟨h₁, h₂, h₃, fun hend => hlast hend.1⟩⟩
  have hinLast : ¬ (a < mgr.start mgr.last ∧ mgr.start mgr.last ≤ b ∧ b < mgr.stop mgr.last) := by
    rintro ⟨h₁, h₂, h₃⟩
    exact hclear ⟨_, hm.last_lt, Or.inl ⟨h₁, h₂, h₃.le, fun hend => h₃.ne hend.2⟩⟩
  have houtLast : ¬ (mgr.start mgr.last ≤ a ∧ a < mgr.stop mgr.last ∧ mgr.stop mgr.last < b) := by
    rintro ⟨h₁, h₂, h₃⟩
    exact hclear ⟨_, hm.last_lt, Or.inr ⟨h₁, h₂.le, h₃, fun hend => h₂.ne hend.2⟩⟩
  have hinner : ∀ mask : Nat → Nat → Nat, mask a b = 2 → Loop.upTo 1 mgr.last (fun k mask =>
      fillMask (fun i j => mgr.start k ≤ i && i ≤ mgr.stop k && mgr.stop k < j && j < env.bnstNum) 0
        (fillMask (fun i j => i < mgr.start k && mgr.start k ≤ j && j ≤ mgr.stop k) 0 mask))
      mask a b = 2 := by
    intro mask h
    refine Loop.upTo_induction _ (fun _ (mask : Nat → Nat → Nat) => mask a b = 2)
      (Nat.one_le_iff_ne_zero.mpr hne.symm)
      (fun k mask _ hk hv => ?_) h
    have hkn := hk.trans hm.last_lt
    rw [closedPart_keep _ le_rfl (hin k hkn hk.ne) (hout k hkn hk.ne), hv]
  have hfirst := (strongPart_keep ((sp.paraData (mgr.paraDataNum.headD 0)).status = .s)
    (hm.start_le 0 hzero) (hin 0 hzero hne)).trans
      ((closedPart_keep env.bnstNum hstart (hin 0 hzero hne) (hout 0 hzero hne)).trans h)
  have hlinks := linkMask_keep mgr
    ((openPart_keep env.bnstNum hinLast houtLast).trans (hinner _ hfirst))
  unfold maskManager
  cases invalid with
  | true => exact partialMask_keep hfound hlinks
  | false => exact hlinks

/-- A manager gives its own links the value 2. -/
theorem maskManager_own {k : Nat} (hk : k < mgr.last)
    (hfound : LinksFound mgr dFound (mgr.stop k) (mgr.stop (k + 1))) :
    maskManager env sp mgr startPos invalid dFound mask (mgr.stop k) (mgr.stop (k + 1)) = 2 := by
  have hlinks : ∀ mask : Nat → Nat → Nat, Loop.upTo 0 mgr.last (fun k mask =>
      fillMask (fun i j => i = mgr.stop k && j = mgr.stop (k + 1)) 2 mask) mask
        (mgr.stop k) (mgr.stop (k + 1)) = 2 := by
    intro mask
    refine Loop.upTo_induction _
      (fun i (mask : Nat → Nat → Nat) => k < i → mask (mgr.stop k) (mgr.stop (k + 1)) = 2)
      (Nat.zero_le mgr.last) (fun i mask _ _ hv hi => ?_) (fun h => absurd h (Nat.not_lt_zero k)) hk
    unfold fillMask
    split_ifs with hset
    · rfl
    · refine hv (lt_of_le_of_ne (Nat.le_of_lt_succ hi) ?_)
      rintro rfl
      simp at hset
  unfold maskManager
  cases invalid with
  | true => exact partialMask_keep hfound (hlinks _)
  | false => exact hlinks _

end Mask

/-! ## The bunsetsu with a head -/

section Heads

variable {env : CheckEnv} {sp : ParaSentence} {s : CheckState} {stop : Nat}

theorem headStep_dFound_of_ne {i j : Nat} {r : RangeState} (h : j ≠ i) :
    (headStep env s stop i r).dFound j = r.dFound j := by
  unfold headStep
  split
  · exact Function.update_of_ne h _ _
  · split <;> exact Function.update_of_ne h _ _

theorem headStep_dFound_self {i : Nat} {r : RangeState} (h : s.dCheck i = true) :
    (headStep env s stop i r).dFound i = true := by
  unfold headStep
  rw [if_pos h]
  exact Function.update_self _ _ _

/-- The loop over a range: a bunsetsu outside it is left alone, a checked one
has a head. -/
theorem headSteps_dFound : ∀ (l : List Nat) {r : RangeState} {j : Nat},
    (j ∈ l → s.dCheck j = true) → (j ∉ l → r.dFound j = true) →
      (l.foldl (fun r i => headStep env s stop i r) r).dFound j = true
  | [], _, _, _, hout => hout List.not_mem_nil
  | i :: l, r, j, hin, hout => by
      rw [List.foldl_cons]
      refine headSteps_dFound l (fun hj => hin (List.mem_cons_of_mem i hj)) fun hj => ?_
      by_cases hji : j = i
      · subst hji
        exact headStep_dFound_self (hin List.mem_cons_self)
      · rw [headStep_dFound_of_ne hji]
        refine hout fun hmem => ?_
        rcases List.mem_cons.mp hmem with heq | hmem
        · exact hji heq
        · exact hj hmem

theorem headSteps_dFound_of_not_mem : ∀ (l : List Nat) {r : RangeState} {j : Nat}, j ∉ l →
    (l.foldl (fun r i => headStep env s stop i r) r).dFound j = r.dFound j
  | [], _, _, _ => rfl
  | i :: l, r, j, hj => by
      rw [List.foldl_cons, headSteps_dFound_of_not_mem l fun h => hj (List.mem_cons_of_mem i h)]
      exact headStep_dFound_of_ne fun h => hj (h ▸ List.mem_cons_self)

theorem extendFront_le (limit : Nat) : ∀ (n : Nat) (r : RangeState),
    (extendFront env s stop limit n r).2 ≤ n
  | 0, _ => le_rfl
  | n + 1, r => by
      rw [extendFront]
      split
      · exact le_rfl
      · split
        · exact (extendFront_le limit n _).trans (Nat.le_succ n)
        · split
          · exact (extendFront_le limit n _).trans (Nat.le_succ n)
          · exact le_rfl

theorem extendFront_dFound (limit : Nat) : ∀ (n : Nat) (r : RangeState) {j : Nat}, n ≤ j →
    (extendFront env s stop limit n r).1 j = r.dFound j
  | 0, _, _, _ => rfl
  | n + 1, r, j, hj => by
      have hne : j ≠ n := (Nat.lt_of_succ_le hj).ne'
      rw [extendFront]
      split
      · rfl
      · split
        · rw [extendFront_dFound limit n _ (Nat.le_of_succ_le hj)]
          exact Function.update_of_ne hne _ _
        · split
          · rw [extendFront_dFound limit n _ (Nat.le_of_succ_le hj)]
            exact Function.update_of_ne hne _ _
          · rfl

variable {str limit startPos : Nat} {extendP : Bool}

/-- A range finds heads for its end and for what has been checked before. -/
theorem range_dFound {j : Nat} (hlo : str ≤ j) (hhi : j ≤ stop)
    (h : s.dCheck j = true ∨ j = stop) :
    (checkParaDStructRange env s str stop extendP limit startPos).2.1 j = true := by
  have hfold : ((List.range' str (stop - str)).reverse.foldl (fun r i => headStep env s stop i r)
      ⟨Function.update s.dFound stop true, fun _ => true, true⟩).dFound j = true := by
    refine headSteps_dFound _ (fun hmem => ?_) fun hmem => ?_
    · have hj := List.mem_range'_1.mp (List.mem_reverse.mp hmem)
      refine h.resolve_right fun heq => ?_
      omega
    · have hstop : j = stop := by
        by_contra hne
        exact hmem (List.mem_reverse.mpr (List.mem_range'_1.mpr (by omega)))
      rw [hstop]
      exact Function.update_self _ _ _
  unfold checkParaDStructRange
  dsimp only
  split
  · exact (extendFront_dFound limit _ _ hlo).trans hfold
  · exact hfold

theorem range_dFound_of_lt {j : Nat} (hj : j < str) (hle : str ≤ stop) :
    (checkParaDStructRange env s str stop false limit startPos).2.1 j = s.dFound j := by
  have hmem : j ∉ (List.range' str (stop - str)).reverse := by
    intro hmem
    have := List.mem_range'_1.mp (List.mem_reverse.mp hmem)
    omega
  exact (headSteps_dFound_of_not_mem _ hmem).trans (Function.update_of_ne (by omega) _ _)

theorem range_startPos_le (h : startPos ≤ str) :
    (checkParaDStructRange env s str stop extendP limit startPos).2.2 ≤ str := by
  unfold checkParaDStructRange
  dsimp only
  split
  · exact extendFront_le limit _ _
  · exact h

/-- The checks of all parts. -/
theorem checkParts_found {m : ParaManager} (hm : Parted m) :
    (checkParts env sp m s).2.1 ≤ m.start 0 ∧ ∀ k < m.partNum, ∀ j, m.start k ≤ j → j ≤ m.stop k →
      s.dCheck j = true ∨ j = m.stop k → (checkParts env sp m s).1 j = true := by
  rw [checkParts_eq]
  suffices h : ∀ n ≤ m.partNum, ∀ r : (Nat → Bool) × Nat × List Bool,
      (List.range n).foldl (checkPart env sp m s) (s.dFound, m.start 0, []) = r →
      r.2.1 ≤ m.start 0 ∧ ∀ k < n, ∀ j, m.start k ≤ j → j ≤ m.stop k →
        s.dCheck j = true ∨ j = m.stop k → r.1 j = true from h _ le_rfl _ rfl
  intro n
  induction n with
  | zero =>
      rintro - r rfl
      exact ⟨le_rfl, fun k hk => absurd hk (Nat.not_lt_zero k)⟩
  | succ n ih =>
      rintro hn r rfl
      rw [List.range_succ, List.foldl_append, List.foldl_cons, List.foldl_nil]
      obtain ⟨hpos, hfound⟩ := ih (Nat.le_of_succ_le hn) _ rfl
      generalize (List.range n).foldl _ _ = r at hpos hfound
      obtain ⟨dFound, startPos, error⟩ := r
      dsimp only [checkPart] at hpos hfound ⊢
      refine ⟨?_, fun k hk j hlo hhi hj => ?_⟩
      · cases n with
        | zero => exact range_startPos_le hpos
        | succ n => exact hpos
      · rcases Nat.lt_succ_iff_lt_or_eq.mp hk with hlt | rfl
        · have hnz : n ≠ 0 := (Nat.zero_lt_of_lt hlt).ne'
          have hbefore := hm.stop_lt_start hlt hn
          rw [decide_eq_false hnz, Bool.false_and, range_dFound_of_lt (by omega)
            (hm.start_le n hn)]
          exact hfound k hlt j hlo hhi hj
        · exact range_dFound hlo hhi hj

end Heads

/-! ## The whole check -/

/-- The links of a manager are set, and their bunsetsu count as checked. -/
def LinksSet (mgr : ParaManager) (s : CheckState) : Prop :=
  ∀ k < mgr.last, s.mask (mgr.stop k) (mgr.stop (k + 1)) = 2 ∧ s.dCheck (mgr.stop k) = true

section Check

variable {env : CheckEnv} {sp : ParaSentence} {st : ParaState} {s s' : CheckState} {m : Nat}
  {chosen : Option Nat}

/-- Without the adjustments for Chinese only the dependencies change. -/
theorem enterManager_eq (hlang : env.language ≠ .chinese) (h : enterManager env m s = some s') :
    s'.manager = s.manager ∧ s'.mask = s.mask ∧ s'.dCheck = s.dCheck := by
  unfold enterManager at h
  rw [if_neg hlang] at h
  obtain rfl := Option.some.inj h
  exact ⟨Function.update_eq_self m s.manager, rfl, rfl⟩

theorem closeManager_eq (hlang : env.language ≠ .chinese) (startPos : Nat) (invalid : Bool) :
    closeManager env sp m startPos invalid s = (true,
      { s with
        dCheck := fun k =>
          if startPos ≤ k ∧ k < (s.manager m).stop (s.manager m).last then true else s.dCheck k
        mask := maskManager env sp (s.manager m) startPos invalid s.dFound s.mask }) :=
  if_neg hlang

/-- A successful check sets the links of its manager and keeps the clear ones. -/
theorem checkManager_links (hlang : env.language ≠ .chinese) (hm : Parted (s.manager m))
    (h : checkManager env sp m s = some (true, chosen, s')) :
    s'.manager = s.manager ∧ LinksSet (s.manager m) s' ∧
      ∀ mgr, Clear mgr (s.manager m) → LinksSet mgr s → LinksSet mgr s' := by
  obtain ⟨s₁, henter, hrest⟩ := Option.bind_eq_some_iff.mp h
  obtain ⟨hmgr, hmask, hcheck⟩ := enterManager_eq hlang henter
  obtain ⟨⟨num, dFound, startPos, invalid⟩, hheads, hres⟩ := Option.map_eq_some_iff.mp hrest
  rw [← hmgr] at hm ⊢
  obtain ⟨_, -, heq⟩ := Option.map_eq_some_iff.mp hheads
  obtain ⟨hpos, hfound⟩ := @checkParts_found env sp s₁ _ hm
  have hdFound : dFound = (checkParts env sp (s₁.manager m) s₁).1 := congrArg (fun r => r.2.1) heq.symm
  have hstart : startPos = (checkParts env sp (s₁.manager m) s₁).2.1 :=
    congrArg (fun r => r.2.2.1) heq.symm
  rw [← hstart] at hpos
  rw [← hdFound] at hfound
  cases num with
  | some num => cases congrArg Prod.fst hres
  | none =>
      have hs' : (closeManager env sp m startPos invalid { s₁ with dFound := dFound }).2 = s' :=
        congrArg (fun r => r.2.2) hres
      rw [closeManager_eq hlang] at hs'
      obtain rfl := hs'
      refine ⟨rfl, fun k hk => ⟨maskManager_own hk fun l hl hlo hhi _ => ?_, if_pos ?_⟩,
        fun mgr hclear hset k hk => ⟨maskManager_of_clear hm hpos (hclear k hk)
          (fun l hl hlo hhi _ => ?_) ?_, ?_⟩⟩
      · have hkn := hk.trans hm.last_lt
        obtain rfl := hm.part_unique hl hkn ⟨hlo, hhi⟩ ⟨hm.start_le k hkn, le_rfl⟩
        exact hfound l hl _ hlo hhi (Or.inr rfl)
      · have hkn := hk.trans hm.last_lt
        have hfirst := hm.start_zero_le hkn
        have hpart := hm.start_le k hkn
        exact ⟨hpos.trans (hfirst.trans hpart), hm.stop_lt_stop hk hm.last_lt⟩
      · rw [hcheck] at hfound
        exact hfound l hl _ hlo hhi (Or.inl (hset k hk).2)
      · rw [hmask]
        exact (hset k hk).1
      · dsimp only
        rw [hcheck]
        split_ifs
        · rfl
        · exact (hset k hk).2

/-- What a successful check of `m` and the managers below it has done. -/
structure Checked (st : ParaState) (m : Nat) (s s' : CheckState) : Prop where
  manager_eq : s'.manager = st.manager
  keeps : ∀ q < st.paraMNum, LinksSet (st.manager q) s → LinksSet (st.manager q) s'
  sets : ∀ q, Descends st.manager m q → LinksSet (st.manager q) s'

/-- A loop that passes over no failure. -/
theorem checkEach_checked {check : Nat → CheckState → Option (Bool × Option Nat × CheckState)}
    {passOver : Nat → List Nat → Bool} (hpass : ∀ m ms, passOver m ms = false)
    (hlt : ∀ m < st.paraMNum, ∀ q, Descends st.manager m q → q < st.paraMNum) :
    ∀ (ms : List Nat) (chosen₀ : Option Nat) (s : CheckState) {chosen : Option Nat} {s' : CheckState},
      (∀ m ∈ ms, m < st.paraMNum) →
      (∀ m ∈ ms, ∀ s chosen s', s.manager = st.manager →
        check m s = some (true, chosen, s') → Checked st m s s') →
      s.manager = st.manager → checkEach check passOver ms chosen₀ s = some (true, chosen, s') →
      s'.manager = st.manager ∧
        (∀ q < st.paraMNum, LinksSet (st.manager q) s → LinksSet (st.manager q) s') ∧
        ∀ m ∈ ms, ∀ q, Descends st.manager m q → LinksSet (st.manager q) s'
  | [], _, s, _, _, _, _, hs, h => by
      cases h
      exact ⟨hs, fun _ _ hq => hq, fun m hm => nomatch hm⟩
  | m :: ms, chosen₀, s, chosen, s', hms, hcheck, hs, h => by
      obtain ⟨⟨ok₁, own, s₁⟩, h₁, hrest⟩ := Option.bind_eq_some_iff.mp h
      dsimp only at hrest
      rw [hpass, Bool.or_false] at hrest
      cases ok₁ with
      | false => cases hrest
      | true =>
          have hfirst := hcheck m List.mem_cons_self s own s₁ hs h₁
          obtain ⟨hmgr, hkeep, hset⟩ := checkEach_checked hpass hlt ms _ s₁
            (fun m hm => hms m (List.mem_cons_of_mem _ hm))
            (fun m hm => hcheck m (List.mem_cons_of_mem _ hm)) hfirst.manager_eq hrest
          refine ⟨hmgr, fun q hq hlinks => hkeep q hq (hfirst.keeps q hq hlinks),
            fun m' hm' q hdesc => ?_⟩
          rcases List.mem_cons.mp hm' with rfl | hm'
          · exact hkeep q (hlt _ (hms _ List.mem_cons_self) q hdesc) (hfirst.sets q hdesc)
          · exact hset m' hm' q hdesc

theorem checkParaDStruct_checked (hlang : env.language ≠ .chinese)
    (hparted : ∀ m < st.paraMNum, Parted (st.manager m))
    (hclear : ∀ m < st.paraMNum, ∀ m' < st.paraMNum, m ≠ m' →
      Clear (st.manager m) (st.manager m'))
    (hchild : ∀ m < st.paraMNum, ∀ c ∈ (st.manager m).child, c < st.paraMNum)
    (hlt : ∀ m < st.paraMNum, ∀ q, Descends st.manager m q → q < st.paraMNum) :
    ∀ (depth m : Nat) (s : CheckState) (chosen : Option Nat) (s' : CheckState), m < st.paraMNum →
      s.manager = st.manager → checkParaDStruct env sp depth m s = some (true, chosen, s') →
      Checked st m s s' := by
  intro depth
  induction depth with
  | zero =>
      intro m s chosen s' _ _ h
      cases h
  | succ depth ih =>
      intro m s chosen s' hm hs h
      obtain ⟨⟨ok₁, chosen₁, s₁⟩, hloop, hown⟩ := Option.bind_eq_some_iff.mp h
      cases ok₁ with
      | false => cases hown
      | true =>
          obtain ⟨⟨ok₂, own, s₂⟩, hcheck, heq⟩ := Option.bind_eq_some_iff.mp hown
          cases heq
          have hpass : ∀ c cs, passChild env c cs = false := by
            intro c cs
            simp [passChild, hlang]
          rw [hs] at hloop
          obtain ⟨hmgr, hkeep, hset⟩ := checkEach_checked hpass hlt _ none s (hchild m hm)
            (fun c hc s chosen s' => ih c s chosen s' (hchild m hm c hc)) hs hloop
          have hpart : Parted (s₁.manager m) := hmgr ▸ hparted m hm
          obtain ⟨hmgr', hownSet, hownKeep⟩ := checkManager_links hlang hpart hcheck
          rw [hmgr] at hmgr' hownSet hownKeep
          have hkeepOwn : ∀ q < st.paraMNum, LinksSet (st.manager q) s₁ →
              LinksSet (st.manager q) s' := by
            intro q hq hlinks
            by_cases hqm : q = m
            · exact hqm ▸ hownSet
            · exact hownKeep _ (hclear q hq m hm hqm) hlinks
          refine ⟨hmgr', fun q hq hlinks => hkeepOwn q hq (hkeep q hq hlinks), fun q hdesc => ?_⟩
          rcases Relation.ReflTransGen.cases_head hdesc with rfl | ⟨c, hc, hdesc'⟩
          · exact hownSet
          · exact hkeepOwn q (hlt m hm q hdesc) (hset c hc q hdesc')

/-- If the check succeeds and no link crosses a part of another manager, all
links have the value 2. -/
theorem checkDpndInPara_links (hlang : env.language ≠ .chinese) (hforest : st.IsForest)
    (hparted : ∀ m < st.paraMNum, Parted (st.manager m))
    (hclear : ∀ m < st.paraMNum, ∀ m' < st.paraMNum, m ≠ m' →
      Clear (st.manager m) (st.manager m'))
    (h : checkDpndInPara env sp st s = some (true, chosen, s')) :
    ∀ m < st.paraMNum, ∀ k < (st.manager m).last,
      s'.mask ((st.manager m).stop k) ((st.manager m).stop (k + 1)) = 2 := by
  intro m hm k hk
  have hchild : ∀ m < st.paraMNum, ∀ c ∈ (st.manager m).child, c < st.paraMNum :=
    fun m _ c hc => (hforest.parent_lt c m (hforest.parent_of_mem hc)).1
  have hlt : ∀ m < st.paraMNum, ∀ q, Descends st.manager m q → q < st.paraMNum := by
    intro m hm q hdesc
    induction hdesc with
    | refl => exact hm
    | tail _ hstep ih => exact hchild _ ih _ hstep
  obtain ⟨height, hheight, hbound⟩ := exists_height hforest.parent_lt hforest.acyclic
  obtain ⟨r, hr, hroot, hdesc⟩ := hforest.exists_root hheight hbound hm
  have hpass : ∀ c cs, passRoot env st c cs = false := by
    intro c cs
    simp [passRoot, hlang]
  have hroots : ∀ m ∈ st.roots, m < st.paraMNum :=
    fun m hm => List.mem_range.mp (List.mem_of_mem_filter hm)
  obtain ⟨-, -, hset⟩ := checkEach_checked hpass hlt _ none _ hroots
    (fun c hc s chosen s' =>
      checkParaDStruct_checked hlang hparted hclear hchild hlt _ c s chosen s' (hroots c hc)) rfl h
  have hmem : r ∈ st.roots := List.mem_filter.mpr ⟨List.mem_range.mpr hr, by simp [hroot]⟩
  exact (hset r hmem m hdesc k hk).1

end Check

/-- A Japanese sentence in which every bunsetsu can depend on every later one. -/
def freeEnv (bnstNum : Nat) : CheckEnv where
  bnstNum := bnstNum
  language := .japanese
  optParaFix := true
  feature := fun _ _ => false
  quote := fun _ _ => true
  chiNpStart := fun _ => -1
  chiNpEnd := fun _ => -1
  chiQuoteStart := fun _ => -1
  chiQuoteEnd := fun _ => -1

def freeState : CheckState where
  mask := fun _ _ => 1
  dpnd := fun _ _ => 1
  dCheck := fun _ => false
  dFound := fun _ => false
  restrict := fun _ _ => 1
  keyType := fun _ => .n
  manager := fun _ => emptyManager

/-- Two coordinations side by side. -/
def sideBySide : ParaSentence := .ofList 4 [⟨0, 0, 1, 5, .n⟩, ⟨2, 2, 3, 5, .n⟩] (by simp) (by simp)

/-- Their managers. -/
def sideBySideState : ParaState where
  rel := fun _ _ => .not
  manager := fun m =>
    if m = 0 then ⟨[0], [0, 1], [0, 1], none, [], .w⟩ else ⟨[1], [2, 3], [2, 3], none, [], .w⟩
  paraMNum := 2
  managerPtr := fun i => some i

theorem sideBySide_links : ∃ s' chosen,
    checkDpndInPara (freeEnv 4) sideBySide sideBySideState freeState = some (true, chosen, s') ∧
      s'.mask 0 1 = 2 := by
  obtain ⟨s', chosen, h⟩ : ∃ s' chosen,
      checkDpndInPara (freeEnv 4) sideBySide sideBySideState freeState = some (true, chosen, s') :=
    ⟨_, _, rfl⟩
  have hlink : ∀ m, (sideBySideState.manager m).parent = none ∧
      (sideBySideState.manager m).child = [] := by
    intro m
    unfold sideBySideState
    dsimp only
    split <;> exact ⟨rfl, rfl⟩
  have hforest : sideBySideState.IsForest := by
    refine ⟨fun m p hp => ?_, fun m hm => ?_, fun m p hp => ?_, fun m _ q => ?_⟩
    · rw [(hlink m).1] at hp
      cases hp
    · obtain ⟨a, -, ha⟩ := Relation.TransGen.tail'_iff.mp hm
      rw [(hlink a).1] at ha
      cases ha
    · rw [(hlink m).1] at hp
      cases hp
    · rw [(hlink q).2]
      exact List.not_mem_nil
  have hparted : ∀ m < 2, Parted (sideBySideState.manager m) := by
    intro m hm
    rcases (by omega : m = 0 ∨ m = 1) with rfl | rfl
    · exact ⟨by decide, by decide, fun k hk => by
        obtain rfl : k = 0 := Nat.lt_one_iff.mp (Nat.lt_of_succ_lt_succ hk)
        decide⟩
    · exact ⟨by decide, by decide, fun k hk => by
        obtain rfl : k = 0 := Nat.lt_one_iff.mp (Nat.lt_of_succ_lt_succ hk)
        decide⟩
  have hseparate : ∀ m < 2, ∀ m' < 2, m ≠ m' →
      Separate (sideBySideState.manager m) (sideBySideState.manager m') := by
    intro m hm m' hm' hne
    rcases (by omega : m = 0 ∧ m' = 1 ∨ m = 1 ∧ m' = 0) with ⟨rfl, rfl⟩ | ⟨rfl, rfl⟩
    · exact Or.inl (by decide)
    · exact Or.inr (Or.inl (by decide))
  exact ⟨s', chosen, h, checkDpndInPara_links (by decide) hforest hparted
    (fun m hm m' hm' hne => (hseparate m hm m' hm' hne).clear (hparted m hm) (hparted m' hm')) h
    0 (by decide) 0 (by decide)⟩

/-- The second coordination belongs below the first and ends with it; the third
one, whose first part begins with that bunsetsu, stands alone. -/
def sharedBunsetsu : ParaSentence :=
  .ofList 7 [⟨0, 0, 2, 5, .n⟩, ⟨2, 2, 4, 5, .n⟩, ⟨4, 5, 6, 5, .n⟩] (by simp) (by simp)

/-- The check succeeds, and the links of the first two are erased. -/
theorem sharedBunsetsu_links_erased : ∃ st s' chosen,
    detectParaRelation sharedBunsetsu (fun _ _ => .not) = .ok st ∧
      checkDpndInPara (freeEnv 7) sharedBunsetsu st freeState = some (true, chosen, s') ∧
      (st.manager 0).endPos = [0, 4] ∧ s'.mask 0 4 = 0 ∧
      (st.manager 1).endPos = [2, 4] ∧ s'.mask 2 4 = 0 := by
  obtain ⟨st, hst⟩ : ∃ st, detectParaRelation sharedBunsetsu (fun _ _ => .not) = .ok st := ⟨_, rfl⟩
  have hrun : (detectParaRelation sharedBunsetsu (fun _ _ => .not)).toOption.bind (fun st =>
      (checkDpndInPara (freeEnv 7) sharedBunsetsu st freeState).map fun r =>
        (r.1, (st.manager 0).endPos, r.2.2.mask 0 4, (st.manager 1).endPos, r.2.2.mask 2 4)) =
      some (true, [0, 4], 0, [2, 4], 0) := by decide +kernel
  rw [hst] at hrun
  obtain ⟨⟨ok, chosen, s'⟩, hcheck, heq⟩ := Option.map_eq_some_iff.mp hrun
  simp only [Prod.mk.injEq] at heq
  obtain ⟨rfl, hends⟩ := heq
  exact ⟨st, s', chosen, hst, hcheck, hends⟩

end Knp
