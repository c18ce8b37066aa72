import Knp.StarSeq
import Mathlib.Tactic.Ring

/-!
# The pseudo regular expression matcher (`regexp.c`)

`regexpmrphs_match`, `regexpbnsts_match` and `regexptags_match` are one
back-tracking recursion over two arrays, walked upwards (`FW_MATCHING`) or
downwards (`BW_MATCHING`) from a pair of pointers. `seqMatch` is that
recursion; the three source functions are `seqMatch` at the test of one
element.

A pointer is an `Int` offset into a memory `Int → α`, so that the model reads
exactly the cells the source reads. What a run reads is a window of cells
(`cells`), and `seqMatch_congr` says that its result depends on nothing else.
-/

namespace Knp

open StarSeq (Item prefixLens)

/-- `FW_MATCHING` / `BW_MATCHING`. -/
inductive FwOrBw
  | fw
  | bw
deriving DecidableEq, Repr

/-- `ALL_MATCHING` / `PART_MATCHING`. -/
inductive AllOrPart
  | all
  | part
deriving DecidableEq, Repr

/-- `SHORT_MATCHING` / `LONG_MATCHING`. -/
inductive ShortOrLong
  | short
  | long
deriving DecidableEq, Repr

/-- The pointer increment of a direction. -/
def FwOrBw.step : FwOrBw → Int
  | .fw => 1
  | .bw => -1

@[simp] theorem FwOrBw.step_fw : FwOrBw.fw.step = 1 := rfl

@[simp] theorem FwOrBw.step_bw : FwOrBw.bw.step = -1 := rfl

/-- `num` cells from `ptr` on, in the order a run visits them. -/
def cells {α : Type*} (mem : Int → α) (ptr step : Int) : Nat → List α
  | 0 => []
  | num + 1 => mem ptr :: cells mem (ptr + step) step num

theorem cells_zero {α : Type*} (mem : Int → α) (ptr step : Int) :
    cells mem ptr step 0 = [] := rfl

theorem cells_succ {α : Type*} (mem : Int → α) (ptr step : Int) (num : Nat) :
    cells mem ptr step (num + 1) = mem ptr :: cells mem (ptr + step) step num := rfl

@[simp] theorem cells_length {α : Type*} (mem : Int → α) (step : Int) :
    ∀ (num : Nat) (ptr : Int), (cells mem ptr step num).length = num
  | 0, _ => rfl
  | num + 1, ptr => by simp [cells, cells_length mem step num]

theorem cells_append {α : Type*} (mem : Int → α) (step : Int) (m : Nat) :
    ∀ (n : Nat) (ptr : Int),
      cells mem ptr step (n + m) = cells mem ptr step n ++ cells mem (ptr + step * n) step m
  | 0, ptr => by simp [cells]
  | n + 1, ptr => by
      rw [Nat.add_right_comm, cells, cells_append mem step m n, cells, List.cons_append]
      congr 3
      push_cast
      ring

theorem cells_take {α : Type*} (mem : Int → α) (ptr step : Int) {n num : Nat} (h : n ≤ num) :
    (cells mem ptr step num).take n = cells mem ptr step n := by
  obtain ⟨m, rfl⟩ := Nat.exists_eq_add_of_le h
  rw [cells_append]
  simp

/-- Walking down from the last cell visits the window of the upward walk in reverse. -/
theorem cells_down {α : Type*} (mem : Int → α) :
    ∀ (num : Nat) (ptr : Int),
      cells mem (ptr + num - 1) (-1) num = (cells mem ptr 1 num).reverse
  | 0, _ => rfl
  | num + 1, ptr => by
      have hlast : cells mem ptr 1 (num + 1) = cells mem ptr 1 num ++ [mem (ptr + num)] := by
        rw [cells_append]; simp [cells]
      have htop : ptr + ((num + 1 : Nat) : Int) - 1 = ptr + num := by push_cast; ring
      rw [hlast, List.reverse_append, List.reverse_singleton, List.singleton_append, cells, htop,
        ← cells_down mem num ptr]
      rfl

/-! ## The recursion -/

section Seq

variable {ρ δ : Type*} (astFlag : ρ → Bool) (elem : ρ → δ → Bool)

/-- `if ((return_num = ...) != -1) return return_num; else ...` -/
def firstMatch (returnNum other : Int) : Int :=
  if returnNum ≠ -1 then returnNum else other

/-- The two alternatives of a starred element, in the order of the mode:
skipping first is `SHORT_MATCHING`, reading first is `LONG_MATCHING`. -/
def starMatch (shortOrLong : ShortOrLong) (skip eat : Int) : Int :=
  match shortOrLong with
  | .short => firstMatch skip eat
  | .long => firstMatch eat skip

/-- The common body of `regexpmrphs_match`, `regexpbnsts_match` and
`regexptags_match`: the number of data elements left over, or `-1`. -/
def seqMatch (R : Int → ρ) (rPtr : Int) (rNum : Nat) (D : Int → δ) (dPtr : Int) (dNum : Nat)
    (fwOrBw : FwOrBw) (allOrPart : AllOrPart) (shortOrLong : ShortOrLong) : Int :=
  match rNum with
  | 0 => if dNum = 0 ∨ allOrPart = .part then dNum else -1
  | rNum + 1 =>
      if astFlag (R rPtr) then
        -- only the pattern advances (the star is skipped)
        let skip := seqMatch R (rPtr + fwOrBw.step) rNum D dPtr dNum
          fwOrBw allOrPart shortOrLong
        -- only the data advances (the star reads one element)
        let eat := match dNum with
          | 0 => -1
          | dNum + 1 =>
              if elem (R rPtr) (D dPtr) then
                seqMatch R rPtr (rNum + 1) D (dPtr + fwOrBw.step) dNum
                  fwOrBw allOrPart shortOrLong
              else -1
        starMatch shortOrLong skip eat
      else match dNum with
        | 0 => -1
        | dNum + 1 =>
            if elem (R rPtr) (D dPtr) then
              seqMatch R (rPtr + fwOrBw.step) rNum D (dPtr + fwOrBw.step) dNum
                fwOrBw allOrPart shortOrLong
            else -1
termination_by rNum + dNum

/-- A pattern element as a condition on one letter. -/
def toItem (p : ρ) : Item δ := ⟨astFlag p, elem p⟩

/-- The regular language of a pattern. -/
def patLang (ps : List ρ) : Language δ := StarSeq.lang (ps.map (toItem astFlag elem))

/-- The lengths of the prefixes of `w` in the language of the pattern. -/
def patLens (ps : List ρ) (w : List δ) : Set ℕ := prefixLens (ps.map (toItem astFlag elem)) w

variable {astFlag elem}
variable {R : Int → ρ} {D : Int → δ} {allOrPart : AllOrPart} {shortOrLong : ShortOrLong}

/-- A run depends on the two windows it walks over, not on where they lie or
in which direction they are walked. -/
theorem seqMatch_congr {R' : Int → ρ} {D' : Int → δ} {dir dir' : FwOrBw} :
    ∀ {rNum dNum : Nat} {rPtr dPtr rPtr' dPtr' : Int},
      cells R rPtr dir.step rNum = cells R' rPtr' dir'.step rNum →
      cells D dPtr dir.step dNum = cells D' dPtr' dir'.step dNum →
      seqMatch astFlag elem R rPtr rNum D dPtr dNum dir allOrPart shortOrLong =
        seqMatch astFlag elem R' rPtr' rNum D' dPtr' dNum dir' allOrPart shortOrLong
  | 0, dNum, _, _, _, _, _, _ => by simp [seqMatch]
  | rNum + 1, 0, rPtr, dPtr, rPtr', dPtr', hR, hD => by
      simp only [cells, List.cons.injEq] at hR
      rw [seqMatch, seqMatch, ← hR.1, seqMatch_congr hR.2 hD]
  | rNum + 1, dNum + 1, rPtr, dPtr, rPtr', dPtr', hR, hD => by
      have hR' := hR
      have hD' := hD
      simp only [cells, List.cons.injEq] at hR hD
      rw [seqMatch, seqMatch, ← hR.1, ← hD.1, seqMatch_congr hR.2 hD', seqMatch_congr hR' hD.2,
        seqMatch_congr hR.2 hD.2]
termination_by rNum dNum => rNum + dNum

/-- What a `PART_MATCHING` run returns: `-1` when no prefix matches, else what
is left over after the longest (shortest) matching prefix. -/
def PartResult (ps : List (Item δ)) (w : List δ) (shortOrLong : ShortOrLong) (res : Int) : Prop :=
  (res = -1 ∧ prefixLens ps w = ∅) ∨
    ∃ n : ℕ, res = (w.length : Int) - n ∧ 0 ≤ res ∧
      match shortOrLong with
      | .short => IsLeast (prefixLens ps w) n
      | .long => IsGreatest (prefixLens ps w) n

theorem PartResult.of_empty {ps : List (Item δ)} {w : List δ} (h : prefixLens ps w = ∅) :
    PartResult ps w shortOrLong (-1) := Or.inl ⟨rfl, h⟩

/-- Reading one letter shifts the lengths by one and leaves the rest as it is. -/
theorem PartResult.cons {ps qs : List (Item δ)} {x : δ} {w : List δ} {res : Int}
    (heq : prefixLens qs (x :: w) = Nat.succ '' prefixLens ps w)
    (h : PartResult ps w shortOrLong res) : PartResult qs (x :: w) shortOrLong res := by
  rcases h with ⟨hres, hnone⟩ | ⟨n, hres, hnn, hn⟩
  · exact Or.inl ⟨hres, by rw [heq, hnone, Set.image_empty]⟩
  · refine Or.inr ⟨n + 1, by rw [hres, List.length_cons]; push_cast; ring, hnn, ?_⟩
    rw [heq]
    cases shortOrLong with
    | short => exact StarSeq.isLeast_succ hn
    | long => exact StarSeq.isGreatest_succ hn

theorem PartResult.skip_short {a : Item δ} (ha : a.star = true) {ps : List (Item δ)}
    {w : List δ} {res : Int} (h : PartResult ps w .short res) (hres : res ≠ -1) :
    PartResult (a :: ps) w .short res := by
  rcases h with ⟨hm, -⟩ | ⟨n, hn, hnn, hleast⟩
  · exact absurd hm hres
  · exact Or.inr ⟨n, hn, hnn, StarSeq.isLeast_star ha hleast⟩

theorem PartResult.eat_long {a : Item δ} (ha : a.star = true) {ps : List (Item δ)} {x : δ}
    {w : List δ} (hx : a.cond x = true) {res : Int} (h : PartResult (a :: ps) w .long res)
    (hres : res ≠ -1) : PartResult (a :: ps) (x :: w) .long res := by
  rcases h with ⟨hm, -⟩ | ⟨n, hn, hnn, hgreatest⟩
  · exact absurd hm hres
  · exact Or.inr ⟨n + 1, by rw [hn, List.length_cons]; push_cast; ring, hnn,
      StarSeq.isGreatest_star ha hx hgreatest⟩

theorem PartResult.eq_empty {ps : List (Item δ)} {w : List δ} {res : Int}
    (h : PartResult ps w shortOrLong res) (hres : res = -1) : prefixLens ps w = ∅ := by
  rcases h with ⟨-, hnone⟩ | ⟨n, -, hnn, -⟩
  · exact hnone
  · omega

/-- With no letter for the star to read, only the skipping alternative is left. -/
theorem PartResult.skip {a : Item δ} (ha : a.star = true) {ps : List (Item δ)} {w : List δ}
    {res : Int} (hw : ∀ x q, w = x :: q → a.cond x = false)
    (h : PartResult ps w shortOrLong res) : PartResult (a :: ps) w shortOrLong res := by
  unfold PartResult
  rw [StarSeq.prefixLens_star_skip ha hw]
  exact h

theorem starMatch_neg_one (skip : Int) : starMatch shortOrLong skip (-1) = skip := by
  cases shortOrLong with
  | short =>
      simp only [starMatch, firstMatch]
      split
      · rfl
      · omega
  | long => rfl

/-- The step of a starred element: the skipping and the reading alternative,
tried in the order of the mode. -/
theorem PartResult.star {a : Item δ} (ha : a.star = true) {ps : List (Item δ)} {x : δ}
    {w : List δ} (hx : a.cond x = true) {skip eat : Int}
    (hskip : PartResult ps (x :: w) shortOrLong skip)
    (heat : PartResult (a :: ps) w shortOrLong eat) :
    PartResult (a :: ps) (x :: w) shortOrLong (starMatch shortOrLong skip eat) := by
  have hlens := StarSeq.prefixLens_star ha ps w hx
  cases shortOrLong with
  | short =>
      by_cases hs : skip = -1
      · rw [hskip.eq_empty hs, Set.empty_union] at hlens
        simpa [starMatch, firstMatch, hs] using heat.cons hlens
      · simpa [starMatch, firstMatch, hs] using hskip.skip_short ha hs
  | long =>
      by_cases he : eat = -1
      · rw [heat.eq_empty he, Set.image_empty, Set.union_empty] at hlens
        have hres : PartResult (a :: ps) (x :: w) .long skip := by
          unfold PartResult
          rw [hlens]
          exact hskip
        simpa [starMatch, firstMatch, he] using hres
      · simpa [starMatch, firstMatch, he] using heat.eat_long ha hx he

variable (astFlag elem R D shortOrLong) (dir : FwOrBw) in
/-- The `PART_MATCHING` run finds the globally longest (shortest) prefix. -/
theorem seqMatch_part :
    ∀ (rNum dNum : Nat) (rPtr dPtr : Int),
      PartResult ((cells R rPtr dir.step rNum).map (toItem astFlag elem))
        (cells D dPtr dir.step dNum) shortOrLong
        (seqMatch astFlag elem R rPtr rNum D dPtr dNum dir .part shortOrLong)
  | 0, dNum, rPtr, dPtr => by
      refine Or.inr ⟨0, by simp [seqMatch], by simp [seqMatch], ?_⟩
      simp only [cells, List.map_nil, StarSeq.prefixLens_nil]
      cases shortOrLong with
      | short => exact isLeast_singleton
      | long => exact isGreatest_singleton
  | rNum + 1, 0, rPtr, dPtr => by
      rw [seqMatch]
      cases ha : astFlag (R rPtr) with
      | false =>
          exact .of_empty (StarSeq.prefixLens_plain_nil (a := toItem astFlag elem (R rPtr)) ha)
      | true =>
          simp only [if_true, starMatch_neg_one]
          exact (seqMatch_part rNum 0 (rPtr + dir.step) dPtr).skip
            (a := toItem astFlag elem (R rPtr)) ha (by simp [cells_zero])
  | rNum + 1, dNum + 1, rPtr, dPtr => by
      rw [seqMatch]
      cases ha : astFlag (R rPtr) with
      | false =>
          cases hx : elem (R rPtr) (D dPtr) with
          | false =>
              exact .of_empty
                (StarSeq.prefixLens_plain_ne (a := toItem astFlag elem (R rPtr)) ha hx)
          | true =>
              exact (seqMatch_part rNum dNum (rPtr + dir.step) (dPtr + dir.step)).cons
                (StarSeq.prefixLens_plain (a := toItem astFlag elem (R rPtr)) ha hx)
      | true =>
          have hskip := seqMatch_part rNum (dNum + 1) (rPtr + dir.step) dPtr
          cases hx : elem (R rPtr) (D dPtr) with
          | false =>
              simp only [if_true, Bool.false_eq_true, if_false, starMatch_neg_one]
              refine hskip.skip (a := toItem astFlag elem (R rPtr)) ha ?_
              intro x q hxq
              simp only [cells, List.cons.injEq] at hxq
              exact hxq.1 ▸ hx
          | true =>
              exact hskip.star (a := toItem astFlag elem (R rPtr)) ha hx
                (seqMatch_part (rNum + 1) dNum rPtr (dPtr + dir.step))
termination_by rNum dNum => rNum + dNum

/-- What an `ALL_MATCHING` run returns. -/
def AllResult (ps : List (Item δ)) (w : List δ) (res : Int) : Prop :=
  (res = -1 ∧ w ∉ StarSeq.lang ps) ∨ (res = 0 ∧ w ∈ StarSeq.lang ps)

theorem AllResult.of_iff {ps qs : List (Item δ)} {v w : List δ} {res : Int}
    (h : AllResult ps w res) (hiff : v ∈ StarSeq.lang qs ↔ w ∈ StarSeq.lang ps) :
    AllResult qs v res := by
  unfold AllResult
  rw [hiff]
  exact h

theorem AllResult.ne_iff {ps : List (Item δ)} {w : List δ} {res : Int} (h : AllResult ps w res) :
    res ≠ -1 ↔ w ∈ StarSeq.lang ps := by
  rcases h with ⟨hres, hw⟩ | ⟨hres, hw⟩
  · simp [hres, hw]
  · simp [hres, hw]

/-- Whichever of the two alternatives is tried first, one success is a success. -/
theorem AllResult.star {ps qs rs : List (Item δ)} {u v w : List δ} {skip eat : Int}
    (hskip : AllResult ps u skip) (heat : AllResult qs v eat)
    (hiff : w ∈ StarSeq.lang rs ↔ u ∈ StarSeq.lang ps ∨ v ∈ StarSeq.lang qs) :
    AllResult rs w (starMatch shortOrLong skip eat) := by
  unfold AllResult
  rw [hiff]
  rcases hskip with ⟨rfl, hs⟩ | ⟨rfl, hs⟩
  · rcases heat with ⟨rfl, he⟩ | ⟨rfl, he⟩
    · cases shortOrLong <;> simp [starMatch, firstMatch, hs, he]
    · cases shortOrLong <;> simp [starMatch, firstMatch, he]
  · rcases heat with ⟨rfl, he⟩ | ⟨rfl, he⟩
    · cases shortOrLong <;> simp [starMatch, firstMatch, hs]
    · cases shortOrLong <;> simp [starMatch, firstMatch, hs]

variable (astFlag elem R D shortOrLong) (dir : FwOrBw) in
/-- The `ALL_MATCHING` run decides membership of the whole window. -/
theorem seqMatch_all :
    ∀ (rNum dNum : Nat) (rPtr dPtr : Int),
      AllResult ((cells R rPtr dir.step rNum).map (toItem astFlag elem))
        (cells D dPtr dir.step dNum)
        (seqMatch astFlag elem R rPtr rNum D dPtr dNum dir .all shortOrLong)
  | 0, 0, rPtr, dPtr => Or.inr (by simp [seqMatch, cells])
  | 0, dNum + 1, rPtr, dPtr => Or.inl (by simp [seqMatch, cells])
  | rNum + 1, 0, rPtr, dPtr => by
      rw [seqMatch]
      cases ha : astFlag (R rPtr) with
      | false =>
          refine Or.inl ⟨rfl, fun h => ?_⟩
          obtain ⟨x, q, hnil, -⟩ :=
            (StarSeq.mem_lang_plain (a := toItem astFlag elem (R rPtr)) ha).mp h
          simp [cells] at hnil
      | true =>
          simp only [if_true, starMatch_neg_one]
          refine (seqMatch_all rNum 0 (rPtr + dir.step) dPtr).of_iff ?_
          rw [cells_succ, List.map_cons, StarSeq.mem_lang_star_step ha]
          simp [cells_zero]
  | rNum + 1, dNum + 1, rPtr, dPtr => by
      rw [seqMatch]
      cases ha : astFlag (R rPtr) with
      | false =>
          cases hx : elem (R rPtr) (D dPtr) with
          | false =>
              refine Or.inl ⟨rfl, fun h => ?_⟩
              obtain ⟨x, q, hxq, hcond, -⟩ :=
                (StarSeq.mem_lang_plain (a := toItem astFlag elem (R rPtr)) ha).mp h
              simp only [cells, List.cons.injEq] at hxq
              rw [← hxq.1] at hcond
              exact Bool.false_ne_true (hx.symm.trans hcond)
          | true =>
              refine (seqMatch_all rNum dNum (rPtr + dir.step) (dPtr + dir.step)).of_iff ?_
              rw [cells_succ, List.map_cons, StarSeq.mem_lang_plain ha, cells_succ]
              simp [toItem, hx]
      | true =>
          have hskip := seqMatch_all rNum (dNum + 1) (rPtr + dir.step) dPtr
          cases hx : elem (R rPtr) (D dPtr) with
          | false =>
              simp only [if_true, Bool.false_eq_true, if_false, starMatch_neg_one]
              refine hskip.of_iff ?_
              rw [cells_succ, List.map_cons, StarSeq.mem_lang_star_step ha]
              simp [cells_succ, toItem, hx]
          | true =>
              refine hskip.star (seqMatch_all (rNum + 1) dNum rPtr (dPtr + dir.step)) ?_
              rw [cells_succ, List.map_cons, StarSeq.mem_lang_star_step ha]
              simp [cells_succ, toItem, hx]
termination_by rNum dNum => rNum + dNum

/-! ## The contract of a matcher -/

/-- A matcher of the source: pattern window, data window and the three modes. -/
abbrev Matcher (ρ δ : Type*) :=
  (Int → ρ) → Int → Nat → (Int → δ) → Int → Nat → FwOrBw → AllOrPart → ShortOrLong → Int

/-- A matcher decides the regular language of its pattern: `ALL_MATCHING` is
membership, `PART_MATCHING` leaves over what follows the longest (shortest)
matching prefix, and a `BW_MATCHING` run from the two last cells is the
`FW_MATCHING` run over the reversed arrays. -/
structure MatchesLanguage (astFlag : ρ → Bool) (elem : ρ → δ → Bool) (m : Matcher ρ δ) :
    Prop where
  all : ∀ (R : Int → ρ) (D : Int → δ) rPtr rNum dPtr dNum dir shortOrLong,
    m R rPtr rNum D dPtr dNum dir .all shortOrLong ≠ -1 ↔
      cells D dPtr dir.step dNum ∈ patLang astFlag elem (cells R rPtr dir.step rNum)
  part_none : ∀ (R : Int → ρ) (D : Int → δ) rPtr rNum dPtr dNum dir shortOrLong,
    m R rPtr rNum D dPtr dNum dir .part shortOrLong = -1 ↔
      ∀ p, p <+: cells D dPtr dir.step dNum →
        p ∉ patLang astFlag elem (cells R rPtr dir.step rNum)
  part_long : ∀ (R : Int → ρ) (D : Int → δ) rPtr rNum dPtr dNum dir,
    m R rPtr rNum D dPtr dNum dir .part .long ≠ -1 →
      ∃ L : ℕ, m R rPtr rNum D dPtr dNum dir .part .long = dNum - L ∧
        IsGreatest (patLens astFlag elem (cells R rPtr dir.step rNum)
          (cells D dPtr dir.step dNum)) L
  part_short : ∀ (R : Int → ρ) (D : Int → δ) rPtr rNum dPtr dNum dir,
    m R rPtr rNum D dPtr dNum dir .part .short ≠ -1 →
      ∃ L : ℕ, m R rPtr rNum D dPtr dNum dir .part .short = dNum - L ∧
        IsLeast (patLens astFlag elem (cells R rPtr dir.step rNum)
          (cells D dPtr dir.step dNum)) L
  bw_fw : ∀ (R R' : Int → ρ) (D D' : Int → δ) rPtr rPtr' rNum dPtr dPtr' dNum allOrPart
      shortOrLong,
    cells R' rPtr' 1 rNum = (cells R rPtr 1 rNum).reverse →
    cells D' dPtr' 1 dNum = (cells D dPtr 1 dNum).reverse →
      m R (rPtr + rNum - 1) rNum D (dPtr + dNum - 1) dNum .bw allOrPart shortOrLong =
        m R' rPtr' rNum D' dPtr' dNum .fw allOrPart shortOrLong

theorem seqMatch_part_none {dir : FwOrBw} {rNum dNum : Nat} {rPtr dPtr : Int} :
    seqMatch astFlag elem R rPtr rNum D dPtr dNum dir .part shortOrLong = -1 ↔
      ∀ p, p <+: cells D dPtr dir.step dNum →
        p ∉ patLang astFlag elem (cells R rPtr dir.step rNum) := by
  have h := seqMatch_part astFlag elem R D shortOrLong dir rNum dNum rPtr dPtr
  constructor
  · rintro hres p ⟨t, ht⟩ hp
    have hmem := StarSeq.mem_prefixLens.mpr ⟨p, t, ht.symm, rfl, hp⟩
    rw [h.eq_empty hres] at hmem
    exact hmem
  · intro hnone
    rcases h with ⟨hres, -⟩ | ⟨n, -, -, hn⟩
    · exact hres
    · have hmem : n ∈ patLens astFlag elem (cells R rPtr dir.step rNum)
          (cells D dPtr dir.step dNum) := by
        cases shortOrLong with
        | short => exact hn.1
        | long => exact hn.1
      obtain ⟨p, t, hw, -, hp⟩ := StarSeq.mem_prefixLens.mp hmem
      exact absurd hp (hnone p ⟨t, hw.symm⟩)

theorem seqMatch_matches (astFlag : ρ → Bool) (elem : ρ → δ → Bool) :
    MatchesLanguage astFlag elem (seqMatch astFlag elem) where
  all _ _ _ _ _ _ _ _ := (seqMatch_all ..).ne_iff
  part_none _ _ _ _ _ _ _ _ := seqMatch_part_none
  part_long R D rPtr rNum dPtr dNum dir hne := by
    rcases seqMatch_part astFlag elem R D .long dir rNum dNum rPtr dPtr
      with ⟨h, -⟩ | ⟨n, h, -, hn⟩
    · exact absurd h hne
    · exact ⟨n, by rw [h, cells_length], hn⟩
  part_short R D rPtr rNum dPtr dNum dir hne := by
    rcases seqMatch_part astFlag elem R D .short dir rNum dNum rPtr dPtr
      with ⟨h, -⟩ | ⟨n, h, -, hn⟩
    · exact absurd h hne
    · exact ⟨n, by rw [h, cells_length], hn⟩
  bw_fw R R' D D' rPtr rPtr' rNum dPtr dPtr' dNum allOrPart shortOrLong hR hD :=
    seqMatch_congr ((cells_down R rNum rPtr).trans hR.symm)
      ((cells_down D dNum dPtr).trans hD.symm)

end Seq

/-! ## The tests of one element -/

/-- `MAT_FLG`, `NOT_FLG`, `AST_FLG`, `QST_FLG`. -/
inductive Flg
  | mat
  | not
  | ast
  | qst
deriving DecidableEq, Repr

/-- An array of the source: its memory, the pointer to its first cell and its size. -/
structure Arr (α : Type*) where
  mem : Int → α
  ptr : Int
  size : Nat

/-- `REGEXPMRPH`. The `-1`- and `NULL`-terminated arrays are lists, and a
feature pattern is the list of its alternatives `ψ`. -/
structure RegexpMrph (ψ : Type*) where
  typeFlag : Flg
  astFlag : Flg
  hinshiNot : Flg
  hinshi : List Nat
  bunruiNot : Flg
  bunrui : List Nat
  kataNot : Flg
  katuyouKata : List Nat
  keiNot : Flg
  katuyouKei : List String
  goiNot : Flg
  goi : List String
  fPattern : List ψ

/-- `MRPH_DATA`, with its features `φ`. -/
structure MrphData (φ : Type*) where
  hinshi : Nat
  bunrui : Nat
  katuyouKata : Nat
  katuyouKei : Nat
  goi : String
  f : φ

/-- `REGEXPBNST`, also the element of a tag pattern. -/
structure RegexpBnst (ψ : Type*) where
  typeFlag : Flg
  astFlag : Flg
  mrphs : Arr (RegexpMrph ψ)
  fPattern : List ψ

/-- `BNST_DATA`: the morphemes of a bunsetsu and its features. -/
structure BnstData (φ : Type*) where
  mrph : Arr (MrphData φ)
  f : φ

/-- `TAG_DATA`: the morphemes of a base phrase and its features. -/
structure TagData (φ : Type*) where
  mrph : Arr (MrphData φ)
  f : φ

/-- The cast `(BNST_DATA *)d_ptr` of a tag. -/
def TagData.toBnstData {φ : Type*} (t : TagData φ) : BnstData φ := ⟨t.mrph, t.f⟩

/-- What the element tests look up outside `regexp.c`: the table of inflected
forms of the morphological dictionary, and `feature_AND_match`, the test of one
conjunction of features against a morpheme or a bunsetsu. -/
structure MatchEnv (ψ φ : Type*) where
  typeNo : Nat
  formNo : Nat
  formName : Nat → Nat → Option String
  mrphFeatureAndMatch : ψ → MrphData φ → Bool
  bnstFeatureAndMatch : ψ → BnstData φ → Bool

/-- A condition with its flag: as it is, or negated. -/
def flgMatch (flg : Flg) (ret : Bool) : Bool :=
  (flg = .mat && ret) || (flg = .not && !ret)

/-- `rule_HBK_cmp`: part of speech, subclass and inflection type. -/
def ruleHBKCmp (flg : Flg) (rData : List Nat) (data : Nat) : Bool :=
  match rData with
  | [] => true
  | 0 :: _ => true
  | _ => flgMatch flg (rData.contains data)

/-- `rule_Goi_cmp`: the vocabulary. -/
def ruleGoiCmp (flg : Flg) (rString : List String) (dString : String) : Bool :=
  match rString with
  | [] => true
  | r :: _ => if r = "*" then true else flgMatch flg (rString.contains dString)

section Members

variable {ψ φ : Type*} (env : MatchEnv ψ φ)

/-- `rule_Kei_cmp`: the inflected form. -/
def ruleKeiCmp (flg : Flg) (rString : List String) (kata kei : Nat) : Bool :=
  match rString with
  | [] => true
  | r :: _ =>
      if r = "*" then true
      else if kata = 0 ∨ kei = 0 ∨ env.typeNo ≤ kata ∨ env.formNo ≤ kei then false
      else match env.formName kata kei with
        | none => false
        | some name => flgMatch flg (rString.contains name)

/-- `feature_pattern_match`: no pattern, or one of the alternatives. -/
def featurePatternMatch (andMatch : ψ → Bool) (fr : List ψ) : Bool :=
  fr.isEmpty || fr.any andMatch

def regexpmrphMatch (ptr1 : RegexpMrph ψ) (ptr2 : MrphData φ) : Bool :=
  if ptr1.typeFlag = .qst then true
  else
    let retMrph := ruleHBKCmp ptr1.hinshiNot ptr1.hinshi ptr2.hinshi
      && ruleHBKCmp ptr1.bunruiNot ptr1.bunrui ptr2.bunrui
      && ruleHBKCmp ptr1.kataNot ptr1.katuyouKata ptr2.katuyouKata
      && ruleKeiCmp env ptr1.keiNot ptr1.katuyouKei ptr2.katuyouKata ptr2.katuyouKei
      && ruleGoiCmp ptr1.goiNot ptr1.goi ptr2.goi
    if flgMatch ptr1.typeFlag retMrph then
      featurePatternMatch (env.mrphFeatureAndMatch · ptr2) ptr1.fPattern
    else false

def RegexpMrph.isAst (r : RegexpMrph ψ) : Bool := r.astFlag = .ast

def RegexpBnst.isAst (r : RegexpBnst ψ) : Bool := r.astFlag = .ast

/-- `regexpmrphs_match` -/
def regexpmrphsMatch : Matcher (RegexpMrph ψ) (MrphData φ) :=
  seqMatch RegexpMrph.isAst (regexpmrphMatch env)

def regexpbnstMatch (ptr1 : RegexpBnst ψ) (ptr2 : BnstData φ) : Bool :=
  if ptr1.typeFlag = .qst then true
  else
    let retMrph := regexpmrphsMatch env ptr1.mrphs.mem ptr1.mrphs.ptr ptr1.mrphs.size
      ptr2.mrph.mem ptr2.mrph.ptr ptr2.mrph.size .fw .all .short ≠ -1
    if flgMatch ptr1.typeFlag retMrph then
      featurePatternMatch (env.bnstFeatureAndMatch · ptr2) ptr1.fPattern
    else false

/-- `regexpbnsts_match` -/
def regexpbnstsMatch : Matcher (RegexpBnst ψ) (BnstData φ) :=
  seqMatch RegexpBnst.isAst (regexpbnstMatch env)

/-- `regexptags_match` -/
def regexptagsMatch : Matcher (RegexpBnst ψ) (TagData φ) :=
  seqMatch RegexpBnst.isAst fun r d => regexpbnstMatch env r d.toBnstData

/-- Whatever the test of one element is, and so in particular for the three
matchers of the source, the recursion decides the language of the pattern. -/
theorem matchers_decide_language :
    (∀ (ρ δ : Type) (astFlag : ρ → Bool) (elem : ρ → δ → Bool),
      MatchesLanguage astFlag elem (seqMatch astFlag elem)) ∧
    MatchesLanguage RegexpMrph.isAst (regexpmrphMatch env) (regexpmrphsMatch env) ∧
    MatchesLanguage RegexpBnst.isAst (regexpbnstMatch env) (regexpbnstsMatch env) ∧
    MatchesLanguage RegexpBnst.isAst (fun r (d : TagData φ) => regexpbnstMatch env r d.toBnstData)
      (regexptagsMatch env) :=
  ⟨fun _ _ _ _ => seqMatch_matches _ _, seqMatch_matches _ _, seqMatch_matches _ _,
    seqMatch_matches _ _⟩

end Members

end Knp
