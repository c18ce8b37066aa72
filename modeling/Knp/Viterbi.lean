import Mathlib.Algebra.Field.Rat
import Mathlib.Algebra.Order.BigOperators.Ring.Finset
import Mathlib.Algebra.Order.Ring.Rat
import Mathlib.Tactic.NormNum
import Knp.Loop
import Knp.Trellis

/-!
# Named entities (`proper.c`)

`viterbi` picks a class for each morpheme of a sentence. `NE_mgr` is global:
the cells of the first column that `constraint` forbids are not written, and
keep what they had. The probabilities are the elements of an ordered ring.

> With two morphemes or more the classes obey the constraints on positions, and
> no classes that obey them have a greater product.

The single morpheme of a sentence is treated as a first one only, and may
become the head of an entity without a tail.
-/

namespace Knp

def NE_MODEL_NUMBER : Nat := 33

/-- `constraint`: the constraints on neighbours are broken. -/
def constraint (pre self : Int) (last : Bool) : Bool :=
  let pre := if pre = NE_MODEL_NUMBER - 1 then pre + 3 else pre
  let self := if self = NE_MODEL_NUMBER - 1 then self + 3 else self
  -- HEAD, MIDDLE and TAIL are 0, 1 and 2
  if pre = -1 then self % 4 = 1 || self % 4 = 2
  else if last && (self % 4 = 0 || self % 4 = 1) then true
  else if (pre % 4 = 0 || pre % 4 = 1) && self % 4 ≠ 1 && self % 4 ≠ 2 then true
  else if pre % 4 ≠ 0 && pre % 4 ≠ 1 && (self % 4 = 1 || self % 4 = 2) then true
  else (pre % 4 = 0 || pre % 4 = 1) && pre / 4 ≠ self / 4

/-! ## Classes -/

inductive Position
  | head | middle | tail | single
deriving DecidableEq

inductive NeClass
  | entity (type : Nat) (position : Position)
  | other
deriving DecidableEq

/-- `ne_code_to_tagposition` -/
def neCodeToTagposition (code : Nat) : NeClass :=
  if code = NE_MODEL_NUMBER - 1 then .other
  else .entity (code / 4) <|
    match code % 4 with
    | 0 => .head
    | 1 => .middle
    | 2 => .tail
    | _ => .single

/-- The type of the entity that goes on behind the class. -/
def NeClass.opens : NeClass → Option Nat
  | .entity type .head | .entity type .middle => some type
  | _ => none

/-- The type of the entity that the class goes on with. -/
def NeClass.continues : NeClass → Option Nat
  | .entity type .middle | .entity type .tail => some type
  | _ => none

/-- A HEAD or MIDDLE is followed by a MIDDLE or TAIL of its type, and these follow only such. -/
def NeClass.Follows (pre self : NeClass) : Prop := pre.opens = self.continues

instance (pre self : NeClass) : Decidable (pre.Follows self) :=
  inferInstanceAs (Decidable (_ = _))

/-- The number with which `constraint` calculates: OTHER counts as a SINGLE of its own type. -/
def shifted (code : Nat) : Nat := if code = 32 then 35 else code

theorem cast_shifted (code : Nat) :
    (if (code : Int) = NE_MODEL_NUMBER - 1 then (code : Int) + 3 else code) = (shifted code : Int) := by
  unfold shifted NE_MODEL_NUMBER
  split_ifs <;> omega

theorem opens_neCodeToTagposition (code : Nat) :
    (neCodeToTagposition code).opens =
      if shifted code % 4 = 0 ∨ shifted code % 4 = 1 then some (shifted code / 4) else none := by
  unfold neCodeToTagposition shifted NE_MODEL_NUMBER
  by_cases h : code = 32
  · simp [h, NeClass.opens]
  · have hlt : code % 4 < 4 := Nat.mod_lt _ (by decide)
    simp only [h, if_false]
    generalize code % 4 = r at hlt
    match r, hlt with
    | 0, _ | 1, _ | 2, _ | 3, _ => simp [NeClass.opens]

theorem continues_neCodeToTagposition (code : Nat) :
    (neCodeToTagposition code).continues =
      if shifted code % 4 = 1 ∨ shifted code % 4 = 2 then some (shifted code / 4) else none := by
  unfold neCodeToTagposition shifted NE_MODEL_NUMBER
  by_cases h : code = 32
  · simp [h, NeClass.continues]
  · have hlt : code % 4 < 4 := Nat.mod_lt _ (by decide)
    simp only [h, if_false]
    generalize code % 4 = r at hlt
    match r, hlt with
    | 0, _ | 1, _ | 2, _ | 3, _ => simp [NeClass.continues]

theorem constraint_first (self : Nat) (last : Bool) :
    constraint (-1) self last = false ↔ (neCodeToTagposition self).continues = none := by
  rw [continues_neCodeToTagposition]
  unfold constraint
  rw [cast_shifted]
  simp [NE_MODEL_NUMBER]
  omega

theorem constraint_follows (pre self : Nat) (last : Bool) :
    constraint pre self last = false ↔
      (neCodeToTagposition pre).Follows (neCodeToTagposition self) ∧
        (last = true → (neCodeToTagposition self).opens = none) := by
  have hne : ((shifted pre : Nat) : Int) ≠ -1 := by omega
  rw [NeClass.Follows, opens_neCodeToTagposition, continues_neCodeToTagposition,
    opens_neCodeToTagposition]
  unfold constraint
  rw [cast_shifted, cast_shifted]
  simp only [hne, if_false]
  generalize shifted pre = p
  generalize shifted self = q
  by_cases hp : p % 4 = 0 ∨ p % 4 = 1 <;> by_cases hq : q % 4 = 1 ∨ q % 4 = 2 <;>
    by_cases ho : q % 4 = 0 ∨ q % 4 = 1 <;> cases last <;> simp [hp, hq, ho] <;> omega

/-! ## The program -/

variable {K : Type*}

/-- What `viterbi` reads and writes of `NE_MANAGER`. -/
structure NeManager (K : Type*) where
  neResult : Int
  prob : Nat → K
  max : Nat → K
  parent : Nat → Int

abbrev NeMgr (K : Type*) := Nat → NeManager K

namespace NeMgr

/-- `NE_mgr` is static. -/
def zero [Zero K] : NeMgr K := fun _ => ⟨0, fun _ => 0, fun _ => 0, fun _ => 0⟩

/-- `apply_model` sets the probabilities of a sentence. -/
def withProb (m : NeMgr K) (prob : Nat → Nat → K) : NeMgr K :=
  fun i => { m i with prob := prob i }

def setCell (m : NeMgr K) (i j : Nat) (max : K) (parent : Int) : NeMgr K :=
  Function.update m i { m i with
    max := Function.update (m i).max j max
    parent := Function.update (m i).parent j parent }

def setResult (m : NeMgr K) (i : Nat) (code : Int) : NeMgr K :=
  Function.update m i { m i with neResult := code }

end NeMgr

section Program

variable [Mul K] [Zero K] [LinearOrder K]

/-- A turn of the inner loop. -/
def viterbiCell (mrphNum i j : Nat) (m : NeMgr K) : NeMgr K :=
  if i = 0 then
    if constraint (-1) j false then m else m.setCell 0 j ((m 0).prob j) (-1)
  else
    let kept := Trellis.keepMax NE_MODEL_NUMBER (fun k => constraint k j (i = mrphNum - 1))
      (fun k => (m (i - 1)).max k * (m i).prob j) (0, (m i).parent j)
    m.setCell i j kept.1 kept.2

/-- The loop over the columns. -/
def viterbiColumns (mrphNum : Nat) (m : NeMgr K) : NeMgr K :=
  Loop.upTo 0 mrphNum (fun i m => Loop.upTo 0 NE_MODEL_NUMBER (viterbiCell mrphNum i) m) m

/-- The last loop: the path is followed back. -/
def viterbiTrace : Nat → NeMgr K → NeMgr K
  | 0, m => m
  | i + 1, m => viterbiTrace i (m.setResult i ((m (i + 1)).parent (m (i + 1)).neResult.toNat))

def viterbi (mrphNum : Nat) (m : NeMgr K) : NeMgr K :=
  let m := viterbiColumns mrphNum m
  let last := Trellis.keepMax NE_MODEL_NUMBER (fun _ => false) (m (mrphNum - 1)).max
    (0, (m (mrphNum - 1)).neResult)
  viterbiTrace (mrphNum - 1) (m.setResult (mrphNum - 1) last.2)

/-- A sentence: its number of morphemes and their probabilities. -/
structure NeSentence (K : Type*) where
  mrphNum : Nat
  prob : Nat → Nat → K

/-- `viterbi` of one sentence after the other. -/
def viterbiAll (sentences : List (NeSentence K)) (m : NeMgr K) : NeMgr K :=
  sentences.foldl (fun m s => viterbi s.mrphNum (m.withProb s.prob)) m

end Program

/-! ## Cells -/

section Frame

variable {m : NeMgr K} {i i' j : Nat} {v : K} {p : Int}

theorem NeMgr.setCell_of_ne (h : i' ≠ i) : m.setCell i j v p i' = m i' :=
  Function.update_of_ne h _ _

theorem NeMgr.setCell_self : m.setCell i j v p i = { m i with
    max := Function.update (m i).max j v, parent := Function.update (m i).parent j p } :=
  Function.update_self ..

@[simp] theorem NeMgr.prob_setCell : (m.setCell i j v p i').prob = (m i').prob := by
  by_cases h : i' = i
  · rw [h, setCell_self]
  · rw [setCell_of_ne h]

@[simp] theorem NeMgr.prob_setResult : (m.setResult i p i').prob = (m i').prob := by
  by_cases h : i' = i
  · rw [h, setResult, Function.update_self]
  · rw [setResult, Function.update_of_ne h]

@[simp] theorem NeMgr.max_setResult : (m.setResult i p i').max = (m i').max := by
  by_cases h : i' = i
  · rw [h, setResult, Function.update_self]
  · rw [setResult, Function.update_of_ne h]

@[simp] theorem NeMgr.parent_setResult : (m.setResult i p i').parent = (m i').parent := by
  by_cases h : i' = i
  · rw [h, setResult, Function.update_self]
  · rw [setResult, Function.update_of_ne h]

end Frame

section Columns

variable [Mul K] [Zero K] [LinearOrder K] {mrphNum i i' j j' : Nat} {m : NeMgr K}

theorem viterbiCell_of_ne (h : i' ≠ i) : viterbiCell mrphNum i j m i' = m i' := by
  unfold viterbiCell
  split_ifs with h0 hc
  · rfl
  · exact NeMgr.setCell_of_ne (h0 ▸ h)
  · exact NeMgr.setCell_of_ne h

@[simp] theorem prob_viterbiCell : (viterbiCell mrphNum i j m i').prob = (m i').prob := by
  unfold viterbiCell
  split_ifs <;> simp

theorem viterbiCell_cell_of_ne (mrphNum i : Nat) (m : NeMgr K) (h : j' ≠ j) :
    (viterbiCell mrphNum i j m i).max j' = (m i).max j' ∧
      (viterbiCell mrphNum i j m i).parent j' = (m i).parent j' := by
  unfold viterbiCell
  split_ifs with h0 hc
  · exact ⟨rfl, rfl⟩
  · subst h0
    rw [NeMgr.setCell_self]
    exact ⟨Function.update_of_ne h _ _, Function.update_of_ne h _ _⟩
  · rw [NeMgr.setCell_self]
    exact ⟨Function.update_of_ne h _ _, Function.update_of_ne h _ _⟩

/-- What a turn leaves in its cell, from the column before. -/
structure CellFilled (mrphNum : Nat) (m : NeMgr K) (i j : Nat) : Prop where
  first : i = 0 → constraint (-1) j false = false → (m 0).max j = (m 0).prob j
  later : i ≠ 0 → ∃ s : K × Int, s.1 = 0 ∧
    Trellis.Kept NE_MODEL_NUMBER (fun k => constraint k j (i = mrphNum - 1))
      (fun k => (m (i - 1)).max k * (m i).prob j) s ((m i).max j, (m i).parent j)

theorem viterbiCell_filled : CellFilled mrphNum (viterbiCell mrphNum i j m) i j := by
  refine ⟨fun h hc => ?_, fun h => ⟨(0, (m i).parent j), rfl, ?_⟩⟩
  · subst h
    rw [viterbiCell, if_pos rfl, if_neg (ne_true_of_eq_false hc), NeMgr.setCell_self]
    exact Function.update_self ..
  · have hprev : viterbiCell mrphNum i j m (i - 1) = m (i - 1) := viterbiCell_of_ne (by omega)
    rw [hprev, prob_viterbiCell]
    unfold viterbiCell
    rw [if_neg h]
    simp only [NeMgr.setCell_self, Function.update_self, Prod.mk.eta]
    exact Trellis.keepMax_kept

/-- A cell is filled whatever happens to other columns than its own and the one before. -/
theorem CellFilled.congr {m' : NeMgr K} (h : CellFilled mrphNum m i j)
    (hprev : i ≠ 0 → (m' (i - 1)).max = (m (i - 1)).max) (hprob : (m' i).prob = (m i).prob)
    (hmax : (m' i).max j = (m i).max j) (hparent : (m' i).parent j = (m i).parent j) :
    CellFilled mrphNum m' i j := by
  refine ⟨fun h0 hc => ?_, fun h0 => ?_⟩
  · subst h0
    rw [hmax, hprob]
    exact h.first rfl hc
  · rw [hprev h0, hprob, hmax, hparent]
    exact h.later h0

/-- A cell that the first column forbids is not written. -/
theorem max_viterbiCell_of_constraint (hj : constraint (-1) j' false = true) :
    (viterbiCell mrphNum i j m 0).max j' = (m 0).max j' := by
  by_cases h0 : i = 0
  · subst h0
    by_cases h : j' = j
    · subst h
      rw [viterbiCell, if_pos rfl, if_pos hj]
    · exact (viterbiCell_cell_of_ne _ _ _ h).1
  · rw [viterbiCell_of_ne (Ne.symm h0)]

/-- A column after its loop: other columns are unchanged, its cells are filled. -/
theorem viterbiColumn_spec (mrphNum i : Nat) (m : NeMgr K) :
    let m' := Loop.upTo 0 NE_MODEL_NUMBER (viterbiCell mrphNum i) m
    (∀ i' ≠ i, m' i' = m i') ∧ (m' i).prob = (m i).prob ∧
      ∀ j < NE_MODEL_NUMBER, CellFilled mrphNum m' i j := by
  refine Loop.upTo_induction _ (fun jj m' => (∀ i' ≠ i, m' i' = m i') ∧ (m' i).prob = (m i).prob ∧
      ∀ j < jj, CellFilled mrphNum m' i j) (Nat.zero_le _) ?_
    ⟨fun _ _ => rfl, rfl, fun j hj => absurd hj (Nat.not_lt_zero j)⟩
  intro jj m' _ _ ⟨hother, hprob, hfilled⟩
  refine ⟨fun i' hi' => (viterbiCell_of_ne hi').trans (hother i' hi'),
    prob_viterbiCell.trans hprob, fun j hj => ?_⟩
  rcases Nat.lt_succ_iff_lt_or_eq.mp hj with hj | rfl
  · obtain ⟨hmax, hparent⟩ := viterbiCell_cell_of_ne mrphNum i m' (Nat.ne_of_lt hj)
    refine (hfilled j hj).congr (fun h0 => ?_) prob_viterbiCell hmax hparent
    rw [viterbiCell_of_ne (by omega)]
  · exact viterbiCell_filled

/-- The table after the loop over the columns. -/
theorem viterbiColumns_spec (mrphNum : Nat) (m : NeMgr K) :
    (∀ i, (viterbiColumns mrphNum m i).prob = (m i).prob) ∧
      ∀ i < mrphNum, ∀ j < NE_MODEL_NUMBER, CellFilled mrphNum (viterbiColumns mrphNum m) i j := by
  refine Loop.upTo_induction _ (fun ii m' => (∀ i, (m' i).prob = (m i).prob) ∧
      ∀ i < ii, ∀ j < NE_MODEL_NUMBER, CellFilled mrphNum m' i j) (Nat.zero_le _) ?_
    ⟨fun _ => rfl, fun i hi => absurd hi (Nat.not_lt_zero i)⟩
  intro ii m' _ _ ⟨hprob, hfilled⟩
  obtain ⟨hother, hprob', hcol⟩ := viterbiColumn_spec mrphNum ii m'
  refine ⟨fun i => ?_, fun i hi j hj => ?_⟩
  · by_cases h : i = ii
    · rw [h, hprob', hprob]
    · rw [hother i h, hprob]
  · rcases Nat.lt_succ_iff_lt_or_eq.mp hi with hi | rfl
    · have hi' := hother i (Nat.ne_of_lt hi)
      refine (hfilled i hi j hj).congr (fun h0 => ?_) (by rw [hi']) (by rw [hi']) (by rw [hi'])
      rw [hother (i - 1) (by omega)]
    · exact hcol j hj

theorem max_viterbiColumns_of_constraint (hj : constraint (-1) j' false = true) :
    (viterbiColumns mrphNum m 0).max j' = (m 0).max j' :=
  Loop.upTo_invariant _ (fun m' : NeMgr K => (m' 0).max j' = (m 0).max j')
    (fun _ _ h => Loop.upTo_invariant _ (fun m' : NeMgr K => (m' 0).max j' = (m 0).max j')
      (fun _ _ h => (max_viterbiCell_of_constraint hj).trans h) h) rfl

/-! ## Following the path back -/

omit [Mul K] [Zero K] [LinearOrder K]

@[simp] theorem max_viterbiTrace (n : Nat) (m : NeMgr K) :
    (viterbiTrace n m i).max = (m i).max := by
  induction n generalizing m with
  | zero => rfl
  | succ n ih => simp [viterbiTrace, ih]

theorem neResult_viterbiTrace_of_le (n : Nat) (m : NeMgr K) (h : n ≤ i) :
    (viterbiTrace n m i).neResult = (m i).neResult := by
  induction n generalizing m with
  | zero => rfl
  | succ n ih =>
      rw [viterbiTrace, ih _ (by omega), NeMgr.setResult, Function.update_of_ne (by omega)]

/-- Each result is read from the column behind it. -/
theorem neResult_viterbiTrace (n : Nat) (m : NeMgr K) (h : i < n) :
    (viterbiTrace n m i).neResult =
      (m (i + 1)).parent (viterbiTrace n m (i + 1)).neResult.toNat := by
  induction n generalizing m with
  | zero => exact absurd h (Nat.not_lt_zero i)
  | succ n ih =>
      rw [viterbiTrace]
      rcases Nat.lt_succ_iff_lt_or_eq.mp h with h | rfl
      · rw [ih _ h, NeMgr.parent_setResult]
      · rw [neResult_viterbiTrace_of_le _ _ le_rfl, neResult_viterbiTrace_of_le _ _ (Nat.le_succ i),
          NeMgr.setResult, Function.update_self, Function.update_of_ne (Nat.succ_ne_self i)]

end Columns

/-! ## The decoded classes -/

/-- The constraints on the classes of `n` morphemes. -/
structure NeValid (n : Nat) (s : Nat → Nat) : Prop where
  code : ∀ i < n, s i < NE_MODEL_NUMBER
  first : (neCodeToTagposition (s 0)).continues = none
  last : (neCodeToTagposition (s (n - 1))).opens = none
  follows : ∀ i, i + 1 < n →
    (neCodeToTagposition (s i)).Follows (neCodeToTagposition (s (i + 1)))

/-- The result obeys the constraints, and nothing that obeys them has a greater product. -/
def NeOptimal [CommMonoid K] [LE K] (n : Nat) (prob : Nat → Nat → K) (result : Nat → Int) : Prop :=
  ∃ s : Nat → Nat, (∀ i < n, result i = s i) ∧ NeValid n s ∧ ∀ t, NeValid n t →
    ∏ i ∈ Finset.range n, prob i (t i) ≤ ∏ i ∈ Finset.range n, prob i (s i)

/-- A class that is no part of a longer entity wins against every class that begins one. -/
def AloneWins [LinearOrder K] (prob : Nat → K) : Prop :=
  ∃ j < NE_MODEL_NUMBER, (neCodeToTagposition j).continues = none ∧
    (neCodeToTagposition j).opens = none ∧ ∀ h < NE_MODEL_NUMBER,
      (neCodeToTagposition h).continues = none → (neCodeToTagposition h).opens ≠ none →
      prob h < prob j ∨ (prob h = prob j ∧ j < h)

section Decoded

variable [CommSemiring K] [LinearOrder K] [IsStrictOrderedRing K] {n : Nat} {m : NeMgr K}

/-- No column holds anything where the first column forbids it. -/
def FirstFresh (m : NeMgr K) : Prop :=
  ∀ j : Nat, constraint (-1) j false = true → (m 0).max j = 0

omit [IsStrictOrderedRing K] in
theorem FirstFresh.viterbi (h : FirstFresh m) (n : Nat) : FirstFresh (viterbi n m) := by
  intro j hj
  rw [Knp.viterbi, max_viterbiTrace, NeMgr.max_setResult, max_viterbiColumns_of_constraint hj]
  exact h j hj

omit [IsStrictOrderedRing K] in
theorem firstFresh_viterbiAll (sentences : List (NeSentence K)) :
    FirstFresh (viterbiAll sentences (NeMgr.zero : NeMgr K)) :=
  List.foldlRecOn sentences _ (fun _ _ => rfl) fun m hm s _ =>
    FirstFresh.viterbi (m := m.withProb s.prob) hm s.mrphNum

def NeStart (j : Nat) : Prop := j < NE_MODEL_NUMBER ∧ constraint (-1) j false = false

def NeNext (n i k j : Nat) : Prop :=
  k < NE_MODEL_NUMBER ∧ j < NE_MODEL_NUMBER ∧ constraint k j (i = n - 1) = false

def neBest (m : NeMgr K) (i j : Nat) : K := if j < NE_MODEL_NUMBER then (m i).max j else 0

def neBack (m : NeMgr K) (i j : Nat) : Nat := ((m i).parent j).toNat

omit [IsStrictOrderedRing K] in
/-- The columns are a table of best scores. -/
theorem viterbiColumns_table (hfresh : FirstFresh m) (hn : 1 ≤ n) :
    Trellis.Table NeStart (NeNext n) (fun i j => (m i).prob j) (neBest (viterbiColumns n m))
      (neBack (viterbiColumns n m)) (n - 1) := by
  obtain ⟨hprob, hfilled⟩ := viterbiColumns_spec n m
  refine ⟨fun j hj => ?_, fun j hj => ?_, fun i hi k j hnext => ?_, fun i hi j hpos => ?_⟩
  · rw [neBest, if_pos hj.1, (hfilled 0 hn j hj.1).first rfl hj.2, hprob]
  · unfold neBest
    split_ifs with hlt
    · have hc : constraint (-1) j false = true := by
        by_contra hc
        exact hj ⟨hlt, eq_false_of_ne_true hc⟩
      rw [max_viterbiColumns_of_constraint hc, hfresh j hc]
    · rfl
  · obtain ⟨hk, hj, hc⟩ := hnext
    obtain ⟨s, -, hkept⟩ := (hfilled (i + 1) (by omega) j hj).later (Nat.succ_ne_zero i)
    have hle := hkept.upper k hk hc
    rw [hprob] at hle
    rw [neBest, neBest, if_pos hk, if_pos hj]
    exact hle
  · unfold neBest at hpos
    split_ifs at hpos with hj
    · obtain ⟨s, hs, hkept⟩ := (hfilled (i + 1) (by omega) j hj).later (Nat.succ_ne_zero i)
      obtain ⟨k, hk, hc, heq, -⟩ := hkept.place (by rwa [hs])
      obtain ⟨hmax, hparent⟩ := Prod.mk.inj heq
      rw [neBack, hparent, Int.toNat_natCast]
      refine ⟨⟨hk, hj, hc⟩, ?_⟩
      rw [neBest, neBest, if_pos hj, if_pos hk, hmax, hprob]
      rfl
    · exact absurd hpos (lt_irrefl 0)

theorem neNext_iff {i k j : Nat} : NeNext n i k j ↔ k < NE_MODEL_NUMBER ∧ j < NE_MODEL_NUMBER ∧
    (neCodeToTagposition k).Follows (neCodeToTagposition j) ∧
    (i = n - 1 → (neCodeToTagposition j).opens = none) := by
  rw [NeNext, constraint_follows, decide_eq_true_eq]

theorem neStart_iff {j : Nat} :
    NeStart j ↔ j < NE_MODEL_NUMBER ∧ (neCodeToTagposition j).continues = none := by
  rw [NeStart, constraint_first]

/-- Of two morphemes or more, the valid classes are the paths. -/
theorem neValid_iff_isPath (hn : 2 ≤ n) {s : Nat → Nat} :
    NeValid n s ↔ Trellis.IsPath NeStart (NeNext n) (n - 1) s := by
  constructor
  · intro h
    refine ⟨neStart_iff.mpr ⟨h.code 0 (by omega), h.first⟩, fun i hi => neNext_iff.mpr
      ⟨h.code i (by omega), h.code (i + 1) (by omega), h.follows i (by omega), fun hlast => ?_⟩⟩
    rw [hlast]
    exact h.last
  · intro h
    have hnext := fun i hi => neNext_iff.mp (h.follows i hi)
    refine ⟨fun i hi => ?_, (neStart_iff.mp h.first).2, ?_, fun i hi => (hnext i (by omega)).2.2.1⟩
    · by_cases hlast : i < n - 1
      · exact (hnext i hlast).1
      · obtain rfl : i = n - 2 + 1 := by omega
        exact (hnext (n - 2) (by omega)).2.1
    · have := (hnext (n - 2) (by omega)).2.2.2 (by omega)
      rwa [show n - 2 + 1 = n - 1 by omega] at this

/-- Of one morpheme, the valid class begins and ends with it. -/
theorem neValid_one_iff {s : Nat → Nat} :
    NeValid 1 s ↔ NeStart (s 0) ∧ (neCodeToTagposition (s 0)).opens = none := by
  rw [neStart_iff]
  constructor
  · intro h
    exact ⟨⟨h.code 0 Nat.one_pos, h.first⟩, h.last⟩
  · rintro ⟨⟨hcode, hfirst⟩, hlast⟩
    refine ⟨fun i hi => ?_, hfirst, hlast, fun i hi => absurd hi (by omega)⟩
    rwa [Nat.lt_one_iff.mp hi]

/-- Every class of every morpheme has a positive probability. -/
def PositiveProb (n : Nat) (prob : Nat → Nat → K) : Prop :=
  ∀ i < n, ∀ j < NE_MODEL_NUMBER, 0 < prob i j

omit [IsStrictOrderedRing K] in
theorem PositiveProb.nonneg {prob : Nat → Nat → K} (h : PositiveProb n prob) :
    Trellis.Nonneg (NeNext n) prob (n - 1) :=
  fun i hi _ j hnext => (h (i + 1) (by omega) j hnext.2.1).le

/-- That no morpheme is in an entity is always possible. -/
theorem isPath_other (n : Nat) : Trellis.IsPath NeStart (NeNext n) (n - 1) fun _ => 32 :=
  ⟨neStart_iff.mpr (by decide), fun _ _ => neNext_iff.mpr
    ⟨by decide, by decide, by decide, fun _ => by decide⟩⟩

/-- The last class has the best entry of its column and is the first one that has it; the others
are read back from it. -/
structure ReadBack (n : Nat) (m : NeMgr K) (s : Nat → Nat) : Prop where
  traces : Trellis.Traces (neBack m) (n - 1) s
  pos : 0 < neBest m (n - 1) (s (n - 1))
  upper : ∀ k, neBest m (n - 1) k ≤ neBest m (n - 1) (s (n - 1))
  least : ∀ k < s (n - 1), neBest m (n - 1) k < neBest m (n - 1) (s (n - 1))

omit [IsStrictOrderedRing K] in
theorem neBest_pos_iff {i j : Nat} :
    0 < neBest m i j ↔ j < NE_MODEL_NUMBER ∧ 0 < (m i).max j := by
  unfold neBest
  split_ifs with h
  · simp [h]
  · simp [h]

omit [IsStrictOrderedRing K] in
/-- The last loop over the classes. -/
theorem keepMax_last (i : Nat) (r : Int) {j : Nat} (hj : 0 < neBest m i j) :
    ∃ c : Nat, (Trellis.keepMax NE_MODEL_NUMBER (fun _ => false) (m i).max (0, r)).2 = c ∧
      0 < neBest m i c ∧ (∀ k, neBest m i k ≤ neBest m i c) ∧
      ∀ k < c, neBest m i k < neBest m i c := by
  have hkept : Trellis.Kept NE_MODEL_NUMBER (fun _ => false) (m i).max (0, r) _ :=
    Trellis.keepMax_kept
  obtain ⟨hj, hpos⟩ := neBest_pos_iff.mp hj
  have hle := hkept.upper j hj rfl
  obtain ⟨c, hc, -, heq, hfirst⟩ := hkept.place (lt_of_lt_of_le hpos hle)
  have hbest : neBest m i c = (m i).max c := if_pos hc
  rw [heq] at hle
  have hcpos : 0 < neBest m i c := hbest ▸ lt_of_lt_of_le hpos hle
  refine ⟨c, by rw [heq], hcpos, fun k => ?_, fun k hk => ?_⟩
  · rw [hbest]
    unfold neBest
    split_ifs with hk
    · have := hkept.upper k hk rfl
      rwa [heq] at this
    · exact (hbest ▸ hcpos).le
  · rw [hbest, neBest, if_pos (hk.trans hc)]
    exact hfirst k hk rfl

theorem viterbi_readBack (hfresh : FirstFresh m) (hn : 1 ≤ n)
    (hprob : PositiveProb n fun i j => (m i).prob j) :
    ∃ s : Nat → Nat, (∀ i < n, (viterbi n m i).neResult = s i) ∧
      ReadBack n (viterbiColumns n m) s := by
  have htable := viterbiColumns_table hfresh hn
  have hw := hprob.nonneg
  have hother : 0 < neBest (viterbiColumns n m) (n - 1) 32 := by
    refine lt_of_lt_of_le (Finset.prod_pos fun i hi => ?_)
      (htable.score_le hw le_rfl (isPath_other n))
    exact hprob i (by have := Finset.mem_range.mp hi; omega) 32 (by decide)
  obtain ⟨c, hc, hpos, hupper, hleast⟩ := keepMax_last (n - 1)
    (viterbiColumns n m (n - 1)).neResult hother
  -- the results of the trace, as numbers of classes
  have hlast : (viterbi n m (n - 1)).neResult = c := by
    rw [viterbi, neResult_viterbiTrace_of_le _ _ le_rfl, NeMgr.setResult, Function.update_self]
    exact hc
  have hback : ∀ i < n - 1, (viterbi n m i).neResult =
      (viterbiColumns n m (i + 1)).parent (viterbi n m (i + 1)).neResult.toNat := by
    intro i hi
    rw [viterbi, neResult_viterbiTrace _ _ hi, NeMgr.parent_setResult]
  have hs : ReadBack n (viterbiColumns n m) fun i => (viterbi n m i).neResult.toNat := by
    have hlast' : (viterbi n m (n - 1)).neResult.toNat = c := by rw [hlast, Int.toNat_natCast]
    refine ⟨fun i hi => ?_, ?_, ?_, ?_⟩
    · rw [hback i hi]
      rfl
    · rwa [hlast']
    · rwa [hlast']
    · rwa [hlast']
  refine ⟨_, fun i hi => (Int.toNat_of_nonneg ?_).symm, hs⟩
  by_cases hi' : i < n - 1
  · have hbest := htable.traces_pos hw le_rfl hs.traces hs.pos (i + 1) (by omega)
    obtain ⟨hj, hj'⟩ := neBest_pos_iff.mp hbest
    obtain ⟨s, hs0, hkept⟩ := ((viterbiColumns_spec n m).2 (i + 1) (by omega) _ hj).later
      (Nat.succ_ne_zero i)
    obtain ⟨k, -, -, heq, -⟩ := hkept.place (by rwa [hs0])
    rw [hback i hi', (Prod.mk.inj heq).2]
    exact Int.natCast_nonneg k
  · obtain rfl : i = n - 1 := by omega
    rw [hlast]
    exact Int.natCast_nonneg c

/-- What is read back is a path, and no path has a greater score. -/
theorem ReadBack.isPath {s : Nat → Nat} (hs : ReadBack n (viterbiColumns n m) s)
    (hfresh : FirstFresh m) (hn : 1 ≤ n) (hprob : PositiveProb n fun i j => (m i).prob j) :
    Trellis.IsPath NeStart (NeNext n) (n - 1) s ∧
      ∀ t, Trellis.IsPath NeStart (NeNext n) (n - 1) t →
        ∏ i ∈ Finset.range n, (m i).prob (t i) ≤ ∏ i ∈ Finset.range n, (m i).prob (s i) := by
  have htable := viterbiColumns_table hfresh hn
  obtain ⟨hpath, hscore⟩ := htable.traces hprob.nonneg le_rfl hs.traces hs.pos
  refine ⟨hpath, fun t ht => ?_⟩
  have hle := (htable.score_le hprob.nonneg le_rfl ht).trans (hs.upper (t (n - 1)))
  rw [← hscore, Trellis.score, Trellis.score, Nat.sub_add_cancel hn] at hle
  exact hle

omit [IsStrictOrderedRing K] in
theorem neBest_first (hfresh : FirstFresh m) {j : Nat} (hj : NeStart j) :
    neBest (viterbiColumns 1 m) 0 j = (m 0).prob j :=
  (viterbiColumns_table hfresh le_rfl).first j hj

omit [IsStrictOrderedRing K] in
/-- The class of a single morpheme ends with it just if such a class wins. -/
theorem ReadBack.opens_iff {s : Nat → Nat} (hs : ReadBack 1 (viterbiColumns 1 m) s)
    (hfresh : FirstFresh m) (hstart : NeStart (s 0)) :
    (neCodeToTagposition (s 0)).opens = none ↔ AloneWins (m 0).prob := by
  have hbest := neBest_first hfresh hstart
  constructor
  · intro hopens
    refine ⟨s 0, hstart.1, (neStart_iff.mp hstart).2, hopens, fun h hh hcont hne => ?_⟩
    have hbest' := neBest_first hfresh (neStart_iff.mpr ⟨hh, hcont⟩)
    have hle := hs.upper h
    rw [hbest, hbest'] at hle
    rcases hle.lt_or_eq with hlt | heq
    · exact .inl hlt
    · refine .inr ⟨heq, lt_of_le_of_ne (not_lt.mp fun hlt => ?_) fun h' => hne (h' ▸ hopens)⟩
      have := hs.least h hlt
      rw [hbest, hbest', heq] at this
      exact lt_irrefl _ this
  · rintro ⟨j, hj, hcont, -, hwins⟩
    by_contra hne
    have hbest' := neBest_first hfresh (neStart_iff.mpr ⟨hj, hcont⟩)
    have hle := hs.upper j
    rw [hbest, hbest'] at hle
    rcases hwins (s 0) hstart.1 (neStart_iff.mp hstart).2 hne with hlt | ⟨heq, hlt⟩
    · exact absurd hle (not_le.mpr hlt)
    · have := hs.least j hlt
      rw [hbest, hbest', heq] at this
      exact lt_irrefl _ this

/-- After any sentences, the classes are optimal: with two morphemes or more; with one, just if
the best class to begin with is also one to end with. -/
theorem viterbi_optimal_iff (sentences : List (NeSentence K)) (n : Nat) (hn : 1 ≤ n)
    (prob : Nat → Nat → K) (hprob : PositiveProb n prob) :
    NeOptimal n prob (fun i =>
        (viterbiAll (sentences ++ [⟨n, prob⟩]) (NeMgr.zero : NeMgr K) i).neResult) ↔
      2 ≤ n ∨ AloneWins (prob 0) := by
  have hfresh : FirstFresh ((viterbiAll sentences NeMgr.zero).withProb prob) :=
    firstFresh_viterbiAll sentences
  obtain ⟨s, hres, hs⟩ := viterbi_readBack hfresh hn hprob
  obtain ⟨hpath, hmax⟩ := hs.isPath hfresh hn hprob
  rw [viterbiAll, List.foldl_append]
  change NeOptimal n prob (fun i =>
    (viterbi n ((viterbiAll sentences NeMgr.zero).withProb prob) i).neResult) ↔ _
  by_cases h2 : 2 ≤ n
  · exact iff_of_true ⟨s, hres, (neValid_iff_isPath h2).mpr hpath,
      fun t ht => hmax t ((neValid_iff_isPath h2).mp ht)⟩ (.inl h2)
  · obtain rfl : n = 1 := by omega
    have hopens := hs.opens_iff hfresh hpath.first
    constructor
    · rintro ⟨s', hres', hvalid, -⟩
      have heq : s' 0 = s 0 := by
        have := (hres' 0 Nat.one_pos).symm.trans (hres 0 Nat.one_pos)
        exact_mod_cast this
      exact .inr (hopens.mp (heq ▸ hvalid.last))
    · rintro (h | h)
      · exact absurd h h2
      · exact ⟨s, hres, neValid_one_iff.mpr ⟨hpath.first, hopens.mpr h⟩, fun t ht => hmax t
          ⟨(neValid_one_iff.mp ht).1, fun i hi => absurd hi (Nat.not_lt_zero i)⟩⟩

end Decoded

/-- The class ORGANIZATION:head is the most probable one. -/
def headProb : Nat → Nat → ℚ := fun _ j => if j = 0 then 9 / 10 else 1 / 10

theorem headProb_positive (n : Nat) : PositiveProb n headProb := by
  intro i _ j _
  unfold headProb
  split_ifs <;> norm_num

theorem viterbi_optimal_pair : PositiveProb 2 headProb ∧
    NeOptimal 2 headProb (fun i => (viterbiAll ([] ++ [⟨2, headProb⟩]) NeMgr.zero i).neResult) :=
  ⟨headProb_positive 2,
    (viterbi_optimal_iff [] 2 (by decide) headProb (headProb_positive 2)).mpr (.inl le_rfl)⟩

/-- A sentence of one morpheme is decoded as the head of an organization. -/
theorem single_not_optimal : PositiveProb 1 headProb ∧
    ¬ NeOptimal 1 headProb
      (fun i => (viterbiAll ([] ++ [⟨1, headProb⟩]) NeMgr.zero i).neResult) := by
  refine ⟨headProb_positive 1, ?_⟩
  rintro ⟨s, hres, hvalid, -⟩
  have hcode : (viterbiAll [⟨1, headProb⟩] NeMgr.zero 0).neResult = 0 := by decide +kernel
  have hs : s 0 = 0 := by
    have := (hres 0 Nat.one_pos).symm.trans hcode
    exact_mod_cast this
  have := hvalid.last
  rw [hs] at this
  exact absurd this (by decide)

end Knp
