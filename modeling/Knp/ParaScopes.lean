import Mathlib.Data.Fintype.Basic
import Mathlib.Tactic.SplitIfs
import Knp.Scopes
import Knp.ParaRelation

/-!
# The coordinations of a sentence as nested scopes

When no pair of coordinations is `REL_BAD`, their scopes are nested in the
sense of `Scopes`, and the relation matrix that `detect_para_relation` has
after its three passes says how they lie: `REL_PAR` is `Sibling`, and the
relations that make a manager the child of another are `Below`.

> The pass to `REL_REV` only overwrites pairs without overlap, so it does not
> depend on its own changes.
-/

namespace Knp

/-! ## Two coordinations that are not in conflict -/

section Location

variable {a b : ParaData} {r : ParaRel}

/-- The table that `para_location` reads. -/
def relMatrix (strong : Bool) : Fin 4 → Fin 4 → ParaRel :=
  if strong then relMatrixStrong else relMatrixNormal

theorem relMatrix_eq_par_iff (s : Bool) (p q : Fin 4) :
    relMatrix s p q = .par ↔ p = 1 ∧ q = 1 := by
  revert s p q
  decide

theorem relMatrix_eq_pos_iff (s : Bool) (p q : Fin 4) :
    relMatrix s p q = .pos ↔ p = 0 ∧ q = 1 := by
  revert s p q
  decide

theorem relMatrix_eq_pre_iff (s : Bool) (p q : Fin 4) :
    relMatrix s p q = .pre ↔ p = 1 ∧ q = 0 := by
  revert s p q
  decide

theorem relMatrix_eq_in2_iff (s : Bool) (p q : Fin 4) :
    relMatrix s p q = .in2 ↔ (p = 0 ∨ p = 1) ∧ q = 3 := by
  revert s p q
  decide

theorem relMatrix_ne_not (s : Bool) (p q : Fin 4) : relMatrix s p q ≠ .not := by
  revert s p q
  decide

/-- The relations that make the earlier of two scopes a child of the later one. -/
def ParaRel.isBefore (r : ParaRel) : Bool := r = .bit || r = .pre || r = .rev || r = .in1

/-- The relations that make the later of two scopes a child of the earlier one. -/
def ParaRel.isUnder (r : ParaRel) : Bool := r = .pos || r = .in2

theorem relMatrix_isBefore_iff (s : Bool) (p q : Fin 4) (h : relMatrix s p q ≠ .bad) :
    (relMatrix s p q).isBefore ↔ (q = 0 ∨ q = 1) ∧ ¬ ((p = 0 ∨ p = 1) ∧ q = 1) := by
  revert s p q
  decide

theorem relMatrix_col_of_ne_bad (s : Bool) (p q : Fin 4) (h : relMatrix s p q ≠ .bad) :
    q = 0 ∨ q = 1 ∨ (q = 3 ∧ (p = 0 ∨ p = 1)) := by
  revert s p q
  decide

theorem relPre_eq_one_iff {a1 a2 b1 : Nat} : relPre a1 a2 b1 = 1 ↔ a2 + 1 = b1 := by
  unfold relPre
  split_ifs <;> simp_all
  all_goals omega

theorem relPos_eq_three_iff {a3 b2 b3 : Nat} (h : b2 < b3) : relPos a3 b2 b3 = 3 ↔ b3 ≤ a3 := by
  unfold relPos
  split_ifs <;> simp_all
  all_goals omega

theorem location_of_le (h : b.start ≤ a.jendPos) :
    location a b = relMatrix (b.status = .s) (relPre a.start a.keyPos b.start)
      (relPos a.jendPos b.keyPos b.jendPos) := by
  unfold location relMatrix
  rw [if_neg (not_lt.mpr h)]
  by_cases hs : b.status = .s <;> simp [hs]

theorem location_eq_not_iff : location a b = .not ↔ a.jendPos < b.start := by
  by_cases h : a.jendPos < b.start
  · simp [location, h]
  · rw [location_of_le (not_lt.mp h)]
    simp [h, relMatrix_ne_not]

/-- Every relation but `REL_NOT` is read off the table. -/
theorem location_eq_iff (hr : r ≠ .not) :
    location a b = r ↔ b.start ≤ a.jendPos ∧
      relMatrix (b.status = .s) (relPre a.start a.keyPos b.start)
        (relPos a.jendPos b.keyPos b.jendPos) = r := by
  by_cases h : b.start ≤ a.jendPos
  · simp [location_of_le h, h]
  · rw [location_eq_not_iff.mpr (not_le.mp h)]
    simp [h, hr.symm]

theorem location_eq_par_iff (ha : a.keyPos < a.jendPos) :
    location a b = .par ↔ b.start = a.keyPos + 1 ∧ a.jendPos = b.keyPos := by
  rw [location_eq_iff (by decide), relMatrix_eq_par_iff, relPre_eq_one_iff, relPos_eq_one_iff]
  omega

theorem location_eq_pos_iff (hb : b.start ≤ b.keyPos) :
    location a b = .pos ↔ a.keyPos + 1 < b.start ∧ a.jendPos = b.keyPos := by
  rw [location_eq_iff (by decide), relMatrix_eq_pos_iff, relPre_eq_zero_iff, relPos_eq_one_iff]
  omega

theorem location_eq_pre_iff (ha : a.keyPos < a.jendPos) :
    location a b = .pre ↔ b.start = a.keyPos + 1 ∧ a.jendPos < b.keyPos := by
  rw [location_eq_iff (by decide), relMatrix_eq_pre_iff, relPre_eq_one_iff, relPos_eq_zero_iff]
  omega

theorem location_eq_in2_iff (hb : b.start ≤ b.keyPos) (hjend : b.keyPos < b.jendPos) :
    location a b = .in2 ↔ a.keyPos < b.start ∧ b.jendPos ≤ a.jendPos := by
  rw [location_eq_iff (by decide), relMatrix_eq_in2_iff, relPre_eq_zero_iff, relPre_eq_one_iff,
    relPos_eq_three_iff hjend]
  omega

theorem nested_of_location (hb : b.start ≤ b.keyPos) (hjend : b.keyPos < b.jendPos)
    (hbad : location a b ≠ .bad) (hin : b.keyPos < a.jendPos) :
    a.keyPos < b.start ∧ b.jendPos ≤ a.jendPos := by
  rw [location_of_le (by omega)] at hbad
  rcases relMatrix_col_of_ne_bad _ _ _ hbad with h | h | ⟨h, hp⟩
  · rw [relPos_eq_zero_iff] at h
    omega
  · rw [relPos_eq_one_iff] at h
    omega
  · rw [relPos_eq_three_iff hjend] at h
    rw [relPre_eq_zero_iff, relPre_eq_one_iff] at hp
    omega

theorem location_isBefore_iff (hbad : location a b ≠ .bad) :
    (location a b).isBefore ↔
      b.start ≤ a.jendPos ∧ a.jendPos ≤ b.keyPos ∧
        ¬ (a.keyPos < b.start ∧ b.keyPos ≤ a.jendPos) := by
  by_cases h : b.start ≤ a.jendPos
  · rw [location_of_le h] at hbad ⊢
    rw [relMatrix_isBefore_iff _ _ _ hbad, relPre_eq_zero_iff, relPre_eq_one_iff,
      relPos_eq_zero_iff, relPos_eq_one_iff]
    omega
  · rw [location_eq_not_iff.mpr (not_le.mp h)]
    simp [ParaRel.isBefore, h]

end Location

/-! ## The scopes of a sentence -/

/-- The coordinations with a scope. -/
abbrev Coord (sp : ParaSentence) := {i : Fin sp.paraNum // sp.live i}

namespace Coord

variable {sp : ParaSentence}

def index (i : Coord sp) : Nat := i.1.1

def data (i : Coord sp) : ParaData := sp.paraData i.index

def mk' (i : Nat) (hi : i < sp.paraNum) (hl : sp.live i) : Coord sp := ⟨⟨i, hi⟩, hl⟩

@[simp] theorem index_mk' (i : Nat) (hi : i < sp.paraNum) (hl : sp.live i) :
    (mk' i hi hl).index = i := rfl

theorem index_lt (i : Coord sp) : i.index < sp.paraNum := i.1.2

theorem live (i : Coord sp) : sp.live i.index := i.2

theorem status_ne (i : Coord sp) : i.data.status ≠ .x := by
  have h := i.live
  rwa [ParaSentence.live, decide_eq_true_eq] at h

theorem index_injective : Function.Injective fun i : Coord sp => i.index := fun _ _ h =>
  Subtype.ext (Fin.ext h)

theorem start_le (i : Coord sp) : i.data.start ≤ i.data.keyPos :=
  sp.start_le i.index i.index_lt i.status_ne

theorem key_lt (i : Coord sp) : i.data.keyPos < i.data.jendPos :=
  sp.key_lt_jend i.index i.index_lt i.status_ne

theorem key_lt_key_iff (i j : Coord sp) : i.data.keyPos < j.data.keyPos ↔ i.index < j.index := by
  constructor
  · intro h
    by_contra hle
    rcases (show j.index ≤ i.index by omega).lt_or_eq with hlt | heq
    · have := sp.key_lt _ _ hlt i.index_lt
      exact absurd (show j.data.keyPos < i.data.keyPos from this) (by omega)
    · rw [index_injective heq] at h
      exact lt_irrefl _ h
  · exact fun h => sp.key_lt _ _ h j.index_lt

end Coord

theorem mem_orderedPairs {n i j : Nat} : (i, j) ∈ orderedPairs n ↔ i < j ∧ j < n := by
  simp only [orderedPairs, List.mem_flatMap, List.mem_range, List.mem_map, List.mem_range'_1,
    Prod.mk.injEq]
  constructor
  · rintro ⟨a, ha, b, hb, rfl, rfl⟩
    omega
  · exact fun h => ⟨i, by omega, j, by omega, rfl, rfl⟩

variable {sp : ParaSentence}

theorem badPair_eq_none_iff :
    badPair sp = none ↔ ∀ i j : Coord sp, i.index < j.index → location i.data j.data ≠ .bad := by
  rw [badPair, List.find?_eq_none]
  constructor
  · intro h i j hij hbad
    refine h (i.index, j.index) (mem_orderedPairs.mpr ⟨hij, j.index_lt⟩) ?_
    have hbad' : paraLocation sp i.index j.index = .bad := hbad
    simp [i.live, j.live, hbad']
  · intro h ⟨i, j⟩ hmem hbad
    obtain ⟨hij, hj⟩ := mem_orderedPairs.mp hmem
    simp only [Bool.and_eq_true, decide_eq_true_eq] at hbad
    exact h (.mk' i (hij.trans hj) hbad.1.1) (.mk' j hj hbad.1.2) hij hbad.2

/-- The coordinations of a sentence without `REL_BAD`. -/
def scopesOf (sp : ParaSentence) (h : badPair sp = none) : Scopes (Coord sp) where
  start i := i.data.start
  key i := i.data.keyPos
  stop i := i.data.jendPos
  near i j := paraBrotherP sp i.index j.index
  start_le_key i := i.start_le
  key_lt_stop i := i.key_lt
  key_injective i j hij := by
    have hk : i.data.keyPos = j.data.keyPos := hij
    rcases lt_trichotomy i.index j.index with hlt | heq | hgt
    · have := (Coord.key_lt_key_iff i j).mpr hlt
      omega
    · exact Coord.index_injective heq
    · have := (Coord.key_lt_key_iff j i).mpr hgt
      omega
  nested i j hij hj :=
    nested_of_location j.start_le j.key_lt
      (badPair_eq_none_iff.mp h i j ((Coord.key_lt_key_iff i j).mp hij)) hj
  near_mono i i' j hii' hij hi'j hnear := by
    simp only [paraBrotherP, decide_eq_true_eq] at hnear ⊢
    have hi : (sp.paraData i.index).keyPos < (sp.paraData i'.index).keyPos := hii'
    have hj : (sp.paraData i.index).jendPos = (sp.paraData j.index).keyPos := hij
    have hj' : (sp.paraData i'.index).jendPos = (sp.paraData j.index).keyPos := hi'j
    omega

section ScopesOf

variable (h : badPair sp = none) {i j : Coord sp}

theorem down_iff : (scopesOf sp h).Down i j ↔
    i.data.keyPos < j.data.start ∧ j.data.keyPos ≤ i.data.jendPos := Iff.rfl

theorem sibling_iff : (scopesOf sp h).Sibling i j ↔
    i.data.keyPos < j.data.start ∧ j.data.keyPos = i.data.jendPos ∧
      paraBrotherP sp i.index j.index :=
  ⟨fun hs => ⟨hs.1.1, hs.2⟩, fun hs => ⟨⟨hs.1, hs.2.1.le⟩, hs.2⟩⟩

theorem under_iff : (scopesOf sp h).Under i j ↔
    i.data.keyPos < j.data.start ∧ j.data.keyPos ≤ i.data.jendPos ∧
      ¬ (j.data.keyPos = i.data.jendPos ∧ paraBrotherP sp i.index j.index) := by
  rw [Scopes.Under, down_iff, sibling_iff]
  tauto

end ScopesOf

/-! ## The passes over the relation matrix -/

/-- The matrix before the pass to `REL_REV`. -/
def pairRel (sp : ParaSentence) (rel : RelMatrix) : RelMatrix :=
  brotherPass sp (locatePass sp rel)

section Pairs

variable (h : badPair sp = none) (rel : RelMatrix) {i j : Coord sp}

theorem pairRel_of_lt (hij : i.index < j.index) :
    pairRel sp rel i.index j.index =
      if location i.data j.data = .pos ∧ paraBrotherP sp i.index j.index then .par
      else location i.data j.data := by
  have hloc : locatePass sp rel i.index j.index = location i.data j.data := by
    simp only [locatePass, hij, j.index_lt, i.live, j.live, and_self, if_true]
    rfl
  simp only [pairRel, brotherPass, hloc, i.index_lt, j.index_lt, i.live, j.live, true_and]

/-- Two scopes that fit end to key without a gap are always of the same size. -/
theorem brother_of_par (hstart : j.data.start = i.data.keyPos + 1)
    (hj : i.data.jendPos = j.data.keyPos) : paraBrotherP sp i.index j.index := by
  have hs : (sp.paraData j.index).start = (sp.paraData i.index).keyPos + 1 := hstart
  have hk : (sp.paraData i.index).jendPos = (sp.paraData j.index).keyPos := hj
  simp only [paraBrotherP, decide_eq_true_eq]
  omega

theorem pairRel_eq_par_iff (hij : i.index < j.index) :
    pairRel sp rel i.index j.index = .par ↔ (scopesOf sp h).Sibling i j := by
  have hpar := location_eq_par_iff (a := i.data) (b := j.data) i.key_lt
  have hpos := location_eq_pos_iff (a := i.data) (b := j.data) j.start_le
  rw [pairRel_of_lt rel hij, sibling_iff]
  constructor
  · intro hr
    by_cases hb : location i.data j.data = .pos ∧ paraBrotherP sp i.index j.index
    · obtain ⟨hstart, hk⟩ := hpos.mp hb.1
      exact ⟨by omega, hk.symm, hb.2⟩
    · rw [if_neg hb] at hr
      obtain ⟨hstart, hk⟩ := hpar.mp hr
      exact ⟨by omega, hk.symm, brother_of_par hstart hk⟩
  · intro ⟨hstart, hk, hb⟩
    rcases (Nat.succ_le_of_lt hstart).lt_or_eq with hlt | heq
    · rw [if_pos ⟨hpos.mpr ⟨hlt, hk.symm⟩, hb⟩]
    · rw [hpar.mpr ⟨heq.symm, hk.symm⟩, if_neg (by simp)]

/-- The pairs that become `REL_PAR`, by the two functions that decide it. -/
theorem pairRel_eq_par (hij : i.index < j.index) :
    pairRel sp rel i.index j.index = .par ↔ paraLocation sp i.index j.index = .par ∨
      (paraLocation sp i.index j.index = .pos ∧ paraBrotherP sp i.index j.index) := by
  have hloc : location i.data j.data = paraLocation sp i.index j.index := rfl
  rw [pairRel_of_lt rel hij, hloc]
  split_ifs with hb
  · exact iff_of_true rfl (Or.inr hb)
  · rw [or_iff_left hb]

theorem pairRel_eq_pos_iff (hij : i.index < j.index) :
    pairRel sp rel i.index j.index = .pos ↔
      (scopesOf sp h).Under i j ∧ j.data.keyPos = i.data.jendPos := by
  have hpos := location_eq_pos_iff (a := i.data) (b := j.data) j.start_le
  have hkey := (Coord.key_lt_key_iff i j).mpr hij
  have hj := j.key_lt
  rw [pairRel_of_lt rel hij, under_iff]
  constructor
  · intro hr
    have hb : ¬ (location i.data j.data = .pos ∧ paraBrotherP sp i.index j.index) := fun hb => by
      rw [if_pos hb] at hr
      exact absurd hr (by decide)
    rw [if_neg hb] at hr
    obtain ⟨hstart, hk⟩ := hpos.mp hr
    exact ⟨⟨by omega, hk.ge, fun hs => hb ⟨hr, hs.2⟩⟩, hk.symm⟩
  · intro ⟨⟨hstart, hle, hns⟩, hk⟩
    have hgap : j.data.start ≠ i.data.keyPos + 1 := fun hs =>
      hns ⟨hk, brother_of_par hs hk.symm⟩
    rw [if_neg fun hb => hns ⟨hk, hb.2⟩, hpos]
    omega

theorem pairRel_eq_pre_iff (hij : i.index < j.index) :
    pairRel sp rel i.index j.index = .pre ↔
      j.data.start = i.data.keyPos + 1 ∧ i.data.jendPos < j.data.keyPos := by
  rw [pairRel_of_lt rel hij, ← location_eq_pre_iff i.key_lt]
  split_ifs with hb
  · simp [hb.1]
  · rfl

theorem pairRel_eq_not_iff (hij : i.index < j.index) :
    pairRel sp rel i.index j.index = .not ↔ i.data.jendPos < j.data.start := by
  rw [pairRel_of_lt rel hij, ← location_eq_not_iff]
  split_ifs with hb
  · simp [hb.1]
  · rfl

theorem pairRel_isUnder_iff (hij : i.index < j.index) :
    (pairRel sp rel i.index j.index).isUnder ↔ (scopesOf sp h).Under i j := by
  have hin2 := location_eq_in2_iff (a := i.data) (b := j.data) j.start_le j.key_lt
  have hkey := (Coord.key_lt_key_iff i j).mpr hij
  have hj := j.key_lt
  have hin : pairRel sp rel i.index j.index = .in2 ↔ location i.data j.data = .in2 := by
    rw [pairRel_of_lt rel hij]
    split_ifs with hb
    · simp [hb.1]
    · rfl
  simp only [ParaRel.isUnder, Bool.or_eq_true, decide_eq_true_eq]
  rw [pairRel_eq_pos_iff h rel hij, hin, hin2]
  constructor
  · rintro (⟨hu, -⟩ | ⟨hstart, hstop⟩)
    · exact hu
    · rw [under_iff]
      exact ⟨hstart, by omega, fun hs => by omega⟩
  · intro hu
    by_cases hk : j.data.keyPos = i.data.jendPos
    · exact Or.inl ⟨hu, hk⟩
    · have hu' := (under_iff h).mp hu
      exact Or.inr ⟨hu'.1, (scopesOf sp h).nested i j hkey
        (lt_of_le_of_ne hu'.2.1 hk) |>.2⟩

theorem pairRel_isBefore_iff (hij : i.index < j.index) :
    (pairRel sp rel i.index j.index).isBefore ↔
      j.data.start ≤ i.data.jendPos ∧ i.data.jendPos ≤ j.data.keyPos ∧
        ¬ (scopesOf sp h).Down i j := by
  rw [down_iff, ← location_isBefore_iff (badPair_eq_none_iff.mp h i j hij), pairRel_of_lt rel hij]
  split_ifs with hb
  · simp [hb.1, ParaRel.isBefore]
  · rfl

end Pairs

/-! ## The pass to `REL_REV` -/

/-- `rel'` is `rel` with `REL_REV` at the pairs of `T`. -/
def Overwritten (rel : RelMatrix) (T : Nat → Nat → Prop) (rel' : RelMatrix) : Prop :=
  ∀ a b, (T a b → rel' a b = .rev) ∧ (¬ T a b → rel' a b = rel a b)

/-- The pair `a`, `b` has coordination `m` between, `REL_POS` on its left and
`REL_PRE` on its right. -/
def Between (sp : ParaSentence) (rel : RelMatrix) (m a b : Nat) : Prop :=
  sp.live m ∧ (a < m ∧ sp.live a ∧ rel a m = .pos) ∧
    (m < b ∧ b < sp.paraNum ∧ sp.live b ∧ rel m b = .pre)

namespace Overwritten

variable {rel rel' : RelMatrix} {T T' : Nat → Nat → Prop} {a b j k : Nat} {r : ParaRel}

theorem congr (h : Overwritten rel T rel') (hT : ∀ a b, T a b ↔ T' a b) :
    Overwritten rel T' rel' := fun a b =>
  ⟨fun ht => (h a b).1 ((hT a b).mpr ht), fun ht => (h a b).2 fun ht' => ht ((hT a b).mp ht')⟩

theorem set (h : Overwritten rel T rel') (hT : ∀ a b, T' a b ↔ T a b ∨ (a = j ∧ b = k)) :
    Overwritten rel T' (setRel rel' j k .rev) := by
  intro a b
  rw [hT a b, setRel]
  by_cases hjk : a = j ∧ b = k
  · simp [hjk]
  · simpa [hjk] using h a b

/-- Where only `REL_NOT` was overwritten, the other relations can still be read. -/
theorem eq_iff (h : Overwritten rel T rel') (hfree : T a b → rel a b = .not)
    (hnot : r ≠ .not) (hrev : r ≠ .rev) : rel' a b = r ↔ rel a b = r := by
  by_cases ht : T a b
  · rw [(h a b).1 ht, hfree ht]
    exact iff_of_false hrev.symm hnot.symm
  · rw [(h a b).2 ht]

end Overwritten

section RevPass

variable {rel : RelMatrix} (hfree : ∀ m a b, Between sp rel m a b → rel a b = .not)

include hfree in
theorem revPass_row {i j : Nat} {T : Nat → Nat → Prop} {s : RelMatrix}
    (hT : ∀ a b, T a b → rel a b = .not) (hi : sp.live i) (hi' : i < sp.paraNum)
    (hj : j < i ∧ sp.live j ∧ rel j i = .pos) (h : Overwritten rel T s) :
    Overwritten rel (fun a b => T a b ∨ (a = j ∧ Between sp rel i a b))
      (Loop.upTo (i + 1) sp.paraNum (fun k rel =>
        if sp.live k ∧ rel i k = .pre then setRel rel j k .rev else rel) s) := by
  have hrun := Loop.upTo_induction
    (fun k rel => if sp.live k ∧ rel i k = .pre then setRel rel j k .rev else rel)
    (fun k s => Overwritten rel (fun a b => T a b ∨ (a = j ∧ b < k ∧ Between sp rel i a b)) s)
    (s := s) (show i + 1 ≤ sp.paraNum by omega) ?_ ?_
  · exact hrun.congr fun a b =>
      or_congr_right ⟨fun ⟨ha, _, hb⟩ => ⟨ha, hb⟩, fun ⟨ha, hb⟩ => ⟨ha, hb.2.2.2.1, hb⟩⟩
  · intro k s hk hkn hs
    have hread : s i k = .pre ↔ rel i k = .pre := by
      refine hs.eq_iff ?_ (by decide) (by decide)
      rintro (ht | ⟨-, -, hb⟩)
      · exact hT _ _ ht
      · exact hfree _ _ _ hb
    by_cases hb : Between sp rel i j k
    · rw [if_pos ⟨hb.2.2.2.2.1, hread.mpr hb.2.2.2.2.2⟩]
      refine hs.set fun a b => ?_
      constructor
      · rintro (ht | ⟨rfl, hbk, hb'⟩)
        · exact Or.inl (Or.inl ht)
        · rcases (Nat.lt_succ_iff.mp hbk).lt_or_eq with hlt | rfl
          · exact Or.inl (Or.inr ⟨rfl, hlt, hb'⟩)
          · exact Or.inr ⟨rfl, rfl⟩
      · rintro ((ht | ⟨rfl, hbk, hb'⟩) | ⟨rfl, rfl⟩)
        · exact Or.inl ht
        · exact Or.inr ⟨rfl, by omega, hb'⟩
        · exact Or.inr ⟨rfl, by omega, hb⟩
    · rw [if_neg fun hc => hb ⟨hi, hj, by omega, hkn, hc.1, hread.mp hc.2⟩]
      refine hs.congr fun a b => or_congr_right ?_
      constructor
      · exact fun ⟨ha, hbk, hb'⟩ => ⟨ha, by omega, hb'⟩
      · rintro ⟨rfl, hbk, hb'⟩
        rcases (Nat.lt_succ_iff.mp hbk).lt_or_eq with hlt | rfl
        · exact ⟨rfl, hlt, hb'⟩
        · exact absurd hb' hb
  · exact h.congr fun a b =>
      ⟨Or.inl, fun ht => ht.resolve_right fun ⟨_, hb, hb'⟩ => by have := hb'.2.2.1; omega⟩

include hfree in
theorem revPass_turn {i : Nat} {T : Nat → Nat → Prop} {s : RelMatrix}
    (hT : ∀ a b, T a b → rel a b = .not) (hi : sp.live i) (hi' : i < sp.paraNum)
    (h : Overwritten rel T s) :
    Overwritten rel (fun a b => T a b ∨ Between sp rel i a b)
      (Loop.upTo 0 i (fun j rel =>
        if sp.live j ∧ rel j i = .pos then
          Loop.upTo (i + 1) sp.paraNum (fun k rel =>
            if sp.live k ∧ rel i k = .pre then setRel rel j k .rev else rel) rel
        else rel) s) := by
  have hrun := Loop.upTo_induction
    (fun j rel =>
      if sp.live j ∧ rel j i = .pos then
        Loop.upTo (i + 1) sp.paraNum (fun k rel =>
          if sp.live k ∧ rel i k = .pre then setRel rel j k .rev else rel) rel
      else rel)
    (fun j s => Overwritten rel (fun a b => T a b ∨ (a < j ∧ Between sp rel i a b)) s)
    (s := s) (Nat.zero_le i) ?_ ?_
  · exact hrun.congr fun a b =>
      or_congr_right ⟨fun ⟨_, hb⟩ => hb, fun hb => ⟨hb.2.1.1, hb⟩⟩
  · intro j s _ hj hs
    have hT' : ∀ a b, (T a b ∨ (a < j ∧ Between sp rel i a b)) → rel a b = .not := by
      rintro a b (ht | ⟨-, hb⟩)
      · exact hT _ _ ht
      · exact hfree _ _ _ hb
    have hread : s j i = .pos ↔ rel j i = .pos := hs.eq_iff (hT' _ _) (by decide) (by decide)
    by_cases hc : sp.live j ∧ s j i = .pos
    · rw [if_pos hc]
      refine (revPass_row hfree hT' hi hi' ⟨hj, hc.1, hread.mp hc.2⟩ hs).congr fun a b => ?_
      rw [or_assoc, ← or_and_right, ← le_iff_lt_or_eq, Nat.lt_succ_iff]
    · rw [if_neg hc]
      refine hs.congr fun a b => or_congr_right (and_congr_left fun hb => ?_)
      have hne : a ≠ j := by
        rintro rfl
        exact hc ⟨hb.2.1.2.1, hread.mpr hb.2.1.2.2⟩
      omega
  · exact h.congr fun a b => ⟨Or.inl, fun ht => ht.resolve_right fun ⟨ha, _⟩ => by omega⟩

include hfree in
/-- What the pass to `REL_REV` does, when it only meets pairs without overlap. -/
theorem revPass_overwritten :
    Overwritten rel (fun a b => ∃ m, Between sp rel m a b) (revPass sp rel) := by
  unfold revPass
  rcases Nat.lt_or_ge 1 sp.paraNum with hn | hn
  · have hrun := Loop.upTo_induction
      (fun i rel =>
        if sp.live i then
          Loop.upTo 0 i (fun j rel =>
            if sp.live j ∧ rel j i = .pos then
              Loop.upTo (i + 1) sp.paraNum (fun k rel =>
                if sp.live k ∧ rel i k = .pre then setRel rel j k .rev else rel) rel
            else rel) rel
        else rel)
      (fun i s => Overwritten rel (fun a b => ∃ m < i, Between sp rel m a b) s)
      (s := rel) (show 1 ≤ sp.paraNum - 1 by omega) ?_ ?_
    · refine hrun.congr fun a b => ⟨fun ⟨m, _, hb⟩ => ⟨m, hb⟩, fun ⟨m, hb⟩ => ⟨m, ?_, hb⟩⟩
      have := hb.2.2.1
      have := hb.2.2.2.1
      omega
    · intro i s _ hi hs
      have hsplit : ∀ a b, ((∃ m < i, Between sp rel m a b) ∨ Between sp rel i a b) ↔
          ∃ m < i + 1, Between sp rel m a b := by
        intro a b
        constructor
        · rintro (⟨m, hm, hb⟩ | hb)
          · exact ⟨m, by omega, hb⟩
          · exact ⟨i, by omega, hb⟩
        · rintro ⟨m, hm, hb⟩
          rcases (Nat.lt_succ_iff.mp hm).lt_or_eq with hlt | rfl
          · exact Or.inl ⟨m, hlt, hb⟩
          · exact Or.inr hb
      by_cases hl : sp.live i
      · rw [if_pos hl]
        exact (revPass_turn hfree (fun a b ⟨m, _, hb⟩ => hfree m a b hb) hl (by omega) hs).congr
          hsplit
      · rw [if_neg hl]
        exact hs.congr fun a b =>
          ⟨fun ht => (hsplit a b).mp (Or.inl ht), fun ht =>
            ((hsplit a b).mpr ht).resolve_right fun hb => hl hb.1⟩
    · exact fun a b => ⟨fun ⟨m, hm, hb⟩ => by have := hb.2.1.1; omega, fun _ => rfl⟩
  · have hnone : sp.paraNum - 1 - 1 = 0 := by omega
    rw [Loop.upTo, hnone]
    exact fun a b => ⟨fun ⟨m, hb⟩ => by
      have := hb.2.1.1
      have := hb.2.2.1
      have := hb.2.2.2.1
      omega, fun _ => rfl⟩

end RevPass

/-! ## The final relations -/

/-- The matrix after the three passes. -/
def finalRel (sp : ParaSentence) (rel : RelMatrix) : RelMatrix := revPass sp (pairRel sp rel)

section Final

variable (h : badPair sp = none) (rel : RelMatrix) {i j : Coord sp}

theorem between_iff : (∃ m, Between sp (pairRel sp rel) m i.index j.index) ↔
    ∃ m : Coord sp, (scopesOf sp h).Under i m ∧ m.data.keyPos = i.data.jendPos ∧
      j.data.start = m.data.keyPos + 1 ∧ m.data.jendPos < j.data.keyPos := by
  constructor
  · intro ⟨m, hm, ⟨him, _, hpos⟩, hmj, hj, _, hpre⟩
    let m' : Coord sp := .mk' m (hmj.trans hj) hm
    obtain ⟨hu, hk⟩ := (pairRel_eq_pos_iff h rel (i := i) (j := m') him).mp hpos
    exact ⟨m', hu, hk, (pairRel_eq_pre_iff rel (i := m') hmj).mp hpre⟩
  · intro ⟨m, hu, hk, hpre⟩
    have him : i.index < m.index := (Coord.key_lt_key_iff i m).mp hu.1.key_lt
    have hmj : m.index < j.index := by
      rw [← Coord.key_lt_key_iff]
      have := m.key_lt
      omega
    exact ⟨m.index, m.live, ⟨him, i.live, (pairRel_eq_pos_iff h rel him).mpr ⟨hu, hk⟩⟩,
      hmj, j.index_lt, j.live, (pairRel_eq_pre_iff rel hmj).mpr hpre⟩

include h in
theorem pairRel_of_between {m a b : Nat} (hb : Between sp (pairRel sp rel) m a b) :
    pairRel sp rel a b = .not := by
  have hbetween := hb
  obtain ⟨_, ⟨ham, ha, _⟩, hmb, hb', hbl, _⟩ := hb
  let a' : Coord sp := .mk' a (ham.trans (hmb.trans hb')) ha
  let b' : Coord sp := .mk' b hb' hbl
  obtain ⟨m', hu, hk, hs, _⟩ := (between_iff h rel (i := a') (j := b')).mp ⟨m, hbetween⟩
  refine (pairRel_eq_not_iff rel (i := a') (j := b') (ham.trans hmb)).mpr ?_
  omega

include h in
theorem finalRel_overwritten : Overwritten (pairRel sp rel)
    (fun a b => ∃ m, Between sp (pairRel sp rel) m a b) (finalRel sp rel) :=
  revPass_overwritten fun _ _ _ => pairRel_of_between h rel

theorem finalRel_eq_par_iff (hij : i.index < j.index) :
    finalRel sp rel i.index j.index = .par ↔ (scopesOf sp h).Sibling i j := by
  rw [← pairRel_eq_par_iff h rel hij]
  exact (finalRel_overwritten h rel).eq_iff (fun ⟨_, hb⟩ => pairRel_of_between h rel hb)
    (by decide) (by decide)

theorem finalRel_isUnder_iff (hij : i.index < j.index) :
    (finalRel sp rel i.index j.index).isUnder ↔ (scopesOf sp h).Under i j := by
  rw [← pairRel_isUnder_iff h rel hij]
  have hread : ∀ r : ParaRel, r ≠ .not → r ≠ .rev →
      (finalRel sp rel i.index j.index = r ↔ pairRel sp rel i.index j.index = r) := fun _ =>
    (finalRel_overwritten h rel).eq_iff fun ⟨_, hb⟩ => pairRel_of_between h rel hb
  simp only [ParaRel.isUnder, Bool.or_eq_true, decide_eq_true_eq]
  rw [hread _ (by decide) (by decide), hread _ (by decide) (by decide)]

theorem finalRel_isBefore_iff (hij : i.index < j.index) :
    (finalRel sp rel i.index j.index).isBefore ↔ (scopesOf sp h).Before i j := by
  have hb := pairRel_isBefore_iff h rel hij
  have hover := finalRel_overwritten h rel i.index j.index
  simp only [between_iff h rel] at hover
  by_cases hm : ∃ m : Coord sp, (scopesOf sp h).Under i m ∧ m.data.keyPos = i.data.jendPos ∧
      j.data.start = m.data.keyPos + 1 ∧ m.data.jendPos < j.data.keyPos
  · rw [hover.1 hm]
    exact iff_of_true (by decide) (Or.inr hm)
  · rw [hover.2 hm, hb]
    exact ⟨Or.inl, fun hbef => hbef.resolve_right hm⟩

theorem childRel_eq (r : RelMatrix) (a b : Nat) :
    childRel r a b = ((a < b && (r a b).isBefore) || (b < a && (r b a).isUnder)) := rfl

/-- The scan for parents compares two coordinations as scopes are compared. -/
theorem childRel_iff : childRel (finalRel sp rel) i.index j.index ↔ (scopesOf sp h).Below i j := by
  rw [childRel_eq, Bool.or_eq_true, Bool.and_eq_true, Bool.and_eq_true, decide_eq_true_eq,
    decide_eq_true_eq]
  constructor
  · rintro (⟨hij, hb⟩ | ⟨hji, hu⟩)
    · exact Or.inl ((finalRel_isBefore_iff h rel hij).mp hb)
    · exact Or.inr ((finalRel_isUnder_iff h rel hji).mp hu)
  · rintro (hb | hu)
    · have hij := (Coord.key_lt_key_iff i j).mp hb.key_lt
      exact Or.inl ⟨hij, (finalRel_isBefore_iff h rel hij).mpr hb⟩
    · have hji := (Coord.key_lt_key_iff j i).mp hu.1.key_lt
      exact Or.inr ⟨hji, (finalRel_isUnder_iff h rel hji).mpr hu⟩

end Final

end Knp
