import Knp.Mask
import Knp.MrphDpnd
import Knp.ParaDpnd

/-!
# Correlative expressions (`koou.c`)

Where a bunsetsu matches the start of a rule, the bunsetsu from it on that match the end or the
middle of the rule are marked in its row (`check_koou`); then the rows of the starts are
rewritten, and what crosses an expression is masked (`change_matrix`).

> A mark is that of the last rule that matches, and a bunsetsu is a start if some rule matches
> it with an end.
-/

namespace Knp.Koou

open Loop Mask

/-- The patterns say which bunsetsu they match. -/
structure KoouRule where
  startPattern : Nat → Bool
  endPattern : Nat → Bool
  ukePattern : Option (Nat → Bool)
  dpndType : Char

/-- A sentence; the bunsetsu by their features. -/
structure KoouText where
  language : Lang
  bnst : List (List String)

/-- `Koou_matrix`, `Koou_dpnd_matrix` and `koou_m_p` -/
structure KoouData where
  koouMatrix : Nat → Nat → Nat
  koouDpndMatrix : Nat → Nat → Int
  koouMP : Nat → Bool

def initKoou : KoouData := ⟨fun _ _ => 0, fun _ _ => 0, fun _ => false⟩

/-- The value of a character in a matrix. -/
def charCode (c : Char) : Int := (c.toNat : Nat)

namespace KoouText

variable (sp : KoouText)

def bnstNum : Nat := sp.bnst.length

def chinese : Bool := sp.language = .chinese

def has (i : Nat) (fname : String) : Bool := hasFeature (sp.bnst.getD i []) fname

end KoouText

/-! ## The detection -/

section Check

variable (sp : KoouText) (r : KoouRule)

def matchesStart (i : Nat) : Bool :=
  r.startPattern i && (!sp.chinese || sp.has i "P")

/-- `pu_flag` -/
def puFlag (i k : Nat) : Bool :=
  sp.chinese && (List.range' i (k - i)).any fun l => sp.has l "PU"

def matchesEnd (i k : Nat) : Bool :=
  r.endPattern k &&
    (!sp.chinese || !puFlag sp i k && (sp.has k "LC" || sp.has k "NN"))

/-- 受け側のパターン: ルールにおける3つ目の項 (startとendの間) -/
def matchesUke (i k : Nat) : Bool :=
  (match r.ukePattern with
    | none => false
    | some ukePattern => ukePattern k) &&
    (!sp.chinese || !puFlag sp i k && sp.has k "LC")

/-- One bunsetsu behind a start, with the flag of `check_koou`. -/
def checkTurn (i k : Nat) (s : KoouData × Bool) : KoouData × Bool :=
  if matchesEnd sp r i k then
    ({ koouMatrix := put i k 1 s.1.koouMatrix
       koouDpndMatrix := put i k (charCode r.dpndType) s.1.koouDpndMatrix
       koouMP := Function.update s.1.koouMP i true }, true)
  else if matchesUke sp r i k then
    ({ s.1 with
       koouMatrix := put i k 2 s.1.koouMatrix
       koouDpndMatrix := put i k (charCode r.dpndType) s.1.koouDpndMatrix }, s.2)
  else s

def checkKoou (rules : List KoouRule) : KoouData × Bool :=
  upTo 0 sp.bnstNum (fun i s =>
    rules.foldl (fun s r =>
      if matchesStart sp r i then upTo i sp.bnstNum (checkTurn sp r i) s else s) s)
    (initKoou, false)

end Check

/-! ## The matrix -/

/-- 内部(i,f_start)がf_end以降に係るのをマスク -/
def maskFor (bnstNum si : Nat) (start stop : Int) (m : Nat → Nat → Int) : Nat → Nat → Int :=
  upTo (si + 1) start.toNat (fun i => upTo (stop + 1).toNat bnstNum fun j => put i j 0) m

/-- 前部[0,i)が(i,f_start)に係るのをマスク -/
def maskBack (si : Nat) (start : Int) (m : Nat → Nat → Int) : Nat → Nat → Int :=
  upTo 0 si (fun i => upTo (si + 1) start.toNat fun j => put i j 0) m

/-- The row of a start, with `f_start` and `f_end`: one column. -/
def rowTurn (d : KoouData) (i j : Nat) (s : (Nat → Nat → Int) × Int × Int) :
    (Nat → Nat → Int) × Int × Int :=
  let (m, fStart, fEnd) := s
  if 0 < d.koouMatrix i j then
    (put i j (d.koouDpndMatrix i j) m,
      -- (複数ある)呼応内で係りうる最初の文節
      if d.koouMatrix i j = 1 ∧ fStart < 0 then (j : Int) else fStart,
      -- (複数ある)呼応内で係りうる最後の文節
      if d.koouMatrix i j = 1 then (j : Int) else fEnd)
  else (put i j 0 m, fStart, fEnd)

/-- i -> f_start .. f_end という呼応 -/
def japaneseTurn (bnstNum : Nat) (d : KoouData) (i : Nat) (m : Nat → Nat → Int) :
    Nat → Nat → Int :=
  let (m, fStart, fEnd) := upTo i bnstNum (rowTurn d i) (m, -1, -1)
  maskBack i fStart (maskFor bnstNum i fStart fEnd m)

/-- What is between `i` and `j` is cut off from what is in front of `i` and behind `j`. -/
def maskBetween (bnstNum i j : Nat) (m : Nat → Nat → Int) : Nat → Nat → Int :=
  upTo (i + 1) j (fun k m =>
    upTo (j + 1) bnstNum (fun l => put k l 0) (upTo 0 i (fun l => put l k 0) m)) m

/-- One column in the row of a start. -/
def chineseTurn (bnstNum : Nat) (d : KoouData) (i j : Nat) (m : Nat → Nat → Int) :
    Nat → Nat → Int :=
  if 0 < d.koouMatrix i j then
    let m := put i j (d.koouDpndMatrix i j) m
    let m := if d.koouDpndMatrix i j = charCode 'L' then
        maskBetween bnstNum i j
          (upTo 0 i (fun k => put k j 0) (upTo (j + 1) bnstNum (fun k => put j k 0) m))
      else m
    if d.koouDpndMatrix i j = charCode 'R' then
      maskBetween bnstNum i j (upTo 0 i (fun k => put i k 0)
        (upTo (i + 1) bnstNum (fun k m => if k ≠ j then put i k 0 m else m) m))
    else m
  else m

def changeMatrix (sp : KoouText) (d : KoouData) (m : Nat → Nat → Int) : Nat → Nat → Int :=
  if sp.chinese then
    upTo 0 sp.bnstNum (fun i m =>
      if d.koouMP i then upTo i sp.bnstNum (chineseTurn sp.bnstNum d i) m else m) m
  else
    upTo 0 sp.bnstNum (fun i m => if d.koouMP i then japaneseTurn sp.bnstNum d i m else m) m

/-- 呼応の処理: `Dpnd_matrix`, and whether there is such an expression. -/
def koou (sp : KoouText) (rules : List KoouRule) (m : Nat → Nat → Int) :
    (Nat → Nat → Int) × Bool :=
  let (d, flag) := checkKoou sp rules
  (changeMatrix sp d m, flag)

/-! ## What is detected -/

/-- The mark that a rule gives to `k` in the row of `i`. -/
def mark (sp : KoouText) (i k : Nat) (r : KoouRule) : Option (Nat × Int) :=
  if matchesStart sp r i then
    if matchesEnd sp r i k then some (1, charCode r.dpndType)
    else if matchesUke sp r i k then some (2, charCode r.dpndType)
    else none
  else none

/-- The marks are those of the last rules, and the starts those of any rule. -/
structure Detects (sp : KoouText) (rules : List KoouRule) (d : KoouData) : Prop where
  marks : ∀ i k, i ≤ k → k < sp.bnstNum → (d.koouMatrix i k, d.koouDpndMatrix i k) =
    ((rules.filterMap (mark sp i k)).getLast?).getD (0, 0)
  starts : ∀ i, i < sp.bnstNum → (d.koouMP i = true ↔ ∃ r ∈ rules, matchesStart sp r i = true ∧
    ∃ k, i ≤ k ∧ k < sp.bnstNum ∧ matchesEnd sp r i k = true)

section Detection

variable {sp : KoouText} {r : KoouRule} {i k a b : Nat}

/-- The two entries of a cell. -/
def KoouData.cell (d : KoouData) (a b : Nat) : Nat × Int :=
  (d.koouMatrix a b, d.koouDpndMatrix a b)

theorem checkTurn_cell (hstart : matchesStart sp r i = true) (s : KoouData × Bool) :
    (checkTurn sp r i k s).1.cell a b =
      if a = i ∧ b = k then (mark sp i k r).getD (s.1.cell a b) else s.1.cell a b := by
  unfold checkTurn mark KoouData.cell put
  rw [if_pos hstart]
  by_cases hcell : a = i ∧ b = k
  · rw [if_pos hcell]
    split_ifs <;> simp [hcell]
  · rw [if_neg hcell]
    split_ifs <;> simp [hcell]

theorem checkTurn_koouMP (s : KoouData × Bool) : (checkTurn sp r i k s).1.koouMP a = true ↔
    s.1.koouMP a = true ∨ a = i ∧ matchesEnd sp r i k = true := by
  unfold checkTurn
  by_cases hend : matchesEnd sp r i k = true
  · by_cases ha : a = i <;> simp [hend, ha, Function.update]
  · rw [if_neg hend]
    split_ifs <;> simp [hend]

/-- The loop over the bunsetsu behind a start. -/
theorem checkLoop_cell (hstart : matchesStart sp r i = true) (hi : i ≤ sp.bnstNum)
    (s : KoouData × Bool) :
    (upTo i sp.bnstNum (checkTurn sp r i) s).1.cell a b =
      if a = i ∧ i ≤ b ∧ b < sp.bnstNum then (mark sp i b r).getD (s.1.cell a b)
      else s.1.cell a b := by
  refine upTo_induction (checkTurn sp r i) (fun n s' => s'.1.cell a b =
    if a = i ∧ i ≤ b ∧ b < n then (mark sp i b r).getD (s.1.cell a b) else s.1.cell a b) hi
    ?_ (by rw [if_neg (by omega)])
  intro n s' hlo _ hs
  rw [checkTurn_cell hstart, hs]
  by_cases ha : a = i
  · rcases Nat.lt_trichotomy b n with hlt | rfl | hgt
    · have hbound : i ≤ b ∧ b < n + 1 ↔ i ≤ b ∧ b < n := by omega
      simp only [ha, true_and, hlt.ne, if_false, hbound]
    · simp only [ha, and_self, if_true, hlo, lt_irrefl, and_false, if_false,
        Nat.lt_succ_self]
    · have hbound : ¬(i ≤ b ∧ b < n) := by omega
      have hbound' : ¬(i ≤ b ∧ b < n + 1) := by omega
      simp only [ha, true_and, hgt.ne', if_false, hbound, hbound']
  · simp only [ha, false_and, if_false]

theorem checkLoop_koouMP (hi : i ≤ sp.bnstNum) (s : KoouData × Bool) :
    (upTo i sp.bnstNum (checkTurn sp r i) s).1.koouMP a = true ↔ s.1.koouMP a = true ∨
      a = i ∧ ∃ k, i ≤ k ∧ k < sp.bnstNum ∧ matchesEnd sp r i k = true := by
  refine upTo_induction (checkTurn sp r i) (fun n s' => s'.1.koouMP a = true ↔
    s.1.koouMP a = true ∨ a = i ∧ ∃ k, i ≤ k ∧ k < n ∧ matchesEnd sp r i k = true) hi ?_ ?_
  · intro n s' hlo _ hs
    rw [checkTurn_koouMP, hs, or_assoc, ← and_or_left]
    refine or_congr_right (and_congr_right fun _ => ?_)
    constructor
    · rintro (⟨k, hik, hkn, hend⟩ | hend)
      · exact ⟨k, hik, by omega, hend⟩
      · exact ⟨n, hlo, Nat.lt_succ_self n, hend⟩
    · rintro ⟨k, hik, hkn, hend⟩
      rcases Nat.lt_succ_iff_lt_or_eq.mp hkn with hlt | rfl
      · exact Or.inl ⟨k, hik, hlt, hend⟩
      · exact Or.inr hend
  · refine ⟨Or.inl, fun h => h.resolve_right ?_⟩
    rintro ⟨-, k, hik, hki, -⟩
    omega

/-- The rules one after the other, for one bunsetsu. -/
def checkRules (sp : KoouText) (i : Nat) (rules : List KoouRule) (s : KoouData × Bool) :
    KoouData × Bool :=
  rules.foldl (fun s r =>
    if matchesStart sp r i then upTo i sp.bnstNum (checkTurn sp r i) s else s) s

theorem checkRules_cell (hi : i ≤ sp.bnstNum) (rules : List KoouRule) (s : KoouData × Bool) :
    (checkRules sp i rules s).1.cell a b =
      if a = i ∧ i ≤ b ∧ b < sp.bnstNum then
        ((rules.filterMap (mark sp i b)).getLast?).getD (s.1.cell a b)
      else s.1.cell a b := by
  unfold checkRules
  induction rules generalizing s with
  | nil => simp
  | cons r rules ih =>
      rw [List.foldl_cons, ih]
      by_cases hcell : a = i ∧ i ≤ b ∧ b < sp.bnstNum
      · rw [if_pos hcell, if_pos hcell, List.filterMap_cons]
        by_cases hstart : matchesStart sp r i = true
        · rw [if_pos hstart, checkLoop_cell hstart hi, if_pos hcell]
          cases mark sp i b r with
          | none => rfl
          | some v => rw [List.getLast?_cons]; rfl
        · rw [if_neg hstart, show mark sp i b r = none from if_neg hstart]
      · rw [if_neg hcell, if_neg hcell]
        split_ifs with hstart
        · rw [checkLoop_cell hstart hi, if_neg hcell]
        · rfl

theorem checkRules_koouMP (hi : i ≤ sp.bnstNum) (rules : List KoouRule) (s : KoouData × Bool) :
    (checkRules sp i rules s).1.koouMP a = true ↔ s.1.koouMP a = true ∨
      a = i ∧ ∃ r ∈ rules, matchesStart sp r i = true ∧
        ∃ k, i ≤ k ∧ k < sp.bnstNum ∧ matchesEnd sp r i k = true := by
  unfold checkRules
  induction rules generalizing s with
  | nil => simp
  | cons r rules ih =>
      rw [List.foldl_cons, ih]
      by_cases hstart : matchesStart sp r i = true
      · rw [if_pos hstart, checkLoop_koouMP hi, or_assoc, ← and_or_left]
        simp [hstart]
      · rw [if_neg hstart]
        simp [hstart]

end Detection

theorem checkKoou_detects (sp : KoouText) (rules : List KoouRule) :
    Detects sp rules (checkKoou sp rules).1 := by
  have hcells : ∀ a b, (checkKoou sp rules).1.cell a b =
      if a < sp.bnstNum ∧ a ≤ b ∧ b < sp.bnstNum then
        ((rules.filterMap (mark sp a b)).getLast?).getD (0, 0)
      else (0, 0) := fun a b => by
    refine upTo_induction (checkRules sp · rules) (fun n s => s.1.cell a b =
      if a < n ∧ a ≤ b ∧ b < sp.bnstNum then
        ((rules.filterMap (mark sp a b)).getLast?).getD (0, 0)
      else (0, 0)) (Nat.zero_le _) ?_ rfl
    intro n s _ hn hs
    rw [checkRules_cell hn.le, hs]
    rcases Nat.lt_trichotomy a n with hlt | rfl | hgt
    · simp only [hlt.ne, false_and, if_false, hlt, Nat.lt_succ_of_lt hlt]
    · simp only [true_and, lt_irrefl, false_and, if_false, Nat.lt_succ_self]
    · have hgt' : ¬a < n + 1 := by omega
      simp only [hgt.ne', false_and, if_false, hgt.not_gt, hgt']
  have hstarts : ∀ a, (checkKoou sp rules).1.koouMP a = true ↔ a < sp.bnstNum ∧
      ∃ r ∈ rules, matchesStart sp r a = true ∧
        ∃ k, a ≤ k ∧ k < sp.bnstNum ∧ matchesEnd sp r a k = true := fun a => by
    refine upTo_induction (checkRules sp · rules) (fun n s => s.1.koouMP a = true ↔ a < n ∧
      ∃ r ∈ rules, matchesStart sp r a = true ∧
        ∃ k, a ≤ k ∧ k < sp.bnstNum ∧ matchesEnd sp r a k = true) (Nat.zero_le _) ?_ ?_
    · intro n s _ hn hs
      rw [checkRules_koouMP hn.le, hs]
      constructor
      · rintro (⟨hlt, h⟩ | ⟨rfl, h⟩)
        · exact ⟨Nat.lt_succ_of_lt hlt, h⟩
        · exact ⟨Nat.lt_succ_self a, h⟩
      · rintro ⟨hlt, h⟩
        rcases Nat.lt_succ_iff_lt_or_eq.mp hlt with hlt | rfl
        · exact Or.inl ⟨hlt, h⟩
        · exact Or.inr ⟨rfl, h⟩
    · simp [initKoou]
  refine ⟨fun i k hik hk => ?_, fun i hi => ?_⟩
  · exact (hcells i k).trans (if_pos ⟨by omega, hik, hk⟩)
  · rw [hstarts]
    exact and_iff_right hi

end Knp.Koou
