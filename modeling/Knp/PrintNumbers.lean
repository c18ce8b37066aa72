import Knp.PrintTags
import Mathlib.Data.List.GetD

/-!
# The numbers of the printed lines

What the tables of `print_tags` hold, counted from the tags alone: `line` is the
`+` line of a tag and `star` the `*` line of a bunsetsu that starts with it.
-/

namespace Knp

namespace PrintInput

variable (inp : PrintInput)

def tag (i : Nat) : PrintTag := inp.kept.getD i default

def tagNum : Nat := inp.kept.length

/-- The bunsetsu of the tag before. -/
def prev : Nat → Option Nat
  | 0 => none
  | i + 1 => some (inp.tag i).bPtr

def bnstOf (i : Nat) : PrintBnst := inp.bnst (inp.tag i).bPtr

/-- The number of nodes that are inserted before a tag. -/
def nodes (i : Nat) : Nat := inp.nodesBefore (inp.prev i) (inp.tag i)

def split (i : Nat) : Nat := if (inp.tag i).bunkai then 1 else 0

/-- The number of `+` lines before tag `i`, with what belongs to it. -/
def lines : Nat → Nat
  | 0 => 0
  | i + 1 => lines i + inp.nodes i + inp.split i + 1

/-- The `+` line of tag `i`. -/
def line (i : Nat) : Nat := inp.lines i + inp.nodes i + inp.split i

/-- A bunsetsu starts at tag `i`. -/
def Begins (i : Nat) : Prop := 0 ≤ (inp.tag i).bnum

instance (i : Nat) : Decidable (inp.Begins i) := inferInstanceAs (Decidable (0 ≤ _))

def begin (i : Nat) : Nat := if inp.Begins i then 1 else 0

/-- The number of bunsetsu before tag `i`. -/
def begins : Nat → Nat
  | 0 => 0
  | i + 1 => begins i + inp.begin i

/-- The number of `*` lines before tag `i` as the first pass counts them. -/
def stars : Nat → Nat
  | 0 => 0
  | i + 1 => stars i + inp.nodes i + inp.begin i

/-- The `*` line of the bunsetsu that starts at tag `i`. -/
def star (i : Nat) : Nat := inp.stars i + inp.nodes i

theorem lines_succ (i : Nat) : inp.lines (i + 1) = inp.line i + 1 := rfl

theorem lines_mono {i j : Nat} (h : i ≤ j) : inp.lines i ≤ inp.lines j := by
  induction j, h using Nat.le_induction with
  | base => exact le_rfl
  | succ j _ ih =>
      rw [lines_succ, line]
      omega

theorem lines_le_line (i : Nat) : inp.lines i ≤ inp.line i := by
  rw [line]
  omega

theorem line_lt_lines {i j : Nat} (h : i < j) : inp.line i < inp.lines j := by
  have := inp.lines_mono h
  rw [lines_succ] at this
  omega

/-- A line is before what belongs to a later tag, also if that is split. -/
theorem line_add_split_lt {i j : Nat} (h : i < j) : inp.line i + inp.split j < inp.line j := by
  have := inp.line_lt_lines h
  rw [line.eq_def inp j]
  omega

theorem line_lt {i j : Nat} (h : i < j) : inp.line i < inp.line j := by
  have := inp.line_add_split_lt h
  omega

theorem lt_of_line_lt {i j : Nat} (h : inp.line i < inp.line j) : i < j := by
  by_contra hle
  rcases Nat.lt_or_eq_of_le (not_lt.mp hle) with hlt | rfl
  · exact absurd (inp.line_lt hlt) (by omega)
  · omega

theorem line_le {i j : Nat} (h : i ≤ j) : inp.line i ≤ inp.line j := by
  rcases Nat.lt_or_eq_of_le h with hlt | rfl
  · exact (inp.line_lt hlt).le
  · exact le_rfl

theorem stars_mono {i j : Nat} (h : i ≤ j) : inp.stars i ≤ inp.stars j := by
  induction j, h using Nat.le_induction with
  | base => exact le_rfl
  | succ j _ ih =>
      rw [stars]
      omega

theorem begins_lt {i j : Nat} (h : i < j) (hi : inp.Begins i) : inp.begins i < inp.begins j := by
  induction j, h using Nat.le_induction with
  | base =>
      rw [begins, begin, if_pos hi]
      exact Nat.lt_succ_self _
  | succ j _ ih =>
      rw [begins]
      omega

/-- What `tag_bnst_postprocess` leaves: the tags that were kept and the bunsetsu that start with
them are numbered from 0, heads are among them, the tags of a bunsetsu are one behind the other, and
the last tag of a bunsetsu that was kept comes behind the others, which have their heads in the
bunsetsu. -/
structure WellFormed : Prop where
  num : ∀ i < inp.tagNum, (inp.tag i).num = i
  head : ∀ i < inp.tagNum, (inp.tag i).dpndHead = -1 ∨
    ∃ j < inp.tagNum, (inp.tag i).dpndHead = (j : Nat)
  bnum : ∀ i < inp.tagNum, inp.Begins i → (inp.tag i).bnum = inp.begins i ∧
    (inp.bnstOf i).num = inp.begins i
  bhead : ∀ i < inp.tagNum, inp.Begins i → (inp.bnstOf i).dpndHead = -1 ∨
    ∃ j < inp.tagNum, inp.Begins j ∧ (inp.bnstOf i).dpndHead = inp.begins j
  first : ∀ i < inp.tagNum, inp.prev i ≠ some (inp.tag i).bPtr → (inp.bnstOf i).num ≠ -1 →
    inp.Begins i
  sorted : ∀ i j, i ≤ j → j < inp.tagNum → (inp.tag i).bPtr ≤ (inp.tag j).bPtr
  headNum : ∀ i < inp.tagNum, (inp.bnstOf i).headNum = -1 ∨
    ∃ j < inp.tagNum, i ≤ j ∧ (inp.bnstOf i).headNum = (j : Nat) ∧
      (inp.tag j).bPtr = (inp.tag i).bPtr
  inside : ∀ i < inp.tagNum, ∀ j : Nat, (inp.bnstOf i).headNum = j → i < j →
    (inp.tag i).dpndHead ≠ -1 ∧ (inp.tag i).dpndHead ≤ j

end PrintInput

open PrintInput

section Tables

variable (inp : PrintInput) (mem : PrintMemory)

/-- The tables after the first tags. -/
def tablesTo (i : Nat) : PrintTables :=
  (inp.kept.take i).foldl (numberTag inp) ⟨mem.tTable, mem.bTable, [], 0, none⟩

theorem take_succ_kept {i : Nat} (h : i < inp.tagNum) :
    inp.kept.take (i + 1) = inp.kept.take i ++ [inp.tag i] := by
  rw [List.take_succ_eq_append_getElem h, tag, List.getD_eq_getElem _ _ h]

theorem tablesTo_succ {i : Nat} (h : i < inp.tagNum) :
    tablesTo inp mem (i + 1) = numberTag inp (tablesTo inp mem i) (inp.tag i) := by
  rw [tablesTo, take_succ_kept inp h, List.foldl_concat]
  rfl

theorem tablesTo_tagNum : tablesTo inp mem inp.tagNum = numberTags inp mem := by
  rw [tablesTo, tagNum, List.take_length]
  rfl

/-- What the tables hold of the first tags. -/
structure NumberedTo (i : Nat) (st : PrintTables) : Prop where
  length : st.copula.length = inp.lines i
  bCount : st.bCount = inp.stars i
  preBp : st.preBp = inp.prev i
  tTable : ∀ x < i, st.tTable (x : Nat) = inp.line x
  copula : ∀ x < i, st.copula.getD (inp.line x) false = (inp.tag x).bunkai
  bTable : ∀ x < i, inp.Begins x → st.bTable (inp.begins x : Nat) = inp.star x
  tMerged : st.tTable (-1) = mem.tTable (-1)
  bMerged : st.bTable (-1) = mem.bTable (-1)

variable {inp mem} {i : Nat} {st : PrintTables}

theorem NumberedTo.numberTag (hwf : inp.WellFormed) (hi : i < inp.tagNum)
    (h : NumberedTo inp mem i st) :
    NumberedTo inp mem (i + 1) (numberTag inp st (inp.tag i)) := by
  have hk : inp.nodesBefore st.preBp (inp.tag i) = inp.nodes i := by rw [h.preBp]; rfl
  have hnum := hwf.num i hi
  have hlen : (st.copula ++ List.replicate (inp.nodes i) false ++
      if (inp.tag i).bunkai then [false] else []).length = inp.line i := by
    rw [line, ← h.length, List.length_append, List.length_append, List.length_replicate, split]
    split_ifs <;> rfl
  refine ⟨?_, ?_, rfl, fun x hx => ?_, fun x hx => ?_, fun x hx hbegins => ?_, ?_, ?_⟩
  · simp only [Knp.numberTag, hk]
    rw [List.length_append, hlen]
    rfl
  · simp only [Knp.numberTag, hk, h.bCount]
    rfl
  · simp only [Knp.numberTag, hk, hlen, hnum]
    rcases Nat.lt_or_eq_of_le (Nat.le_of_lt_succ hx) with hlt | rfl
    · have hne : (x : Int) ≠ i := by omega
      rw [Function.update_of_ne hne, h.tTable x hlt]
    · rw [Function.update_self]
  · simp only [Knp.numberTag, hk]
    rcases Nat.lt_or_eq_of_le (Nat.le_of_lt_succ hx) with hlt | rfl
    · have hpos : inp.line x < st.copula.length := by
        rw [h.length]
        exact inp.line_lt_lines hlt
      rw [List.append_assoc, List.append_assoc, List.getD_append _ _ _ _ hpos, h.copula x hlt]
    · rw [List.getD_append_right _ _ _ _ hlen.le, hlen, Nat.sub_self]
      rfl
  · simp only [Knp.numberTag, hk, h.bCount]
    rcases Nat.lt_or_eq_of_le (Nat.le_of_lt_succ hx) with hlt | rfl
    · split_ifs with hbi
      · have hne : (inp.begins x : Int) ≠ (inp.tag i).bnum := by
          have := inp.begins_lt hlt hbegins
          rw [(hwf.bnum i hi hbi).1]
          omega
        rw [Function.update_of_ne hne, h.bTable x hlt hbegins]
      · exact h.bTable x hlt hbegins
    · have hnonneg : 0 ≤ (inp.tag x).bnum := hbegins
      rw [if_pos hnonneg, (hwf.bnum x hi hbegins).1, Function.update_self]
      rfl
  · have hne : (-1 : Int) ≠ (i : Nat) := by omega
    simp only [Knp.numberTag, hnum]
    rw [Function.update_of_ne hne, h.tMerged]
  · simp only [Knp.numberTag]
    split_ifs with hbi
    · have hne : (-1 : Int) ≠ (inp.tag i).bnum := by omega
      rw [Function.update_of_ne hne, h.bMerged]
    · exact h.bMerged

theorem numberedTo_tablesTo (hwf : inp.WellFormed) (hi : i ≤ inp.tagNum) :
    NumberedTo inp mem i (tablesTo inp mem i) := by
  induction i with
  | zero => exact ⟨rfl, rfl, rfl, nofun, nofun, nofun, rfl, rfl⟩
  | succ i ih =>
      rw [tablesTo_succ inp mem hi]
      exact (ih (by omega)).numberTag hwf hi

theorem numberedTo_numberTags (hwf : inp.WellFormed) :
    NumberedTo inp mem inp.tagNum (numberTags inp mem) := by
  rw [← tablesTo_tagNum]
  exact numberedTo_tablesTo hwf le_rfl

end Tables

end Knp
