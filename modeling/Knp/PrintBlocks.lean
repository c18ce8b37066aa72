import Knp.PrintNumbers

/-!
# The printed lines in blocks

What `print_tags` prints for a tag: the additional nodes, the part before the
copula if the tag is split, the tag. `PlusLine` says which `+` line has which
head.
-/

namespace Knp

open Layout PrintInput

section Blocks

variable (inp : PrintInput) (mem : PrintMemory)

/-- The state of the second pass after the first tags. -/
def stateTo (i : Nat) : PrintState :=
  (inp.kept.take i).foldl (printTag inp (numberTags inp mem)) ⟨0, none, fun _ => 0, []⟩

theorem stateTo_succ {i : Nat} (h : i < inp.tagNum) : stateTo inp mem (i + 1) =
    printTag inp (numberTags inp mem) (stateTo inp mem i) (inp.tag i) := by
  rw [stateTo, take_succ_kept inp h, List.foldl_concat]
  rfl

theorem printTags_eq : printTags inp mem =
    if (numberTags inp mem).copula.length ≤ TAG_MAX then some (stateTo inp mem inp.tagNum).out
    else none := by
  rw [stateTo, tagNum, List.take_length]
  rfl

/-- The head that is printed for tag `x`. -/
def headAt (x : Nat) : Int :=
  printedHead inp (numberTags inp mem) (stateTo inp mem x).proj (inp.tag x)

/-- The head that is printed for the `j`-th node before tag `x`. -/
def nodeHeadAt (x j : Nat) : Int :=
  nodeHead (numberTags inp mem) (stateTo inp mem x).proj (inp.bnstOf x) (inp.lines x + j)

def plusBlock (x : Nat) : List (Int × Option Int) :=
  ((List.range (inp.nodes x)).map fun j => (nodeHeadAt inp mem x j, none)) ++
    (if (inp.tag x).bunkai then [((inp.line x : Int), none)] else []) ++
    [(headAt inp mem x, some (x : Int))]

/-- 1 if the `*` line is printed twice: the tag is split and starts with the copula. -/
def doubles (x : Nat) : Nat :=
  if inp.Begins x ∧ (inp.tag x).bunkai ∧ (inp.tag x).independent = 0 then 1 else 0

/-- How many `*` lines were printed twice before tag `i`. -/
def doubled : Nat → Nat
  | 0 => 0
  | i + 1 => doubled i + doubles inp i

/-- The head in a `*` line of the bunsetsu. -/
def bunsetsuHead (x : Nat) : Int :=
  if (inp.bnstOf x).dpndHead = -1 then -1 else (numberTags inp mem).bTable (inp.bnstOf x).dpndHead

def starBlock (x : Nat) : List Int :=
  List.replicate (inp.nodes x) ((numberTags inp mem).bTable (inp.bnstOf x).num) ++
    List.replicate (inp.begin x + doubles inp x) (bunsetsuHead inp mem x)

variable {inp mem} {i j x : Nat}

@[simp] theorem plusLines_append (a b : List PrintedLine) :
    plusLines (a ++ b) = plusLines a ++ plusLines b := List.filterMap_append

@[simp] theorem starLines_append (a b : List PrintedLine) :
    starLines (a ++ b) = starLines a ++ starLines b := List.filterMap_append

theorem plusLines_starLine (tables : PrintTables) (b : PrintBnst) (t : PrintTag) :
    plusLines (starLine tables b t) = [] := by
  unfold starLine
  split_ifs <;> rfl

theorem starLines_starLine (tables : PrintTables) (b : PrintBnst) (t : PrintTag) :
    starLines (starLine tables b t) = List.replicate (if 0 ≤ t.bnum then 1 else 0)
      (if b.dpndHead = -1 then -1 else tables.bTable b.dpndHead) := by
  unfold starLine
  split_ifs <;> rfl

theorem plusLines_nodes (s : Int) (f : Nat → Int) : ∀ n : Nat,
    plusLines ((List.range n).flatMap fun j => [.star s, .plus (f j) none]) =
      (List.range n).map fun j => (f j, none)
  | 0 => rfl
  | n + 1 => by
      rw [List.range_succ, List.flatMap_append, plusLines_append, plusLines_nodes s f n,
        List.map_append]
      rfl

theorem starLines_nodes (s : Int) (f : Nat → Int) : ∀ n : Nat,
    starLines ((List.range n).flatMap fun j => [.star s, .plus (f j) none]) = List.replicate n s
  | 0 => rfl
  | n + 1 => by
      rw [List.range_succ, List.flatMap_append, starLines_append, starLines_nodes s f n,
        List.replicate_succ']
      rfl

theorem plusLines_tagLines (tables : PrintTables) (st : PrintState) (t : PrintTag) :
    plusLines (tagLines inp tables st t) =
      ((List.range (inp.nodesBefore st.preBp t)).map fun j =>
        (nodeHead tables st.proj (inp.bnst t.bPtr) (st.count + j), none)) ++
      (if t.bunkai then [(tables.tTable t.num, none)] else []) ++
      [(printedHead inp tables st.proj t, some t.num)] := by
  have hsplit : plusLines (if t.bunkai then starLine tables (inp.bnst t.bPtr) t ++
      [.plus (tables.tTable t.num) none] else []) =
        if t.bunkai then [(tables.tTable t.num, none)] else [] := by
    split_ifs
    · rw [plusLines_append, plusLines_starLine]
      rfl
    · rfl
  have hstar : plusLines (if t.bunkai ∧ t.independent ≠ 0 then []
      else starLine tables (inp.bnst t.bPtr) t) = [] := by
    split_ifs
    · rfl
    · exact plusLines_starLine ..
  rw [tagLines, plusLines_append, plusLines_append, plusLines_append, hsplit, hstar,
    List.append_nil, ← plusLines_nodes (tables.bTable (inp.bnst t.bPtr).num)]
  rfl

theorem starLines_tagLines (tables : PrintTables) (st : PrintState) (t : PrintTag) :
    starLines (tagLines inp tables st t) =
      List.replicate (inp.nodesBefore st.preBp t) (tables.bTable (inp.bnst t.bPtr).num) ++
      List.replicate ((if 0 ≤ t.bnum then 1 else 0) +
          if 0 ≤ t.bnum ∧ t.bunkai ∧ t.independent = 0 then 1 else 0)
        (if (inp.bnst t.bPtr).dpndHead = -1 then -1
          else tables.bTable (inp.bnst t.bPtr).dpndHead) := by
  have hplus : ∀ h o, starLines [.plus h o] = [] := fun _ _ => rfl
  have hstar : starLines (if t.bunkai then starLine tables (inp.bnst t.bPtr) t ++
      [.plus (tables.tTable t.num) none] else []) ++
      starLines (if t.bunkai ∧ t.independent ≠ 0 then [] else starLine tables (inp.bnst t.bPtr) t) =
      List.replicate ((if 0 ≤ t.bnum then 1 else 0) +
          if 0 ≤ t.bnum ∧ t.bunkai ∧ t.independent = 0 then 1 else 0)
        (if (inp.bnst t.bPtr).dpndHead = -1 then -1
          else tables.bTable (inp.bnst t.bPtr).dpndHead) := by
    by_cases hbunkai : t.bunkai = true
    · rw [if_pos hbunkai, starLines_append, starLines_starLine, hplus, List.append_nil]
      by_cases hind : t.independent = 0
      · have hno : ¬(t.bunkai = true ∧ t.independent ≠ 0) := fun h => h.2 hind
        have hiff : (0 ≤ t.bnum ∧ t.bunkai = true ∧ t.independent = 0) ↔ 0 ≤ t.bnum := by
          simp [hbunkai, hind]
        rw [if_neg hno, starLines_starLine, ← List.replicate_add]
        simp only [hiff]
      · have hno : ¬(0 ≤ t.bnum ∧ t.bunkai = true ∧ t.independent = 0) := fun h => hind h.2.2
        have hyes : t.bunkai = true ∧ t.independent ≠ 0 := ⟨hbunkai, hind⟩
        rw [if_pos hyes, if_neg hno, Nat.add_zero]
        exact List.append_nil _
    · have hno : ¬(t.bunkai = true ∧ t.independent ≠ 0) := fun h => hbunkai h.1
      have hno' : ¬(0 ≤ t.bnum ∧ t.bunkai = true ∧ t.independent = 0) := fun h => hbunkai h.2.1
      rw [if_neg hbunkai, if_neg hno, if_neg hno', starLines_starLine, Nat.add_zero]
      rfl
  rw [tagLines, starLines_append, starLines_append, starLines_append, starLines_nodes, hplus,
    List.append_nil, List.append_assoc, hstar]

/-- The counters and the lines after some tags. -/
structure PrintedTo (inp : PrintInput) (mem : PrintMemory) (i : Nat) (st : PrintState) : Prop where
  count : st.count = inp.lines i
  preBp : st.preBp = inp.prev i
  plus : plusLines st.out = text (plusBlock inp mem) i
  star : starLines st.out = text (starBlock inp mem) i

theorem printedTo_stateTo (hwf : inp.WellFormed) (hi : i ≤ inp.tagNum) :
    PrintedTo inp mem i (stateTo inp mem i) := by
  induction i with
  | zero => exact ⟨rfl, rfl, rfl, rfl⟩
  | succ i ih =>
      have h := ih (by omega)
      have hk : inp.nodesBefore (stateTo inp mem i).preBp (inp.tag i) = inp.nodes i := by
        rw [h.preBp]
        rfl
      have hnum := hwf.num i hi
      have hline : (numberTags inp mem).tTable (i : Nat) = inp.line i :=
        (numberedTo_numberTags hwf).tTable i hi
      rw [stateTo_succ inp mem hi]
      refine ⟨?_, rfl, ?_, ?_⟩
      · simp only [printTag, hk, h.count]
        rfl
      · simp only [printTag, plusLines_append, plusLines_tagLines, hk, h.plus, h.count, hnum, hline,
          text_succ]
        rfl
      · simp only [printTag, starLines_append, starLines_tagLines, hk, h.star, text_succ]
        rfl

theorem length_plusBlock (x : Nat) :
    (plusBlock inp mem x).length = inp.nodes x + inp.split x + 1 := by
  unfold plusBlock split
  split_ifs <;> simp

theorem start_plusBlock (x : Nat) : start (plusBlock inp mem) x = inp.lines x := by
  induction x with
  | zero => rfl
  | succ x ih =>
      rw [start, ih, length_plusBlock, lines_succ, line]
      omega

theorem start_starBlock (x : Nat) :
    start (starBlock inp mem) x = inp.stars x + doubled inp x := by
  induction x with
  | zero => rfl
  | succ x ih =>
      rw [start, ih, starBlock, List.length_append, List.length_replicate, List.length_replicate,
        stars, doubled]
      omega

/-- The `+` lines for tag `x` with their heads. -/
inductive PlusLine (inp : PrintInput) (mem : PrintMemory) (x : Nat) : Nat → Int → Option Int → Prop
  | node (j : Nat) : j < inp.nodes x →
      PlusLine inp mem x (inp.lines x + j) (nodeHeadAt inp mem x j) none
  | split : (inp.tag x).bunkai → PlusLine inp mem x (inp.lines x + inp.nodes x) (inp.line x) none
  | tag : PlusLine inp mem x (inp.line x) (headAt inp mem x) (some (x : Int))

theorem plusBlock_getElem?_iff {h : Int} {o : Option Int} :
    (plusBlock inp mem x)[j]? = some (h, o) ↔ PlusLine inp mem x (inp.lines x + j) h o := by
  have hnode : ∀ rest, j < inp.nodes x → (((List.range (inp.nodes x)).map fun j =>
      (nodeHeadAt inp mem x j, (none : Option Int))) ++ rest)[j]? =
        some (nodeHeadAt inp mem x j, none) := by
    intro rest hj
    rw [List.getElem?_append_left (by simpa using hj)]
    simp [hj]
  have hrest : ∀ rest : List (Int × Option Int), inp.nodes x ≤ j →
      (((List.range (inp.nodes x)).map fun j =>
        (nodeHeadAt inp mem x j, (none : Option Int))) ++ rest)[j]? = rest[j - inp.nodes x]? := by
    intro rest hj
    rw [List.getElem?_append_right (by simpa using hj)]
    simp
  rw [plusBlock, List.append_assoc]
  constructor
  · intro hget
    by_cases hj : j < inp.nodes x
    · rw [hnode _ hj] at hget
      cases hget
      exact .node j hj
    · rw [hrest _ (not_lt.mp hj)] at hget
      obtain ⟨k, rfl⟩ := Nat.exists_eq_add_of_le (not_lt.mp hj)
      rw [Nat.add_sub_cancel_left] at hget
      by_cases hbunkai : (inp.tag x).bunkai = true
      · rw [if_pos hbunkai] at hget
        have hline : inp.lines x + (inp.nodes x + 1) = inp.line x := by
          rw [line, PrintInput.split, if_pos hbunkai, Nat.add_assoc]
        rcases k with _ | _ | k
        · cases hget
          exact .split hbunkai
        · cases hget
          rw [hline]
          exact .tag
        · cases hget
      · rw [if_neg hbunkai] at hget
        have hline : inp.lines x + inp.nodes x = inp.line x := by
          rw [line, PrintInput.split, if_neg hbunkai, Nat.add_zero]
        rcases k with _ | k
        · cases hget
          rw [Nat.add_zero, hline]
          exact .tag
        · cases hget
  · intro hplus
    generalize hc : inp.lines x + j = c at hplus
    cases hplus with
    | node j' hj' =>
        obtain rfl : j = j' := by omega
        exact hnode _ hj'
    | split hbunkai =>
        obtain rfl : j = inp.nodes x := by omega
        rw [hrest _ le_rfl, Nat.sub_self, if_pos hbunkai]
        rfl
    | tag =>
        have hj : j = inp.nodes x + inp.split x := by
          rw [line] at hc
          omega
        rw [hrest _ (by omega), hj, Nat.add_sub_cancel_left]
        unfold PrintInput.split
        split_ifs <;> rfl

/-- The `+` lines that are printed. -/
theorem plusLines_getElem?_iff (hwf : inp.WellFormed) {c : Nat} {h : Int} {o : Option Int} :
    (plusLines (stateTo inp mem inp.tagNum).out)[c]? = some (h, o) ↔
      ∃ x < inp.tagNum, PlusLine inp mem x c h o := by
  rw [(printedTo_stateTo hwf le_rfl).plus, getElem?_text_iff]
  constructor
  · rintro ⟨x, hx, j, rfl, hj⟩
    rw [start_plusBlock]
    exact ⟨x, hx, plusBlock_getElem?_iff.mp hj⟩
  · rintro ⟨x, hx, hplus⟩
    have hle : inp.lines x ≤ c := by
      cases hplus with
      | node => exact Nat.le_add_right _ _
      | split => exact Nat.le_add_right _ _
      | tag => exact inp.lines_le_line x
    obtain ⟨j, rfl⟩ := Nat.exists_eq_add_of_le hle
    exact ⟨x, hx, j, by rw [start_plusBlock], plusBlock_getElem?_iff.mpr hplus⟩

theorem length_plusLines (hwf : inp.WellFormed) :
    (plusLines (stateTo inp mem inp.tagNum).out).length = inp.lines inp.tagNum := by
  rw [(printedTo_stateTo hwf le_rfl).plus, length_text, start_plusBlock]

end Blocks

end Knp
