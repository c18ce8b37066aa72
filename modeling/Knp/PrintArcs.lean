import Knp.PrintBlocks

/-!
# The heads of the printed lines

A tag is printed with the line of its head, or with the part before the copula
if the head is split; an additional node with the last tag of the bunsetsu, or
with the nearest head above it.

> If the heads of the tags are behind them and do not cross, the printed ones are
> and do not.

What makes it so is `t_proj_table`: nothing is printed with a head beyond one
that is recorded above it.
-/

namespace Knp

open Layout PrintInput

section Arcs

variable {inp : PrintInput} {mem : PrintMemory} {a b c d x y : Nat} {h h' : Int}
  {o : Option Int}

theorem tTable_eq (hwf : inp.WellFormed) (hx : x < inp.tagNum) :
    (numberTags inp mem).tTable (x : Nat) = inp.line x :=
  (numberedTo_numberTags hwf).tTable x hx

theorem copula_eq (hwf : inp.WellFormed) (hx : x < inp.tagNum) :
    (numberTags inp mem).copula.getD ((inp.line x : Int)).toNat false = (inp.tag x).bunkai :=
  (numberedTo_numberTags hwf).copula x hx

/-- The arc of a tag that was printed before tag `i`. -/
def TagArc (inp : PrintInput) (mem : PrintMemory) (i : Nat) (lo hi : Int) : Prop :=
  ∃ a < i, lo = inp.line a ∧ hi = headAt inp mem a

variable (mem) in
theorem covers_stateTo (hwf : inp.WellFormed) (hx : x ≤ inp.tagNum) :
    Covers (TagArc inp mem x) (stateTo inp mem x).proj := by
  induction x with
  | zero => exact Covers.zero.mono fun _ _ => ⟨nofun, fun ⟨_, h, _⟩ => absurd h (Nat.not_lt_zero _)⟩
  | succ x ih =>
      rw [stateTo_succ inp mem hx]
      have hlo : (0 : Int) ≤ inp.line x := Int.natCast_nonneg _
      have hnum : (numberTags inp mem).tTable (inp.tag x).num = inp.line x := by
        rw [hwf.num x hx]
        exact tTable_eq hwf hx
      have hcov : Covers _ (record _ (inp.line x) (headAt inp mem x)) := (ih (by omega)).record hlo
      rw [← hnum] at hcov
      refine hcov.mono fun l r => ?_
      rw [hnum]
      constructor
      · rintro (⟨a, ha, hl, hr⟩ | ⟨hl, hr⟩)
        · exact ⟨a, by omega, hl, hr⟩
        · exact ⟨x, Nat.lt_succ_self x, hl, hr⟩
      · rintro ⟨a, ha, hl, hr⟩
        rcases Nat.lt_or_eq_of_le (Nat.le_of_lt_succ ha) with hlt | rfl
        · exact .inl ⟨a, hlt, hl, hr⟩
        · exact .inr ⟨hl, hr⟩

/-! ## Tags -/

variable (mem) in
/-- A tag without a head, with the line of its head, or with the one before the copula. -/
theorem headAt_cases (hwf : inp.WellFormed) (hx : x < inp.tagNum) :
    (inp.tag x).dpndHead = -1 ∧ headAt inp mem x = -1 ∨
    ∃ y < inp.tagNum, (inp.tag x).dpndHead = (y : Nat) ∧
      (headAt inp mem x = inp.line y ∨
        inp.optCopula ∧ (inp.tag y).bunkai ∧ (inp.line x : Int) < inp.line y - 1 ∧
          headAt inp mem x = inp.line y - 1) := by
  rcases hwf.head x hx with hroot | ⟨y, hy, hhead⟩
  · refine .inl ⟨hroot, ?_⟩
    simp [headAt, printedHead, hroot]
  · have hne : (y : Int) ≠ -1 := by omega
    refine .inr ⟨y, hy, hhead, ?_⟩
    unfold headAt printedHead
    simp only [hhead, if_neg hne, tTable_eq hwf hy, copula_eq hwf hy, hwf.num x hx, tTable_eq hwf hx]
    split_ifs with hif
    · exact .inr ⟨hif.1, hif.2.2.1, hif.2.2.2.1, rfl⟩
    · exact .inl rfl

/-- 非交差条件 -/
theorem headAt_eq_of_proj (hwf : inp.WellFormed) (hx : x < inp.tagNum) (hy : y < inp.tagNum)
    (hhead : (inp.tag x).dpndHead = (y : Nat)) (hcopula : inp.optCopula) (hbunkai : (inp.tag y).bunkai)
    (hline : (inp.line x : Int) < inp.line y - 1)
    (hproj : (stateTo inp mem x).proj (inp.line x) ≠ 0)
    (hlt : (stateTo inp mem x).proj (inp.line x) < inp.line y) :
    headAt inp mem x = inp.line y - 1 := by
  have hne : (y : Int) ≠ -1 := by omega
  have hline' : (inp.line y : Int) ≠ -1 := by omega
  unfold headAt printedHead
  simp only [hhead, if_neg hne, tTable_eq hwf hy, copula_eq hwf hy, hwf.num x hx, tTable_eq hwf hx]
  exact if_pos ⟨hcopula, hline', hbunkai, hline, .inr ⟨hproj, hlt⟩⟩

variable (mem) in
theorem headAt_le (hwf : inp.WellFormed) (hx : x < inp.tagNum) (hy : y < inp.tagNum)
    (hhead : (inp.tag x).dpndHead = (y : Nat)) :
    headAt inp mem x ≠ -1 ∧ headAt inp mem x ≤ inp.line y := by
  rcases headAt_cases mem hwf hx with ⟨hroot, -⟩ | ⟨z, -, hz, heq | ⟨-, -, hlt, heq⟩⟩
  · omega
  · obtain rfl : z = y := by omega
    omega
  · obtain rfl : z = y := by omega
    omega

/-! ## Additional nodes -/

variable (mem) in
theorem nodeHeadAt_cases (hwf : inp.WellFormed) (hx : x < inp.tagNum) (hy : y < inp.tagNum)
    (hhead : (inp.bnstOf x).headNum = (y : Nat)) (j : Nat) :
    nodeHeadAt inp mem x j = inp.line y ∨ nodeHeadAt inp mem x j < inp.line y ∧
      ∃ a < x, (inp.line a : Int) ≤ (inp.lines x + j : Nat) ∧
        ((inp.lines x + j : Nat) : Int) < headAt inp mem a ∧
        nodeHeadAt inp mem x j = headAt inp mem a := by
  unfold nodeHeadAt nodeHead
  rw [hhead, tTable_eq hwf hy]
  split_ifs with hif
  · obtain ⟨lo, ⟨a, ha, rfl, hhi⟩, hle, hlt⟩ := (covers_stateTo _ hwf hx.le).attained _ hif.1
    exact .inr ⟨hif.2, a, ha, hle, hhi ▸ hlt, hhi⟩
  · exact .inl rfl

/-- Nothing is printed beyond a head that is recorded. -/
theorem nodeHeadAt_le_headAt (hwf : inp.WellFormed) (hx : x < inp.tagNum) (ha : a < x) {j : Nat}
    (hle : inp.line a ≤ inp.lines x + j)
    (hlt : ((inp.lines x + j : Nat) : Int) < headAt inp mem a) :
    nodeHeadAt inp mem x j ≤ headAt inp mem a := by
  have hcov := (covers_stateTo mem hwf hx.le).least _ _ _ ⟨a, ha, rfl, rfl⟩
    (Int.ofNat_le.mpr hle) hlt
  unfold nodeHeadAt nodeHead
  split_ifs with hif
  · exact hcov.2
  · have := not_and.mp hif hcov.1
    omega

/-! ## Lines -/

/-- A line of a tag is not before the lines of the tags before it. -/
theorem PlusLine.bounds (hp : PlusLine inp mem x c h o) : inp.lines x ≤ c ∧ c ≤ inp.line x := by
  cases hp with
  | node j hj =>
      rw [line]
      omega
  | split => exact ⟨Nat.le_add_right _ _, Nat.le_add_right _ _⟩
  | tag => exact ⟨inp.lines_le_line x, le_rfl⟩

theorem PlusLine.le_of_lt {o' : Option Int} (hp : PlusLine inp mem x c h o)
    (hq : PlusLine inp mem y d h' o') (hcd : c < d) : x ≤ y := by
  by_contra hlt
  have := hp.bounds
  have := hq.bounds
  have := inp.line_lt_lines (not_le.mp hlt)
  omega

theorem tag_le_of_lines_le (h : inp.lines x ≤ inp.line y) : x ≤ y := by
  by_contra hlt
  have := inp.line_lt_lines (not_le.mp hlt)
  omega

/-- The last tag of the bunsetsu was kept wherever a node is inserted. -/
def NodesKept (inp : PrintInput) : Prop :=
  ∀ x < inp.tagNum, 0 < inp.nodes x → (inp.bnstOf x).headNum ≠ -1

theorem getElem?_heads (hx : x < inp.tagNum) : inp.heads[x]? = some (inp.tag x).dpndHead := by
  have hget : inp.kept[x]? = some (inp.tag x) :=
    (List.getElem?_eq_getElem hx).trans (congrArg some (List.getD_eq_getElem _ _ hx).symm)
  rw [heads, List.getElem?_map, hget]
  rfl

theorem length_heads : inp.heads.length = inp.tagNum := List.length_map _

section NonCrossing

variable (hwf : inp.WellFormed) (hright : Layout.RightHeaded inp.heads)
  (hcross : Layout.NonCrossing inp.heads)

include hwf hcross in
/-- A tag below the printed arc of a tag. -/
theorem headAt_le_headAt (hax : a < x) (hx : x < inp.tagNum)
    (hlt : (inp.line x : Int) < headAt inp mem a) :
    headAt inp mem x ≠ -1 ∧ headAt inp mem x ≤ headAt inp mem a := by
  rcases headAt_cases mem hwf (hax.trans hx) with ⟨-, hroot⟩ | ⟨y, hy, hhead, hprint⟩
  · omega
  have hxy : x < y := inp.lt_of_line_lt (by omega)
  -- the head of the tag is not beyond that of the arc
  have hbelow := hcross a x _ _ (getElem?_heads (hax.trans hx)) (getElem?_heads hx) hax
    (by rw [hhead]; omega)
  obtain ⟨z, hz, hzhead⟩ := (hwf.head x hx).resolve_left hbelow.1
  have hzy : z ≤ y := by omega
  have hle := headAt_le mem hwf hx hz hzhead
  refine ⟨hle.1, ?_⟩
  rcases Nat.lt_or_eq_of_le hzy with hzlt | rfl
  · have := inp.line_add_split_lt hzlt
    have := inp.line_lt hzlt
    rcases hprint with heq | ⟨-, hbunkai, -, heq⟩
    · omega
    · have hsplit : inp.split y = 1 := if_pos hbunkai
      have := inp.lines_succ z
      have := inp.lines_mono (i := z + 1) (j := y) hzlt
      have : inp.line y = inp.lines y + inp.nodes y + inp.split y := rfl
      omega
  · rcases hprint with heq | ⟨hcopula, hbunkai, -, heq⟩
    · omega
    · have hcov := (covers_stateTo mem hwf hx.le).least _ _ (inp.line x)
        ⟨a, hax, rfl, rfl⟩ (Int.ofNat_le.mpr (inp.line_lt hax).le) hlt
      rw [headAt_eq_of_proj hwf hx hz hzhead hcopula hbunkai (by omega) hcov.1 (by omega), heq]

include hwf hcross in
/-- A line below the printed arc of a tag. -/
theorem PlusLine.le_headAt (hp : PlusLine inp mem x d h' o) (hx : x < inp.tagNum)
    (hkept : NodesKept inp) (hd : inp.line a < d) (hlt : (d : Int) < headAt inp mem a) :
    h' ≠ -1 ∧ h' ≤ headAt inp mem a := by
  have hax : a < x := by
    by_contra hle
    have := hp.bounds
    have := inp.line_le (not_lt.mp hle)
    omega
  cases hp with
  | node j hj =>
      have hle := nodeHeadAt_le_headAt hwf hx hax hd.le hlt
      obtain ⟨y, hy, hxy, hhead, -⟩ := (hwf.headNum x hx).resolve_left
        (hkept x hx (Nat.zero_lt_of_lt hj))
      rcases nodeHeadAt_cases mem hwf hx hy hhead j with heq | ⟨-, b, hb, hlow, hhigh, heq⟩
      · omega
      · omega
  | split hbunkai =>
      have : inp.line x = inp.lines x + inp.nodes x + 1 := by
        rw [line, PrintInput.split, if_pos hbunkai]
      omega
  | tag => exact headAt_le_headAt hwf hcross hax hx hlt

include hwf in
/-- A line between an additional node and the last tag of the bunsetsu. -/
theorem PlusLine.le_line (hp : PlusLine inp mem y d h' o) (hy : y < inp.tagNum)
    (hxy : x ≤ y) {l : Nat} (hl : l < inp.tagNum)
    (hlast : (inp.bnstOf x).headNum = (l : Nat)) (hptr : (inp.tag l).bPtr = (inp.tag x).bPtr)
    (hlt : d < inp.line l) : h' ≠ -1 ∧ h' ≤ inp.line l := by
  have hlines : inp.lines y ≤ inp.line l := by
    have := hp.bounds
    omega
  have hyl : y ≤ l := tag_le_of_lines_le hlines
  have hptr' : (inp.tag y).bPtr = (inp.tag x).bPtr := by
    have := hwf.sorted x y hxy hy
    have := hwf.sorted y l hyl hl
    omega
  have hlast' : (inp.bnstOf y).headNum = (l : Nat) := by
    rw [bnstOf, hptr']
    exact hlast
  cases hp with
  | node j hj =>
      rcases nodeHeadAt_cases mem hwf hy hl hlast' j with heq | ⟨hlt', b, hb, -, hhigh, heq⟩
      · omega
      · omega
  | split hbunkai =>
      have := inp.line_le hyl
      omega
  | tag =>
      have hlt' : y < l := inp.lt_of_line_lt hlt
      obtain ⟨hne, hle⟩ := hwf.inside y hy l hlast' hlt'
      obtain ⟨z, hz, hhead⟩ := (hwf.head y hy).resolve_left hne
      have := headAt_le mem hwf hy hz hhead
      have := inp.line_le (by omega : z ≤ l)
      omega

include hwf hcross in
theorem nonCrossing_plusLines (hkept : NodesKept inp) :
    Layout.NonCrossing ((plusLines (stateTo inp mem inp.tagNum).out).map Prod.fst) := by
  intro c d h h' hc hd hcd hlt
  rw [List.getElem?_map] at hc hd
  obtain ⟨⟨_, o⟩, hget, rfl⟩ := Option.map_eq_some_iff.mp hc
  obtain ⟨⟨_, o'⟩, hget', rfl⟩ := Option.map_eq_some_iff.mp hd
  obtain ⟨x, hx, hp⟩ := (plusLines_getElem?_iff hwf).mp hget
  obtain ⟨y, hy, hq⟩ := (plusLines_getElem?_iff hwf).mp hget'
  have hxy := hp.le_of_lt hq hcd
  cases hp with
  | node j hj =>
      obtain ⟨l, hl, hxl, hlast, hptr⟩ := (hwf.headNum x hx).resolve_left
        (hkept x hx (Nat.zero_lt_of_lt hj))
      rcases nodeHeadAt_cases mem hwf hx hl hlast j with heq | ⟨-, a, ha, hlow, -, heq⟩
      · have := hq.le_line hwf hy hxy hl hlast hptr (by omega)
        rwa [heq]
      · dsimp only at hlt ⊢
        rw [heq] at hlt ⊢
        exact hq.le_headAt hwf hcross hy hkept (by omega) hlt
  | split hbunkai =>
      have : inp.line x = inp.lines x + inp.nodes x + 1 := by
        rw [line, PrintInput.split, if_pos hbunkai]
      dsimp only at hlt
      omega
  | tag => exact hq.le_headAt hwf hcross hy hkept hcd hlt

end NonCrossing

end Arcs

end Knp
