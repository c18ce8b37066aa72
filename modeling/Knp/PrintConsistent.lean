import Knp.PrintArcs

/-!
# When the printed parse is consistent

> `print_tags` prints a consistent parse just if the heads are behind the tags, the
> nodes have their bunsetsu and its last tag, and no `*` line is printed twice
> where that counts.

The `*` line is printed twice for a tag that is split and starts with the copula:
the number of morphemes before the copula is taken for the flag that says whether
the line was printed.
-/

namespace Knp

open Layout PrintInput

/-- The inputs for which the printed parse is consistent. -/
structure Printable (inp : PrintInput) : Prop where
  fits : inp.lines inp.tagNum ≤ TAG_MAX
  tags : ∀ x < inp.tagNum, (inp.tag x).dpndHead = -1 ∨ (x : Int) < (inp.tag x).dpndHead
  nodes : ∀ x < inp.tagNum, 0 < inp.nodes x →
    (inp.bnstOf x).headNum ≠ -1 ∧ (inp.bnstOf x).num ≠ -1 ∧ doubled inp x = 0
  stars : ∀ x < inp.tagNum, inp.Begins x → (inp.bnstOf x).dpndHead = -1 ∨
    ∃ y < inp.tagNum, inp.Begins y ∧ (inp.bnstOf x).dpndHead = inp.begins y ∧
      inp.star x + doubled inp (x + 1) < inp.star y

section Consistent

variable {inp : PrintInput} {mem : PrintMemory} {c x y : Nat} {h : Int} {o : Option Int}

/-! ## `*` lines -/

theorem bTable_eq (hwf : inp.WellFormed) (hx : x < inp.tagNum) (hbegins : inp.Begins x) :
    (numberTags inp mem).bTable (inp.begins x : Nat) = inp.star x :=
  (numberedTo_numberTags hwf).bTable x hx hbegins

/-- The `*` lines for tag `x`: those of the nodes and that of the bunsetsu. -/
def StarLine (inp : PrintInput) (mem : PrintMemory) (x c : Nat) (h : Int) : Prop :=
  (∃ j < inp.nodes x, c = inp.stars x + doubled inp x + j ∧
    h = (numberTags inp mem).bTable (inp.bnstOf x).num) ∨
  ∃ j < inp.begin x + doubles inp x, c = inp.star x + doubled inp x + j ∧
    h = bunsetsuHead inp mem x

theorem starLines_getElem?_iff (hwf : inp.WellFormed) :
    (starLines (stateTo inp mem inp.tagNum).out)[c]? = some h ↔
      ∃ x < inp.tagNum, StarLine inp mem x c h := by
  rw [(printedTo_stateTo hwf le_rfl).star, getElem?_text_iff]
  refine exists_congr fun x => and_congr_right fun _ => ?_
  rw [start_starBlock]
  constructor
  · rintro ⟨j, rfl, hj⟩
    by_cases hlt : j < inp.nodes x
    · rw [starBlock, List.getElem?_append_left (by simpa using hlt)] at hj
      exact .inl ⟨j, hlt, rfl, (List.eq_of_mem_replicate (List.mem_of_getElem? hj))⟩
    · rw [starBlock, List.getElem?_append_right (by simpa using hlt), List.length_replicate] at hj
      have hlen := (List.getElem?_eq_some_iff.mp hj).1
      rw [List.length_replicate] at hlen
      refine .inr ⟨j - inp.nodes x, hlen, ?_, List.eq_of_mem_replicate (List.mem_of_getElem? hj)⟩
      rw [PrintInput.star]
      omega
  · rintro (⟨j, hj, rfl, rfl⟩ | ⟨j, hj, rfl, rfl⟩)
    · refine ⟨j, rfl, ?_⟩
      rw [starBlock, List.getElem?_append_left (by simpa using hj), List.getElem?_replicate,
        if_pos hj]
    · refine ⟨inp.nodes x + j, by rw [PrintInput.star]; omega, ?_⟩
      rw [starBlock, List.getElem?_append_right (by simp), List.length_replicate,
        Nat.add_sub_cancel_left, List.getElem?_replicate, if_pos hj]

theorem length_starLines (hwf : inp.WellFormed) :
    (starLines (stateTo inp mem inp.tagNum).out).length =
      inp.stars inp.tagNum + doubled inp inp.tagNum := by
  rw [(printedTo_stateTo hwf le_rfl).star, length_text, start_starBlock]

/-- A tag before which nodes are inserted starts its bunsetsu, if that was kept. -/
theorem begins_of_nodes (hwf : inp.WellFormed) (hx : x < inp.tagNum) (hnodes : 0 < inp.nodes x)
    (hnum : (inp.bnstOf x).num ≠ -1) : inp.Begins x := by
  refine hwf.first x hx (fun heq => ?_) hnum
  unfold PrintInput.nodes nodesBefore at hnodes
  simp [heq] at hnodes

variable (mem) in
theorem star_lt_length (hwf : inp.WellFormed) (hx : x < inp.tagNum) (hbegins : inp.Begins x) :
    (inp.star x : Int) < (starLines (stateTo inp mem inp.tagNum).out).length := by
  have hsucc : inp.stars (x + 1) = inp.star x + 1 := by
    rw [PrintInput.stars, begin, if_pos hbegins]
    rfl
  have hmono : inp.stars (x + 1) ≤ inp.stars inp.tagNum := inp.stars_mono hx
  rw [length_starLines hwf]
  omega

theorem bunsetsuHead_eq (hwf : inp.WellFormed) (hy : y < inp.tagNum) (hbegins : inp.Begins y)
    (hhead : (inp.bnstOf x).dpndHead = inp.begins y) : bunsetsuHead inp mem x = inp.star y := by
  have hne : (inp.begins y : Int) ≠ -1 := by omega
  rw [bunsetsuHead, hhead, if_neg hne, bTable_eq hwf hy hbegins]

theorem StarLine.ok (hwf : inp.WellFormed) (hok : Printable inp) (hx : x < inp.tagNum)
    (hs : StarLine inp mem x c h) :
    h = -1 ∨ (c : Int) < h ∧ h < (starLines (stateTo inp mem inp.tagNum).out).length := by
  rcases hs with ⟨j, hj, rfl, rfl⟩ | ⟨j, hj, rfl, rfl⟩
  · obtain ⟨-, hnum, hzero⟩ := hok.nodes x hx (Nat.zero_lt_of_lt hj)
    have hbegins := begins_of_nodes hwf hx (Nat.zero_lt_of_lt hj) hnum
    have := star_lt_length mem hwf hx hbegins
    have hstar : inp.star x = inp.stars x + inp.nodes x := rfl
    rw [(hwf.bnum x hx hbegins).2, bTable_eq hwf hx hbegins, hzero]
    exact .inr ⟨by omega, this⟩
  · have hbegins : inp.Begins x := by
      by_contra hno
      have hno' : ¬(inp.Begins x ∧ (inp.tag x).bunkai ∧ (inp.tag x).independent = 0) := fun h => hno h.1
      rw [begin, doubles, if_neg hno, if_neg hno'] at hj
      exact absurd hj (Nat.not_lt_zero _)
    rcases hok.stars x hx hbegins with hroot | ⟨y, hy, hbegins', hhead, hlt⟩
    · exact .inl (if_pos hroot)
    · have hone : inp.begin x = 1 := if_pos hbegins
      have := star_lt_length mem hwf hy hbegins'
      have hsucc : doubled inp (x + 1) = doubled inp x + doubles inp x := rfl
      rw [bunsetsuHead_eq hwf hy hbegins' hhead]
      exact .inr ⟨by omega, this⟩

/-! ## `+` lines -/

variable (mem) in
theorem line_lt_length (hwf : inp.WellFormed) (hx : x < inp.tagNum) :
    (inp.line x : Int) < (plusLines (stateTo inp mem inp.tagNum).out).length := by
  have := inp.line_lt_lines hx
  rw [length_plusLines hwf]
  omega

variable (mem) in
theorem headAt_ok (hwf : inp.WellFormed) (hok : Printable inp) (hx : x < inp.tagNum) :
    (inp.tag x).dpndHead = -1 ∧ headAt inp mem x = -1 ∨ (inp.line x : Int) < headAt inp mem x ∧
      headAt inp mem x < (plusLines (stateTo inp mem inp.tagNum).out).length := by
  rcases headAt_cases mem hwf hx with hroot | ⟨y, hy, hhead, hprint⟩
  · exact .inl hroot
  · have hxy : x < y := by
      rcases hok.tags x hx with hroot | hlt <;> omega
    have := inp.line_lt hxy
    have := line_lt_length mem hwf hy
    rcases hprint with heq | ⟨-, -, hlt, heq⟩
    · exact .inr (by omega)
    · exact .inr (by omega)

theorem PlusLine.ok (hwf : inp.WellFormed) (hok : Printable inp) (hx : x < inp.tagNum)
    (hp : PlusLine inp mem x c h o) : h = -1 ∧ (inp.tag x).dpndHead = -1 ∧ c = inp.line x ∨
      (c : Int) < h ∧ h < (plusLines (stateTo inp mem inp.tagNum).out).length := by
  cases hp with
  | node j hj =>
      obtain ⟨l, hl, hxl, hhead, -⟩ := (hwf.headNum x hx).resolve_left
        (hok.nodes x hx (Nat.zero_lt_of_lt hj)).1
      have hlen := line_lt_length mem hwf hl
      have hle := inp.line_le hxl
      have hline : inp.line x = inp.lines x + inp.nodes x + inp.split x := rfl
      rcases nodeHeadAt_cases mem hwf hx hl hhead j with heq | ⟨hlt, a, ha, -, hhigh, heq⟩
      · exact .inr (by omega)
      · exact .inr (by omega)
  | split hbunkai =>
      have hline : inp.line x = inp.lines x + inp.nodes x + 1 := by
        rw [line, PrintInput.split, if_pos hbunkai]
      have := line_lt_length mem hwf hx
      exact .inr (by omega)
  | tag =>
      rcases headAt_ok mem hwf hok hx with ⟨hroot, heq⟩ | hlt
      · exact .inl ⟨heq, hroot, rfl⟩
      · exact .inr hlt

theorem rightHeaded_plusLines (hwf : inp.WellFormed) (hok : Printable inp)
    (hright : Layout.RightHeaded inp.heads) :
    Layout.RightHeaded ((plusLines (stateTo inp mem inp.tagNum).out).map Prod.fst) := by
  intro c h hc
  rw [List.getElem?_map] at hc
  obtain ⟨⟨_, o⟩, hget, rfl⟩ := Option.map_eq_some_iff.mp hc
  obtain ⟨x, hx, hp⟩ := (plusLines_getElem?_iff hwf).mp hget
  rw [List.length_map]
  rcases hp.ok hwf hok hx with ⟨heq, hroot, rfl⟩ | hlt
  · refine .inl ⟨heq, ?_⟩
    have hlast : x + 1 = inp.tagNum := by
      rcases hright x _ (getElem?_heads hx) with ⟨-, hlast⟩ | ⟨hlt, -⟩
      · rwa [length_heads] at hlast
      · omega
    rw [length_plusLines hwf, ← hlast, lines_succ]
  · exact .inr hlt

theorem selfConsistent (hwf : inp.WellFormed) (hok : Printable inp) :
    SelfConsistent inp (numberTags inp mem) (stateTo inp mem inp.tagNum).out where
  total := by
    rw [length_plusLines hwf, (numberedTo_numberTags hwf).length]
  numbered c h n hc := by
    obtain ⟨x, hx, hp⟩ := (plusLines_getElem?_iff hwf).mp hc
    cases hp
    exact tTable_eq hwf hx
  plusHead c h o hc := by
    obtain ⟨x, hx, hp⟩ := (plusLines_getElem?_iff hwf).mp hc
    exact (hp.ok hwf hok hx).imp And.left id
  starHead c h hc := by
    obtain ⟨x, hx, hs⟩ := (starLines_getElem?_iff hwf).mp hc
    exact hs.ok hwf hok hx
  arcs hright hcross := ⟨rightHeaded_plusLines hwf hok hright,
    nonCrossing_plusLines hwf hcross fun x hx hnodes => (hok.nodes x hx hnodes).1⟩

/-! ## The condition is needed -/

/-- Memory that is all zeros. -/
def zeroMemory : PrintMemory := ⟨fun _ => 0, fun _ => 0⟩

theorem nodeHeadAt_zeroMemory (hwf : inp.WellFormed) (hx : x < inp.tagNum)
    (hhead : (inp.bnstOf x).headNum = -1) (j : Nat) : nodeHeadAt inp zeroMemory x j = 0 := by
  have hzero : (numberTags inp zeroMemory).tTable (-1) = 0 := (numberedTo_numberTags hwf).tMerged
  unfold nodeHeadAt nodeHead
  rw [hhead, hzero]
  refine if_neg fun hif => ?_
  obtain ⟨lo, -, -, hlt⟩ := (covers_stateTo _ hwf hx.le).attained _ hif.1
  omega

theorem printable_of_selfConsistent (hwf : inp.WellFormed) (hfits : inp.lines inp.tagNum ≤ TAG_MAX)
    (hout : SelfConsistent inp (numberTags inp zeroMemory) (stateTo inp zeroMemory inp.tagNum).out) :
    Printable inp := by
  have hplus : ∀ x < inp.tagNum, ∀ (c : Nat) h o, PlusLine inp zeroMemory x c h o →
      h = -1 ∨ (c : Int) < h := fun x hx c h o hp =>
    (hout.plusHead c h o ((plusLines_getElem?_iff hwf).mpr ⟨x, hx, hp⟩)).imp_right And.left
  have hstar : ∀ x < inp.tagNum, ∀ (c : Nat) h, StarLine inp zeroMemory x c h →
      h = -1 ∨ (c : Int) < h := fun x hx c h hs =>
    (hout.starHead c h ((starLines_getElem?_iff hwf).mpr ⟨x, hx, hs⟩)).imp_right And.left
  refine ⟨hfits, fun x hx => ?_, fun x hx hnodes => ?_, fun x hx hbegins => ?_⟩
  · rcases headAt_cases zeroMemory hwf hx with ⟨hroot, -⟩ | ⟨y, hy, hhead, hprint⟩
    · exact .inl hroot
    · have hlt := hplus x hx _ _ _ .tag
      have hxy : x < y := inp.lt_of_line_lt (by omega)
      exact .inr (by omega)
  · have hnum : (inp.bnstOf x).num ≠ -1 := by
      intro hmerged
      have hzero : (numberTags inp zeroMemory).bTable (-1) = 0 :=
        (numberedTo_numberTags hwf).bMerged
      have := hstar x hx _ _ (.inl ⟨0, hnodes, rfl, rfl⟩)
      rw [hmerged, hzero] at this
      omega
    have hbegins := begins_of_nodes hwf hx hnodes hnum
    refine ⟨fun hhead => ?_, hnum, ?_⟩
    · have := hplus x hx _ _ _ (.node 0 hnodes)
      rw [nodeHeadAt_zeroMemory hwf hx hhead] at this
      omega
    · have := hstar x hx _ _ (.inl ⟨inp.nodes x - 1, by omega, rfl, rfl⟩)
      rw [(hwf.bnum x hx hbegins).2, bTable_eq hwf hx hbegins] at this
      have hline : inp.star x = inp.stars x + inp.nodes x := rfl
      omega
  · refine (hwf.bhead x hx hbegins).imp_right ?_
    rintro ⟨y, hy, hbegins', hhead⟩
    have hone : inp.begin x = 1 := if_pos hbegins
    have := hstar x hx _ _ (.inr ⟨doubles inp x, by omega, rfl, rfl⟩)
    rw [bunsetsuHead_eq hwf hy hbegins' hhead] at this
    have hsucc : doubled inp (x + 1) = doubled inp x + doubles inp x := rfl
    exact ⟨y, hy, hbegins', hhead, by omega⟩

/-- The printed parse is consistent, whatever was in the tables before, just if the input is
printable. -/
theorem printTags_selfConsistent_iff (hwf : inp.WellFormed) :
    (∀ mem, ∃ out, printTags inp mem = some out ∧ SelfConsistent inp (numberTags inp mem) out) ↔
      Printable inp := by
  have hlen : ∀ mem, (numberTags inp mem).copula.length = inp.lines inp.tagNum := fun _ =>
    (numberedTo_numberTags hwf).length
  constructor
  · intro hall
    obtain ⟨out, hprint, hout⟩ := hall zeroMemory
    rw [printTags_eq, hlen] at hprint
    split_ifs at hprint with hfits
    cases hprint
    exact printable_of_selfConsistent hwf hfits hout
  · intro hok mem
    refine ⟨_, ?_, selfConsistent hwf hok⟩
    rw [printTags_eq, hlen, if_pos hok.fits]

end Consistent

/-- 彼の 本だ, with a person who is not expressed before 本だ, and 本だ split. -/
def kareNoHon : PrintInput where
  optRecoverPerson := true
  optCopula := true
  tags := [⟨0, 0, 0, 1, false, 0, true, true, none⟩, ⟨1, 1, 1, -1, true, 1, false, true, none⟩]
  bnst b := if b = 0 then ⟨0, 1, 0, 0⟩ else ⟨1, -1, 1, 1⟩

example : printTags kareNoHon zeroMemory = some [.star 2, .plus 2 (some 0), .star 2, .plus 2 none,
    .star (-1), .plus 3 none, .plus (-1) (some 1)] := by decide

theorem kareNoHon_wellFormed : kareNoHon.WellFormed where
  num := by decide
  head := by decide
  bnum := by decide
  bhead := by decide
  first := by decide
  sorted i j hij hj := by
    have hall : ∀ j < kareNoHon.tagNum, ∀ i ≤ j,
        (kareNoHon.tag i).bPtr ≤ (kareNoHon.tag j).bPtr := by decide
    exact hall j hj i hij
  headNum := by decide
  inside i hi j hj hlt := by
    have hlast : ∀ i < kareNoHon.tagNum, (kareNoHon.bnstOf i).headNum = (i : Nat) := by decide
    have := hlast i hi
    omega

theorem kareNoHon_selfConsistent : ∃ out, printTags kareNoHon zeroMemory = some out ∧
    SelfConsistent kareNoHon (numberTags kareNoHon zeroMemory) out :=
  (printTags_selfConsistent_iff kareNoHon_wellFormed).mpr
    ⟨by decide, by decide, by decide, by decide⟩ zeroMemory

/-- だと 思う, where the split tag starts with the copula. -/
def daToOmou : PrintInput where
  optRecoverPerson := false
  optCopula := true
  tags := [⟨0, 0, 0, 1, true, 0, false, true, none⟩, ⟨1, 1, 1, -1, false, 0, false, true, none⟩]
  bnst b := if b = 0 then ⟨0, 1, 0, 0⟩ else ⟨1, -1, 1, 0⟩

theorem daToOmou_wellFormed : daToOmou.WellFormed where
  num := by decide
  head := by decide
  bnum := by decide
  bhead := by decide
  first := by decide
  sorted i j hij hj := by
    have hall : ∀ j < daToOmou.tagNum, ∀ i ≤ j,
        (daToOmou.tag i).bPtr ≤ (daToOmou.tag j).bPtr := by decide
    exact hall j hj i hij
  headNum := by decide
  inside i hi j hj hlt := by
    have hlast : ∀ i < daToOmou.tagNum, (daToOmou.bnstOf i).headNum = (i : Nat) := by decide
    have := hlast i hi
    omega

/-- The `*` line of だと is printed twice, and line 1 has itself as its head. -/
theorem daToOmou_star_twice : daToOmou.WellFormed ∧
    printTags daToOmou zeroMemory = some [.star 1, .plus 1 none, .star 1, .plus 2 (some 0),
      .star (-1), .plus (-1) (some 1)] ∧
    ¬∃ out, printTags daToOmou zeroMemory = some out ∧
      SelfConsistent daToOmou (numberTags daToOmou zeroMemory) out := by
  have hprint : printTags daToOmou zeroMemory = some [.star 1, .plus 1 none, .star 1,
      .plus 2 (some 0), .star (-1), .plus (-1) (some 1)] := by decide
  refine ⟨daToOmou_wellFormed, hprint, ?_⟩
  rintro ⟨out, hout, hconsistent⟩
  obtain rfl := Option.some.inj (hprint.symm.trans hout)
  rcases hconsistent.starHead 1 1 rfl with h | h
  · omega
  · omega

end Knp
