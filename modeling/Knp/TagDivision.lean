import Knp.TagUnits

/-!
# What `make_tag_units` divides a sentence into

Two rows are cut at the same time, the morphemes into tags (`MrphRow`) and the
tags into bunsetsu (`TagRow`). Each turn opens a segment or extends the last one
in each of them; `Follows` ties the segments to the marks and the bunsetsu.
-/

namespace Knp.TagUnits

open Segments

variable {m i k n B : Nat} {f : List String} {tp : Tag} {s s' : Units}

/-! ## Fields -/

/-- The morphemes of a tag, by kind. -/
def Tag.parts (t : Tag) : Nat := t.settouNum + t.jirituNum + t.fuzokuNum

/-- What a tag says of its morphemes. -/
def Tag.span (t : Tag) : Nat × Nat × Nat × Nat := (t.num, t.mrphPtr, t.mrphNum, t.parts)

/-- What a tag says of its bunsetsu, the distance to the end apart. -/
def Tag.owner (t : Tag) : Int × Nat := (t.bnum, t.bPtr)

@[simp] theorem pushTagUnits_num : (pushTagUnits m f tp).num = tp.num := by
  unfold pushTagUnits
  split_ifs <;> rfl

@[simp] theorem pushTagUnits_mrphPtr : (pushTagUnits m f tp).mrphPtr = tp.mrphPtr := by
  unfold pushTagUnits
  split_ifs <;> rfl

@[simp] theorem pushTagUnits_mrphNum : (pushTagUnits m f tp).mrphNum = tp.mrphNum + 1 := by
  unfold pushTagUnits
  split_ifs <;> rfl

/-- A morpheme is of one kind. -/
@[simp] theorem pushTagUnits_parts : (pushTagUnits m f tp).parts = tp.parts + 1 := by
  unfold pushTagUnits Tag.parts
  split_ifs <;> dsimp only <;> omega

@[simp] theorem pushTagUnits_owner : (pushTagUnits m f tp).owner = tp.owner := by
  unfold pushTagUnits
  split_ifs <;> rfl

@[simp] theorem pushTagUnits_inum : (pushTagUnits m f tp).inum = tp.inum := by
  unfold pushTagUnits
  split_ifs <;> rfl

theorem pushTagUnits_span : (pushTagUnits m f tp).span =
    (tp.num, tp.mrphPtr, tp.mrphNum + 1, tp.parts + 1) := by
  simp [Tag.span]

@[simp] theorem makeMrphSetInum_tnum (mrph : Nat → MorphemeData) :
    (makeMrphSetInum n mrph k).tnum = (mrph k).tnum := by
  refine setInum_same MorphemeData.tnum ?_ n 0 mrph k
  intro _ _
  rfl

@[simp] theorem makeTagUnitSetInum_span (tag : Nat → Tag) :
    (makeTagUnitSetInum n tag k).span = (tag k).span := by
  refine setInum_same Tag.span ?_ (n - 1) 1 tag k
  intro _ _
  rfl

@[simp] theorem makeTagUnitSetInum_owner (tag : Nat → Tag) :
    (makeTagUnitSetInum n tag k).owner = (tag k).owner := by
  refine setInum_same Tag.owner ?_ (n - 1) 1 tag k
  intro _ _
  rfl

@[simp] theorem countBack_span : (s.countBack k).span = (s.tag k).span := by
  unfold Units.countBack
  split
  · exact makeTagUnitSetInum_span s.tag
  · rfl

@[simp] theorem countBack_owner : (s.countBack k).owner = (s.tag k).owner := by
  unfold Units.countBack
  split
  · exact makeTagUnitSetInum_owner s.tag
  · rfl

theorem countBack_of_le (hk : s.tagNum ≤ k) : s.countBack k = s.tag k := by
  unfold Units.countBack
  split
  · exact setInum_of_le s.tag (by omega)
  · rfl

/-! ## Morphemes in tags -/

/-- The first `i` morphemes lie in tags. Those of the last one are not counted yet. -/
structure MrphRow (i : Nat) (s : Units) : Prop where
  cut : Cut (fun j => (s.mrph j).tnum) (fun t => (s.tag t).mrphPtr) (fun t => (s.tag t).mrphNum)
    i s.tagNum
  counted : Segments.Counted (fun j => (s.mrph j).inum) (fun t => (s.tag t).mrphPtr)
    (fun t => (s.tag t).mrphNum) (s.tagNum - 1)
  num_eq : ∀ t < s.tagNum, (s.tag t).num = t
  parts_eq : ∀ t < s.tagNum, (s.tag t).parts = (s.tag t).mrphNum

/-- The last tag is counted too. -/
theorem makeMrphSetInum_counted {mrph : Nat → MorphemeData} {ptr len : Nat → Nat} {count : Nat}
    (hcut : Cut (fun j => (mrph j).tnum) ptr len i count)
    (h : Segments.Counted (fun j => (mrph j).inum) ptr len (count - 1)) :
    Segments.Counted (fun j => (makeMrphSetInum i mrph j).inum) ptr len count := by
  cases count with
  | zero =>
      intro t ht
      omega
  | succ count =>
      have hends := hcut.ends count (Nat.zero_le count) (by omega)
      have hpos := hcut.pos count (Nat.zero_le count) (by omega)
      refine Segments.Counted.setInum MorphemeData.tnum MorphemeData.inum ?_ ?_ hcut h (by omega)
        (Nat.add_zero i) ?_
      · intro _ _
        rfl
      · intro _ _
        rfl
      · intro j hlo hhi
        omega

section StartTag

theorem startTag_tnum_of_ne (hk : k ≠ i) : ((s.startTag i).mrph k).tnum = (s.mrph k).tnum := by
  unfold Units.startTag
  dsimp only
  rw [makeMrphSetInum_tnum, Function.update_of_ne hk]

@[simp] theorem startTag_tnum_self : ((s.startTag i).mrph i).tnum = s.tagNum := by
  unfold Units.startTag
  dsimp only
  rw [makeMrphSetInum_tnum, Function.update_self]

/-- Nothing behind the morpheme changes. -/
theorem startTag_mrph_of_lt (hk : i < k) : (s.startTag i).mrph k = s.mrph k := by
  unfold Units.startTag makeMrphSetInum
  dsimp only
  rw [setInum_of_le _ (by omega), Function.update_of_ne (by omega)]

theorem startTag_tag_of_ne (hk : k ≠ s.tagNum) : (s.startTag i).tag k = s.tag k :=
  Function.update_of_ne hk _ _

@[simp] theorem startTag_tag_self : (s.startTag i).tag s.tagNum = newTag s.tagNum i :=
  Function.update_self _ _ _

/-- The tag before is counted when the next one starts. -/
theorem startTag_counted (h : MrphRow i s) :
    Segments.Counted (fun j => ((s.startTag i).mrph j).inum) (fun t => (s.tag t).mrphPtr)
      (fun t => (s.tag t).mrphNum) s.tagNum := by
  have hstop : ∀ t < s.tagNum, (s.tag t).mrphPtr + (s.tag t).mrphNum ≤ i := by
    intro t ht
    exact h.cut.stop_le_hi (Nat.zero_le t) (by omega)
  refine makeMrphSetInum_counted (h.cut.congr ?_ (fun _ _ => rfl) (fun _ _ => rfl)) ?_
  · intro j hj
    rw [Function.update_of_ne (by omega)]
  · intro t ht j hlo hhi
    dsimp only at hlo hhi ⊢
    have hle := hstop t (by omega)
    rw [Function.update_of_ne (by omega)]
    exact h.counted t ht j hlo hhi

end StartTag

/-- Morpheme `i` starts a tag, with itself as the only morpheme. -/
theorem MrphRow.row_open (h : MrphRow i s) (hnum : s'.tagNum = s.tagNum + 1)
    (hmrph : s'.mrph = (s.startTag i).mrph)
    (hold : ∀ t < s.tagNum, (s'.tag t).span = (s.tag t).span)
    (hnew : (s'.tag s.tagNum).span = (s.tagNum, i, 1, 1)) : MrphRow (i + 1) s' := by
  simp only [Tag.span, Prod.mk.injEq] at hold hnew
  constructor
  case cut =>
    rw [hnum, hmrph]
    refine h.cut.cut_open ?_ (fun t ht => (hold t ht).2.1) (fun t ht => (hold t ht).2.2.1)
      startTag_tnum_self hnew.2.1 hnew.2.2.1
    intro j hj
    exact startTag_tnum_of_ne (by omega)
  case counted =>
    rw [hnum, Nat.add_sub_cancel, hmrph]
    intro t ht j hlo hhi
    dsimp only at hlo hhi ⊢
    rw [(hold t ht).2.1] at hlo hhi ⊢
    rw [(hold t ht).2.2.1] at hhi ⊢
    exact startTag_counted h t ht j hlo hhi
  case num_eq =>
    intro t ht
    rcases Nat.lt_or_ge t s.tagNum with hlt | hge
    · rw [(hold t hlt).1]
      exact h.num_eq t hlt
    · obtain rfl : t = s.tagNum := by omega
      exact hnew.1
  case parts_eq =>
    intro t ht
    rcases Nat.lt_or_ge t s.tagNum with hlt | hge
    · rw [(hold t hlt).2.2.2, (hold t hlt).2.2.1]
      exact h.parts_eq t hlt
    · obtain rfl : t = s.tagNum := by omega
      rw [hnew.2.2.2, hnew.2.2.1]

/-- Morpheme `i` belongs to the last tag. -/
theorem MrphRow.row_extend (h : MrphRow i s) {t : Nat} (ht : s.tagNum = t + 1)
    (hnum : s'.tagNum = s.tagNum)
    (hmrph : s'.mrph = Function.update s.mrph i { s.mrph i with tnum := -1 })
    (hold : ∀ u < t, (s'.tag u).span = (s.tag u).span)
    (hnew : (s'.tag t).span =
      ((s.tag t).num, (s.tag t).mrphPtr, (s.tag t).mrphNum + 1, (s.tag t).parts + 1)) :
    MrphRow (i + 1) s' := by
  simp only [Tag.span, Prod.mk.injEq] at hold hnew
  have hptr : ∀ u < t + 1, (s'.tag u).mrphPtr = (s.tag u).mrphPtr := by
    intro u hu
    rcases Nat.lt_succ_iff_lt_or_eq.mp hu with hlt | rfl
    · exact (hold u hlt).2.1
    · exact hnew.2.1
  have hcut := h.cut
  rw [ht] at hcut
  constructor
  case cut =>
    rw [hnum, ht, hmrph]
    refine hcut.cut_extend ?_ hptr (fun u hu => (hold u hu).2.2.1) ?_ hnew.2.2.1
    · intro j hj
      rw [Function.update_of_ne (by omega)]
    · rw [Function.update_self]
  case counted =>
    have hcounted := h.counted
    rw [hnum, hmrph, ht, Nat.add_sub_cancel]
    rw [ht, Nat.add_sub_cancel] at hcounted
    intro u hu j hlo hhi
    have hle := hcut.stop_le_hi (Nat.zero_le u) (by omega)
    dsimp only at hlo hhi hle ⊢
    rw [(hold u hu).2.1] at hlo hhi ⊢
    rw [(hold u hu).2.2.1] at hhi ⊢
    rw [Function.update_of_ne (by omega)]
    exact hcounted u hu j hlo hhi
  case num_eq =>
    intro u hu
    rcases Nat.lt_or_ge u t with hlt | hge
    · rw [(hold u hlt).1]
      exact h.num_eq u (by omega)
    · obtain rfl : u = t := by omega
      rw [hnew.1]
      exact h.num_eq u (by omega)
  case parts_eq =>
    intro u hu
    rcases Nat.lt_or_ge u t with hlt | hge
    · rw [(hold u hlt).2.2.2, (hold u hlt).2.2.1]
      exact h.parts_eq u (by omega)
    · obtain rfl : u = t := by omega
      rw [hnew.2.2.2, hnew.2.2.1, h.parts_eq u (by omega)]

/-! ## Tags in bunsetsu -/

/-- The tags lie in the first `B` bunsetsu. Those of the last one are not counted
yet and have the distance that `memset` gave them. -/
structure TagRow (B : Nat) (s : Units) : Prop where
  cut : Cut (fun t => (s.tag t).bnum) (fun b => (s.bnst b).tagPtr) (fun b => (s.bnst b).tagNum)
    s.tagNum B
  counted : Segments.Counted (fun t => (s.tag t).inum) (fun b => (s.bnst b).tagPtr)
    (fun b => (s.bnst b).tagNum) (B - 1)
  last_inum : ∀ b, B = b + 1 → ∀ t, (s.bnst b).tagPtr ≤ t → t < s.tagNum → (s.tag t).inum = 0
  bPtr_eq : ∀ b < B, ∀ t, (s.bnst b).tagPtr ≤ t → t < (s.bnst b).tagPtr + (s.bnst b).tagNum →
    (s.tag t).bPtr = b

/-- 遡ってinumを付与: then the last bunsetsu is counted too. -/
theorem TagRow.countBack_counted (h : TagRow B s) :
    Segments.Counted (fun t => (s.countBack t).inum) (fun b => (s.bnst b).tagPtr)
      (fun b => (s.bnst b).tagNum) B := by
  cases B with
  | zero =>
      intro b hb
      omega
  | succ b =>
      have hends := h.cut.ends b (Nat.zero_le b) (by omega)
      have hpos := h.cut.pos b (Nat.zero_le b) (by omega)
      have hlabel := h.cut.label_ptr b (by omega)
      have hcounted := h.counted
      rw [Nat.add_sub_cancel] at hcounted
      unfold Units.countBack
      split
      next hneg =>
        rw [Bool.and_eq_true, decide_eq_true_eq, decide_eq_true_eq] at hneg
        have hne : (s.bnst b).tagPtr ≠ s.tagNum - 1 := by
          intro heq
          rw [heq] at hlabel
          omega
        refine Segments.Counted.setInum (k := s.tagNum - 1) (c := 1) (fun t : Tag => t.bnum)
          (fun t : Tag => t.inum) ?_ ?_ h.cut hcounted (by omega) (by omega) ?_
        · intro _ _
          rfl
        · intro _ _
          rfl
        · intro j hlo hhi
          rw [h.last_inum b rfl j (by omega) hhi]
          omega
      next hpos' =>
        -- the bunsetsu has one tag
        have hone : (s.bnst b).tagNum = 1 := by
          by_contra hne
          have hinside := h.cut.label_inside b (by omega) (s.tagNum - 1) (by omega)
            (by omega)
          apply hpos'
          rw [Bool.and_eq_true, decide_eq_true_eq, decide_eq_true_eq]
          omega
        intro c hc t hlo hhi
        rcases Nat.lt_succ_iff_lt_or_eq.mp hc with hlt | rfl
        · exact hcounted c hlt t hlo hhi
        · dsimp only at hlo hhi ⊢
          rw [h.last_inum c rfl t hlo (by omega)]
          omega

/-- A tag starts a bunsetsu. -/
theorem TagRow.row_open (h : TagRow B s) (hnum : s'.tagNum = s.tagNum + 1)
    (hold : ∀ t < s.tagNum, (s'.tag t).owner = (s.tag t).owner)
    (hcounted : Segments.Counted (fun t => (s'.tag t).inum) (fun b => (s.bnst b).tagPtr)
      (fun b => (s.bnst b).tagNum) B)
    (hnew : (s'.tag s.tagNum).owner = ((B : Int), B)) (hinum : (s'.tag s.tagNum).inum = 0)
    (hbnst : ∀ b < B, s'.bnst b = s.bnst b) (hptr : (s'.bnst B).tagPtr = s.tagNum)
    (hlen : (s'.bnst B).tagNum = 1) : TagRow (B + 1) s' := by
  simp only [Tag.owner, Prod.mk.injEq] at hold hnew
  constructor
  case cut =>
    rw [hnum]
    refine h.cut.cut_open (fun t ht => (hold t ht).1) ?_ ?_ hnew.1 hptr hlen
    · intro b hb
      rw [hbnst b hb]
    · intro b hb
      rw [hbnst b hb]
  case counted =>
    rw [Nat.add_sub_cancel]
    intro b hb t hlo hhi
    dsimp only at hlo hhi ⊢
    rw [hbnst b hb] at hlo hhi ⊢
    exact hcounted b hb t hlo hhi
  case last_inum =>
    intro b hb t hlo hhi
    obtain rfl : b = B := by omega
    obtain rfl : t = s.tagNum := by omega
    exact hinum
  case bPtr_eq =>
    intro b hb t hlo hhi
    rcases Nat.lt_succ_iff_lt_or_eq.mp hb with hlt | rfl
    · have hle := h.cut.stop_le_hi (Nat.zero_le b) (by omega)
      rw [hbnst b hlt] at hlo hhi
      rw [(hold t (by omega)).2]
      exact h.bPtr_eq b hlt t hlo hhi
    · obtain rfl : t = s.tagNum := by omega
      exact hnew.2

/-- A tag belongs to the last bunsetsu. -/
theorem TagRow.row_extend (h : TagRow B s) {b : Nat} (hb : B = b + 1)
    (hnum : s'.tagNum = s.tagNum + 1)
    (hold : ∀ t < s.tagNum, (s'.tag t).owner = (s.tag t).owner ∧ (s'.tag t).inum = (s.tag t).inum)
    (hnew : (s'.tag s.tagNum).owner = (-1, b)) (hinum : (s'.tag s.tagNum).inum = 0)
    (hbnst : ∀ c < b, s'.bnst c = s.bnst c) (hptr : (s'.bnst b).tagPtr = (s.bnst b).tagPtr)
    (hlen : (s'.bnst b).tagNum = (s.bnst b).tagNum + 1) : TagRow B s' := by
  simp only [Tag.owner, Prod.mk.injEq] at hold hnew
  have hcut := h.cut
  rw [hb] at hcut
  have hends := hcut.ends b (Nat.zero_le b) (by omega)
  constructor
  case cut =>
    rw [hnum, hb]
    refine hcut.cut_extend (fun t ht => (hold t ht).1.1) ?_ ?_ hnew.1 hlen
    · intro c hc
      rcases Nat.lt_succ_iff_lt_or_eq.mp hc with hlt | rfl
      · rw [hbnst c hlt]
      · exact hptr
    · intro c hc
      rw [hbnst c hc]
  case counted =>
    have hcounted := h.counted
    rw [hb, Nat.add_sub_cancel] at hcounted ⊢
    intro c hc t hlo hhi
    have hle := hcut.stop_le_hi (Nat.zero_le c) (by omega)
    dsimp only at hlo hhi hle ⊢
    rw [hbnst c hc] at hlo hhi ⊢
    rw [(hold t (by omega)).2]
    exact hcounted c hc t hlo hhi
  case last_inum =>
    intro c hc t hlo hhi
    obtain rfl : c = b := by omega
    rw [hptr] at hlo
    rcases Nat.lt_or_ge t s.tagNum with hlt | hge
    · rw [(hold t hlt).2]
      exact h.last_inum c hc t hlo hlt
    · obtain rfl : t = s.tagNum := by omega
      exact hinum
  case bPtr_eq =>
    intro c hc t hlo hhi
    have hle := hcut.stop_le_hi (Nat.zero_le c) (by omega)
    rcases Nat.lt_or_ge c b with hlt | hge
    · rw [hbnst c hlt] at hlo hhi
      rw [(hold t (by omega)).1.2]
      exact h.bPtr_eq c hc t hlo hhi
    · obtain rfl : c = b := by omega
      rw [hptr, hlen] at hhi
      rw [hptr] at hlo
      rcases Nat.lt_or_ge t s.tagNum with hlt | hge'
      · rw [(hold t hlt).1.2]
        exact h.bPtr_eq c hc t hlo (by omega)
      · obtain rfl : t = s.tagNum := by omega
        exact hnew.2

/-- Only the bunsetsu of the tags matter. -/
theorem TagRow.row_congr (h : TagRow B s) (hnum : s'.tagNum = s.tagNum)
    (hold : ∀ t < s.tagNum, (s'.tag t).owner = (s.tag t).owner ∧ (s'.tag t).inum = (s.tag t).inum)
    (hbnst : s'.bnst = s.bnst) : TagRow B s' := by
  simp only [Tag.owner, Prod.mk.injEq] at hold
  constructor
  case cut =>
    rw [hnum, hbnst]
    exact h.cut.congr (fun t ht => (hold t ht).1.1) (fun _ _ => rfl) (fun _ _ => rfl)
  case counted =>
    rw [hbnst]
    intro b hb t hlo hhi
    have hle := h.cut.stop_le_hi (Nat.zero_le b) (by omega)
    dsimp only at hlo hhi hle ⊢
    rw [(hold t (by omega)).2]
    exact h.counted b hb t hlo hhi
  case last_inum =>
    intro b hb t hlo hhi
    rw [hbnst] at hlo
    rw [hnum] at hhi
    rw [(hold t hhi).2]
    exact h.last_inum b hb t hlo hhi
  case bPtr_eq =>
    rw [hbnst]
    intro b hb t hlo hhi
    have hle := h.cut.stop_le_hi (Nat.zero_le b) (by omega)
    rw [(hold t (by omega)).1.2]
    exact h.bPtr_eq b hb t hlo hhi

/-! ## Marks and bunsetsu -/

section Follow

/-- The morphemes are divided into `bnstNum` bunsetsu. -/
structure Chunked (mrphNum bnstNum : Nat) (bnst : Nat → Bnst) : Prop where
  tiles : Tiles (fun b => (bnst b).mrphPtr) (fun b => (bnst b).mrphNum) 0 bnstNum 0 mrphNum
  num_eq : ∀ b < bnstNum, (bnst b).num = b

/-- A tag starts at a mark and at the front of a bunsetsu. -/
def StartsTag (bnstNum : Nat) (mrph : Nat → MorphemeData) (bnst : Nat → Bnst) (j : Nat) : Prop :=
  hasFeature (mrph j).f "タグ単位始" = true ∨ ∃ b < bnstNum, (bnst b).mrphPtr = j

variable (mrphNum bnstNum : Nat) (mrph : Nat → MorphemeData) (bnst : Nat → Bnst)

/-- `B` bunsetsu start before morpheme `i`. -/
structure Follows (i B : Nat) (s : Units) : Prop where
  begins : ∀ b < B, (s.tag (s.bnst b).tagPtr).mrphPtr = (bnst b).mrphPtr
  begun : ∀ b < bnstNum, b < B ↔ (bnst b).mrphPtr < i
  le : B ≤ bnstNum
  starts : ∀ j < i, 0 ≤ (s.mrph j).tnum ↔ StartsTag bnstNum mrph bnst j
  mrph_eq : ∀ j, i ≤ j → s.mrph j = mrph j
  bnst_eq : ∀ b, (s.bnst b).num = (bnst b).num ∧ (s.bnst b).mrphPtr = (bnst b).mrphPtr ∧
    (s.bnst b).mrphNum = (bnst b).mrphNum
  tp_eq : ∀ t, s.tagNum = t + 1 → s.tp = some t
  bp_some : B < bnstNum → s.bp = some B
  bp_none : 0 < B → B = bnstNum → s.bp = none
  preBp_eq : ∀ b, B = b + 1 → s.preBp = some b

/-- The state before morpheme `i`. -/
structure Divides (i B : Nat) (s : Units) : Prop where
  mrphs : MrphRow i s
  tags : TagRow B s
  follows : Follows bnstNum mrph bnst i B s

variable {mrphNum bnstNum mrph bnst}

/-- `bp` is the next bunsetsu, so it is the only one that can start here. -/
theorem Follows.starting_eq (h : Follows bnstNum mrph bnst i B s) (hi : i < mrphNum)
    (hchunked : Chunked mrphNum bnstNum bnst) :
    s.starting i = if B < bnstNum ∧ (bnst B).mrphPtr = i then some B else none := by
  have hpos : 0 < bnstNum := by
    by_contra hzero
    have hempty := hchunked.tiles.empty (by omega)
    omega
  unfold Units.starting
  by_cases hlt : B < bnstNum
  · rw [h.bp_some hlt, Option.filter_some, (h.bnst_eq B).2.1]
    by_cases heq : (bnst B).mrphPtr = i
    · rw [if_pos (by simpa using heq), if_pos ⟨hlt, heq⟩]
    · rw [if_neg (by simpa using heq), if_neg (fun hand => heq hand.2)]
  · have hle := h.le
    rw [h.bp_none (by omega) (by omega), if_neg (fun hand => hlt hand.1)]
    rfl

/-- Only the bunsetsu `B` can start at `i`. -/
theorem Follows.eq_of_mrphPtr (h : Follows bnstNum mrph bnst i B s)
    (hchunked : Chunked mrphNum bnstNum bnst) {b : Nat} (hb : b < bnstNum)
    (hptr : (bnst b).mrphPtr = i) : b = B := by
  have hge : ¬b < B := by
    rw [h.begun b hb]
    omega
  by_contra hne
  have hlt : B < b := by omega
  have hB := hchunked.tiles.stop_le (Nat.zero_le B) hlt (by omega)
  have hpos := hchunked.tiles.pos B (Nat.zero_le B) (by omega)
  have hbegun := (h.begun B (by omega)).mpr (by omega)
  omega

/-- Where no bunsetsu starts, one has started before. -/
theorem Follows.pos_of_not_starting (h : Follows bnstNum mrph bnst i B s) (hi : i < mrphNum)
    (hchunked : Chunked mrphNum bnstNum bnst)
    (hno : ¬(B < bnstNum ∧ (bnst B).mrphPtr = i)) : 0 < B := by
  have hpos : 0 < bnstNum := by
    by_contra hzero
    have hempty := hchunked.tiles.empty (by omega)
    omega
  have hfirst : (bnst 0).mrphPtr = 0 := hchunked.tiles.begins hpos
  by_contra hzero
  obtain rfl : B = 0 := by omega
  have hbegun := h.begun 0 hpos
  apply hno
  omega

theorem Follows.begun_open (h : Follows bnstNum mrph bnst i B s)
    (hchunked : Chunked mrphNum bnstNum bnst) (hlt : B < bnstNum) (hptr : (bnst B).mrphPtr = i) :
    ∀ b < bnstNum, b < B + 1 ↔ (bnst b).mrphPtr < i + 1 := by
  intro b hb
  have hbegun := h.begun b hb
  rcases Nat.lt_trichotomy b B with hcmp | rfl | hcmp
  · omega
  · omega
  · have hle := hchunked.tiles.stop_le (Nat.zero_le B) hcmp (by omega)
    have hpos := hchunked.tiles.pos B (Nat.zero_le B) (by omega)
    omega

theorem Follows.begun_extend (h : Follows bnstNum mrph bnst i B s)
    (hchunked : Chunked mrphNum bnstNum bnst)
    (hno : ¬(B < bnstNum ∧ (bnst B).mrphPtr = i)) :
    ∀ b < bnstNum, b < B ↔ (bnst b).mrphPtr < i + 1 := by
  intro b hb
  have hbegun := h.begun b hb
  have hne : (bnst b).mrphPtr ≠ i := by
    intro heq
    obtain rfl := h.eq_of_mrphPtr hchunked hb heq
    exact hno ⟨hb, heq⟩
  omega

/-- Where no bunsetsu starts, a tag starts at a mark. -/
theorem Follows.startsTag_iff (h : Follows bnstNum mrph bnst i B s)
    (hchunked : Chunked mrphNum bnstNum bnst)
    (hno : ¬(B < bnstNum ∧ (bnst B).mrphPtr = i)) :
    StartsTag bnstNum mrph bnst i ↔ hasFeature (s.mrph i).f "タグ単位始" = true := by
  rw [h.mrph_eq i le_rfl]
  constructor
  · rintro (hmark | ⟨b, hb, heq⟩)
    · exact hmark
    · obtain rfl := h.eq_of_mrphPtr hchunked hb heq
      exact absurd ⟨hb, heq⟩ hno
  · exact Or.inl

theorem TagRow.tagPtr_lt (h : TagRow B s) {b : Nat} (hb : b < B) : (s.bnst b).tagPtr < s.tagNum := by
  have hpos := h.cut.pos b (Nat.zero_le b) (by omega)
  have hle := h.cut.stop_le_hi (Nat.zero_le b) (by omega)
  omega

theorem TagRow.tagNum_pos (h : TagRow B s) (hB : 0 < B) : 0 < s.tagNum := by
  have hpos := h.cut.pos 0 (Nat.zero_le 0) (by omega)
  have hle := h.cut.stop_le_hi (Nat.zero_le 0) (by omega)
  omega

/-! ## One turn -/

theorem turn_of_starting {b : Nat} (hb : s.starting i = some b) :
    s.turn bnstNum i =
      some (Units.pushAt i s.tagNum
        { (s.startTag i).startBnst bnstNum b with tagNum := s.tagNum + 1 }) := by
  have hptr : ((s.startTag i).tag (s.startTag i).tagNum).mrphPtr = i :=
    congrArg (fun t : Tag => t.mrphPtr) startTag_tag_self
  have hb' : (s.startTag i).starting i = some b := hb
  unfold Units.turn
  rw [hb, Option.isSome_some, Bool.or_true, if_pos rfl]
  dsimp only
  rw [hptr, hb']
  rfl

theorem turn_of_mark {b : Nat} (hno : s.starting i = none) (hpre : s.preBp = some b)
    (hmark : hasFeature (s.mrph i).f "タグ単位始" = true) :
    s.turn bnstNum i =
      some (Units.pushAt i s.tagNum
        { (s.startTag i).continueBnst b with tagNum := s.tagNum + 1 }) := by
  have hptr : ((s.startTag i).tag (s.startTag i).tagNum).mrphPtr = i :=
    congrArg (fun t : Tag => t.mrphPtr) startTag_tag_self
  have hno' : (s.startTag i).starting i = none := hno
  have hpre' : (s.startTag i).preBp = some b := hpre
  unfold Units.turn
  rw [hmark, Bool.true_or, if_pos rfl]
  dsimp only
  rw [hptr, hno', hpre']
  rfl

theorem turn_of_inside {t : Nat} (hno : s.starting i = none) (htp : s.tp = some t)
    (hmark : hasFeature (s.mrph i).f "タグ単位始" = false) :
    s.turn bnstNum i =
      some (Units.pushAt i t
        { s with mrph := Function.update s.mrph i { s.mrph i with tnum := -1 } }) := by
  unfold Units.turn
  rw [hmark, hno, Option.isSome_none, Bool.or_false, if_neg Bool.false_ne_true]
  dsimp only
  rw [htp]
  rfl

section Turns

variable {b t : Nat}

theorem pushAt_tag_of_ne (hk : k ≠ t) : (s.pushAt i t).tag k = s.tag k :=
  Function.update_of_ne hk _ _

@[simp] theorem pushAt_tag_self :
    (s.pushAt i t).tag t = pushTagUnits i (s.mrph i).f (s.tag t) :=
  Function.update_self _ _ _

/-- The tags in front of one that starts a bunsetsu: the last ones are counted. -/
theorem startBnst_tag_of_lt (hk : k < s.tagNum) :
    ((s.startTag i).startBnst n b).tag k = (s.startTag i).countBack k :=
  Function.update_of_ne hk.ne _ _

theorem startBnst_tag_self : ((s.startTag i).startBnst n b).tag s.tagNum =
    (newTag s.tagNum i).markBnst (s.bnst b).num b := by
  have hback : (s.startTag i).countBack s.tagNum = newTag s.tagNum i :=
    (countBack_of_le (s := s.startTag i) (Nat.le_refl s.tagNum)).trans startTag_tag_self
  refine (Function.update_self _ _ _).trans ?_
  change ((s.startTag i).countBack s.tagNum).markBnst (s.bnst b).num b = _
  rw [hback]

theorem continueBnst_tag_of_lt (hk : k < s.tagNum) :
    ((s.startTag i).continueBnst b).tag k = s.tag k :=
  (Function.update_of_ne hk.ne _ _).trans (startTag_tag_of_ne hk.ne)

theorem continueBnst_tag_self : ((s.startTag i).continueBnst b).tag s.tagNum =
    (newTag s.tagNum i).markBnst (-1) b := by
  refine (Function.update_self _ _ _).trans ?_
  change ((s.startTag i).tag s.tagNum).markBnst (-1) b = _
  rw [startTag_tag_self]

/-- The morphemes up to one that starts a tag. -/
theorem Follows.starts_open (h : Follows bnstNum mrph bnst i B s)
    (hmrph : s'.mrph = (s.startTag i).mrph) (hstarts : StartsTag bnstNum mrph bnst i) :
    ∀ j < i + 1, 0 ≤ (s'.mrph j).tnum ↔ StartsTag bnstNum mrph bnst j := by
  intro j hj
  rw [hmrph]
  rcases Nat.lt_succ_iff_lt_or_eq.mp hj with hlt | rfl
  · rw [startTag_tnum_of_ne hlt.ne]
    exact h.starts j hlt
  · rw [startTag_tnum_self]
    exact iff_of_true (Int.natCast_nonneg _) hstarts

/-- The morphemes behind it. -/
theorem Follows.mrph_eq_open (h : Follows bnstNum mrph bnst i B s)
    (hmrph : s'.mrph = (s.startTag i).mrph) : ∀ j, i + 1 ≤ j → s'.mrph j = mrph j := by
  intro j hj
  rw [hmrph, startTag_mrph_of_lt hj]
  exact h.mrph_eq j (by omega)

/-- The tags of a bunsetsu change, and not its morphemes. -/
theorem Follows.bnst_eq_update (h : Follows bnstNum mrph bnst i B s) {c ptr num : Nat}
    (hbnst : s'.bnst = Function.update s.bnst c { s.bnst c with tagPtr := ptr, tagNum := num }) :
    ∀ b, (s'.bnst b).num = (bnst b).num ∧ (s'.bnst b).mrphPtr = (bnst b).mrphPtr ∧
      (s'.bnst b).mrphNum = (bnst b).mrphNum := by
  intro b
  rw [hbnst]
  rcases eq_or_ne b c with rfl | hne
  · rw [Function.update_self]
    exact h.bnst_eq b
  · rw [Function.update_of_ne hne]
    exact h.bnst_eq b

/-- 文節区切りと一致するとき -/
theorem Divides.turn_starting (h : Divides bnstNum mrph bnst i B s)
    (hchunked : Chunked mrphNum bnstNum bnst) (hlt : B < bnstNum) (hptr : (bnst B).mrphPtr = i) :
    Divides bnstNum mrph bnst (i + 1) (B + 1)
      (Units.pushAt i s.tagNum
        { (s.startTag i).startBnst bnstNum B with tagNum := s.tagNum + 1 }) := by
  generalize hs' : Units.pushAt i s.tagNum
    { (s.startTag i).startBnst bnstNum B with tagNum := s.tagNum + 1 } = s'
  have hmrph : s'.mrph = (s.startTag i).mrph := by
    rw [← hs']
    rfl
  have htagNum : s'.tagNum = s.tagNum + 1 := by
    rw [← hs']
    rfl
  have hnum : (s.bnst B).num = B := (h.follows.bnst_eq B).1.trans (hchunked.num_eq B hlt)
  have hold : ∀ t < s.tagNum, s'.tag t = (s.startTag i).countBack t := by
    intro t ht
    rw [← hs', pushAt_tag_of_ne ht.ne]
    exact startBnst_tag_of_lt (n := bnstNum) ht
  have hspan : ∀ t < s.tagNum, (s'.tag t).span = (s.tag t).span := by
    intro t ht
    rw [hold t ht, countBack_span, startTag_tag_of_ne ht.ne]
  have hnew : s'.tag s.tagNum = pushTagUnits i ((s.startTag i).mrph i).f
      ((newTag s.tagNum i).markBnst B B) := by
    rw [← hs', pushAt_tag_self]
    change pushTagUnits i _ (((s.startTag i).startBnst bnstNum B).tag s.tagNum) = _
    rw [startBnst_tag_self, hnum]
    rfl
  have hnewSpan : (s'.tag s.tagNum).span = (s.tagNum, i, 1, 1) := by
    rw [hnew, pushTagUnits_span]
    rfl
  have hbnst : s'.bnst = Function.update s.bnst B
      { s.bnst B with tagPtr := s.tagNum, tagNum := 1 } := by
    rw [← hs']
    rfl
  have hbnst_lt : ∀ b < B, s'.bnst b = s.bnst b := by
    intro b hb
    rw [hbnst, Function.update_of_ne hb.ne]
  constructor
  case mrphs => exact h.mrphs.row_open htagNum hmrph hspan hnewSpan
  case tags =>
    have hrow : TagRow B (s.startTag i) := by
      refine h.tags.row_congr rfl ?_ rfl
      intro t ht
      rw [startTag_tag_of_ne ht.ne]
      exact ⟨rfl, rfl⟩
    have hcounted := hrow.countBack_counted
    refine h.tags.row_open htagNum ?_ ?_ ?_ ?_ hbnst_lt ?_ ?_
    · intro t ht
      rw [hold t ht, countBack_owner, startTag_tag_of_ne ht.ne]
    · intro b hb t hlo hhi
      have hle := h.tags.cut.stop_le_hi (Nat.zero_le b) (by omega)
      dsimp only at hlo hhi ⊢
      rw [hold t (by omega)]
      exact hcounted b hb t hlo hhi
    · rw [hnew, pushTagUnits_owner]
      rfl
    · rw [hnew, pushTagUnits_inum]
      rfl
    · rw [hbnst, Function.update_self]
    · rw [hbnst, Function.update_self]
  case follows =>
    have hle := h.follows.le
    constructor
    case begins =>
      intro b hb
      rcases Nat.lt_succ_iff_lt_or_eq.mp hb with hb' | rfl
      · have hsame := hspan _ (h.tags.tagPtr_lt hb')
        simp only [Tag.span, Prod.mk.injEq] at hsame
        rw [hbnst_lt b hb', hsame.2.1]
        exact h.follows.begins b hb'
      · simp only [Tag.span, Prod.mk.injEq] at hnewSpan
        rw [hbnst, Function.update_self]
        exact hnewSpan.2.1.trans hptr.symm
    case begun => exact h.follows.begun_open hchunked hlt hptr
    case le => exact hlt
    case starts => exact h.follows.starts_open hmrph (Or.inr ⟨B, hlt, hptr⟩)
    case mrph_eq => exact h.follows.mrph_eq_open hmrph
    case bnst_eq => exact h.follows.bnst_eq_update hbnst
    case tp_eq =>
      intro t ht
      obtain rfl : t = s.tagNum := by omega
      rw [← hs']
      rfl
    case bp_some =>
      intro hlt'
      rw [← hs']
      change (if (s.bnst B).num + 1 < bnstNum then some (B + 1) else none) = _
      rw [hnum, if_pos hlt']
    case bp_none =>
      intro _ heq
      rw [← hs']
      change (if (s.bnst B).num + 1 < bnstNum then some (B + 1) else none) = _
      rw [hnum, if_neg (by omega)]
    case preBp_eq =>
      intro b hb
      obtain rfl : b = B := by omega
      rw [← hs']
      rfl

/-- A tag inside a bunsetsu. -/
theorem Divides.turn_mark (h : Divides bnstNum mrph bnst i B s)
    (hchunked : Chunked mrphNum bnstNum bnst) (hno : ¬(B < bnstNum ∧ (bnst B).mrphPtr = i))
    (hmark : hasFeature (s.mrph i).f "タグ単位始" = true) (hb : B = b + 1) :
    Divides bnstNum mrph bnst (i + 1) B
      (Units.pushAt i s.tagNum
        { (s.startTag i).continueBnst b with tagNum := s.tagNum + 1 }) := by
  generalize hs' : Units.pushAt i s.tagNum
    { (s.startTag i).continueBnst b with tagNum := s.tagNum + 1 } = s'
  have hmrph : s'.mrph = (s.startTag i).mrph := by
    rw [← hs']
    rfl
  have htagNum : s'.tagNum = s.tagNum + 1 := by
    rw [← hs']
    rfl
  have hold : ∀ t < s.tagNum, s'.tag t = s.tag t := by
    intro t ht
    rw [← hs', pushAt_tag_of_ne ht.ne]
    exact continueBnst_tag_of_lt ht
  have hnew : s'.tag s.tagNum = pushTagUnits i ((s.startTag i).mrph i).f
      ((newTag s.tagNum i).markBnst (-1) b) := by
    rw [← hs', pushAt_tag_self]
    change pushTagUnits i _ (((s.startTag i).continueBnst b).tag s.tagNum) = _
    rw [continueBnst_tag_self]
    rfl
  have hbnst : s'.bnst = Function.update s.bnst b
      { s.bnst b with tagNum := (s.bnst b).tagNum + 1 } := by
    rw [← hs']
    rfl
  have hptr : ∀ c, (s'.bnst c).tagPtr = (s.bnst c).tagPtr := by
    intro c
    rw [hbnst]
    rcases eq_or_ne c b with rfl | hne
    · rw [Function.update_self]
    · rw [Function.update_of_ne hne]
  constructor
  case mrphs =>
    refine h.mrphs.row_open htagNum hmrph ?_ ?_
    · intro t ht
      rw [hold t ht]
    · rw [hnew, pushTagUnits_span]
      rfl
  case tags =>
    refine h.tags.row_extend hb htagNum ?_ ?_ ?_ ?_ (hptr b) ?_
    · intro t ht
      rw [hold t ht]
      exact ⟨rfl, rfl⟩
    · rw [hnew, pushTagUnits_owner]
      rfl
    · rw [hnew, pushTagUnits_inum]
      rfl
    · intro c hc
      rw [hbnst, Function.update_of_ne hc.ne]
    · rw [hbnst, Function.update_self]
  case follows =>
    constructor
    case begins =>
      intro c hc
      rw [hptr, hold _ (h.tags.tagPtr_lt hc)]
      exact h.follows.begins c hc
    case begun => exact h.follows.begun_extend hchunked hno
    case le => exact h.follows.le
    case starts =>
      exact h.follows.starts_open hmrph ((h.follows.startsTag_iff hchunked hno).mpr hmark)
    case mrph_eq => exact h.follows.mrph_eq_open hmrph
    case bnst_eq => exact h.follows.bnst_eq_update hbnst
    case tp_eq =>
      intro t ht
      obtain rfl : t = s.tagNum := by omega
      rw [← hs']
      rfl
    case bp_some =>
      rw [← hs']
      exact h.follows.bp_some
    case bp_none =>
      rw [← hs']
      exact h.follows.bp_none
    case preBp_eq =>
      rw [← hs']
      exact h.follows.preBp_eq

/-- No tag starts. -/
theorem Divides.turn_inside (h : Divides bnstNum mrph bnst i B s)
    (hchunked : Chunked mrphNum bnstNum bnst) (hno : ¬(B < bnstNum ∧ (bnst B).mrphPtr = i))
    (hmark : hasFeature (s.mrph i).f "タグ単位始" = false) (ht : s.tagNum = t + 1) :
    Divides bnstNum mrph bnst (i + 1) B
      (Units.pushAt i t
        { s with mrph := Function.update s.mrph i { s.mrph i with tnum := -1 } }) := by
  generalize hs' : Units.pushAt i t
    { s with mrph := Function.update s.mrph i { s.mrph i with tnum := -1 } } = s'
  have hmrph : s'.mrph = Function.update s.mrph i { s.mrph i with tnum := -1 } := by
    rw [← hs']
    rfl
  have htagNum : s'.tagNum = s.tagNum := by
    rw [← hs']
    rfl
  have hbnst : s'.bnst = s.bnst := by
    rw [← hs']
    rfl
  have hold : ∀ u, u ≠ t → s'.tag u = s.tag u := by
    intro u hu
    rw [← hs', pushAt_tag_of_ne hu]
  obtain ⟨f, hlast⟩ : ∃ f, s'.tag t = pushTagUnits i f (s.tag t) := by
    rw [← hs']
    exact ⟨_, pushAt_tag_self⟩
  constructor
  case mrphs =>
    refine h.mrphs.row_extend ht htagNum hmrph ?_ ?_
    · intro u hu
      rw [hold u hu.ne]
    · rw [hlast, pushTagUnits_span]
  case tags =>
    refine h.tags.row_congr htagNum ?_ hbnst
    intro u hu
    rcases eq_or_ne u t with rfl | hne
    · rw [hlast, pushTagUnits_owner, pushTagUnits_inum]
      exact ⟨rfl, rfl⟩
    · rw [hold u hne]
      exact ⟨rfl, rfl⟩
  case follows =>
    constructor
    case begins =>
      intro b hb
      rw [hbnst]
      rcases eq_or_ne (s.bnst b).tagPtr t with heq | hne
      · rw [heq, hlast, pushTagUnits_mrphPtr, ← heq]
        exact h.follows.begins b hb
      · rw [hold _ hne]
        exact h.follows.begins b hb
    case begun => exact h.follows.begun_extend hchunked hno
    case le => exact h.follows.le
    case starts =>
      intro j hj
      rw [hmrph]
      rcases Nat.lt_succ_iff_lt_or_eq.mp hj with hlt' | rfl
      · rw [Function.update_of_ne hlt'.ne]
        exact h.follows.starts j hlt'
      · rw [Function.update_self, h.follows.startsTag_iff hchunked hno, hmark]
        exact iff_of_false (show ¬(0 : Int) ≤ -1 by decide) Bool.false_ne_true
    case mrph_eq =>
      intro j hj
      rw [hmrph, Function.update_of_ne (by omega)]
      exact h.follows.mrph_eq j (by omega)
    case bnst_eq =>
      rw [hbnst]
      exact h.follows.bnst_eq
    case tp_eq =>
      rw [htagNum, ← hs']
      exact h.follows.tp_eq
    case bp_some =>
      rw [← hs']
      exact h.follows.bp_some
    case bp_none =>
      rw [← hs']
      exact h.follows.bp_none
    case preBp_eq =>
      rw [← hs']
      exact h.follows.preBp_eq

end Turns

/-- The three turns keep the division. -/
theorem Divides.turn (h : Divides bnstNum mrph bnst i B s) (hi : i < mrphNum)
    (hchunked : Chunked mrphNum bnstNum bnst) :
    ∃ s' B', s.turn bnstNum i = some s' ∧ Divides bnstNum mrph bnst (i + 1) B' s' := by
  have hstarting := h.follows.starting_eq hi hchunked
  by_cases hstart : B < bnstNum ∧ (bnst B).mrphPtr = i
  · rw [if_pos hstart] at hstarting
    exact ⟨_, _, turn_of_starting hstarting, h.turn_starting hchunked hstart.1 hstart.2⟩
  · rw [if_neg hstart] at hstarting
    have hpos := h.follows.pos_of_not_starting hi hchunked hstart
    have htagNum := h.tags.tagNum_pos hpos
    cases hmark : hasFeature (s.mrph i).f "タグ単位始"
    case true =>
      obtain ⟨b, rfl⟩ : ∃ b, B = b + 1 := ⟨B - 1, by omega⟩
      exact ⟨_, _, turn_of_mark hstarting (h.follows.preBp_eq b rfl) hmark,
        h.turn_mark hchunked hstart hmark rfl⟩
    case false =>
      obtain ⟨t, ht⟩ : ∃ t, s.tagNum = t + 1 := ⟨s.tagNum - 1, by omega⟩
      exact ⟨_, _, turn_of_inside hstarting (h.follows.tp_eq t ht) hmark,
        h.turn_inside hchunked hstart hmark ht⟩

/-- Before the first morpheme. -/
theorem Divides.start (tag : Nat → Tag) :
    Divides bnstNum mrph bnst 0 0 ⟨mrph, 0, tag, bnst, none, some 0, none⟩ where
  mrphs := by
    refine ⟨Cut.nil, ?_, ?_, ?_⟩ <;> intro t ht <;> exact absurd ht (Nat.not_lt_zero t)
  tags := by
    refine ⟨Cut.nil, ?_, ?_, ?_⟩
    · intro b hb
      exact absurd hb (Nat.not_lt_zero b)
    · intro b hb
      exact absurd hb (by omega)
    · intro b hb
      exact absurd hb (Nat.not_lt_zero b)
  follows := by
    constructor
    case begins =>
      intro b hb
      exact absurd hb (Nat.not_lt_zero b)
    case begun =>
      intro b hb
      exact iff_of_false (Nat.not_lt_zero b) (Nat.not_lt_zero _)
    case le => exact Nat.zero_le bnstNum
    case starts =>
      intro j hj
      exact absurd hj (Nat.not_lt_zero j)
    case mrph_eq =>
      intro j hj
      rfl
    case bnst_eq =>
      intro b
      exact ⟨rfl, rfl, rfl⟩
    case tp_eq =>
      intro t ht
      exact absurd ht.symm (Nat.succ_ne_zero t)
    case bp_some =>
      intro hpos
      rfl
    case bp_none =>
      intro hpos
      exact absurd hpos (Nat.lt_irrefl 0)
    case preBp_eq =>
      intro b hb
      exact absurd hb.symm (Nat.succ_ne_zero b)

/-- After any number of turns. -/
theorem loop_divides (tag : Nat → Tag) (hchunked : Chunked mrphNum bnstNum bnst)
    (hi : i ≤ mrphNum) :
    ∃ s B, Units.loop bnstNum i ⟨mrph, 0, tag, bnst, none, some 0, none⟩ = some s ∧
      Divides bnstNum mrph bnst i B s := by
  induction i with
  | zero => exact ⟨_, 0, rfl, Divides.start tag⟩
  | succ i ih =>
      obtain ⟨s, B, hloop, h⟩ := ih (by omega)
      obtain ⟨s', B', hturn, h'⟩ := h.turn (by omega) hchunked
      refine ⟨s', B', ?_, h'⟩
      rw [Units.loop, hloop, Option.bind_some, hturn]

/-! ## The whole sentence -/

/-- After the loop both rows are complete. -/
structure Closed (mrphNum bnstNum : Nat) (bnst : Nat → Bnst) (s : Units) : Prop where
  mrphs : Cut (fun j => (s.mrph j).tnum) (fun t => (s.tag t).mrphPtr) (fun t => (s.tag t).mrphNum)
    mrphNum s.tagNum
  mrph_inum : Segments.Counted (fun j => (s.mrph j).inum) (fun t => (s.tag t).mrphPtr)
    (fun t => (s.tag t).mrphNum) s.tagNum
  tags : Cut (fun t => (s.tag t).bnum) (fun b => (s.bnst b).tagPtr) (fun b => (s.bnst b).tagNum)
    s.tagNum bnstNum
  tag_inum : Segments.Counted (fun t => (s.tag t).inum) (fun b => (s.bnst b).tagPtr)
    (fun b => (s.bnst b).tagNum) bnstNum
  begins : ∀ b < bnstNum, (s.tag (s.bnst b).tagPtr).mrphPtr = (bnst b).mrphPtr
  bPtr_eq : ∀ b < bnstNum, ∀ t, (s.bnst b).tagPtr ≤ t →
    t < (s.bnst b).tagPtr + (s.bnst b).tagNum → (s.tag t).bPtr = b
  num_eq : ∀ t < s.tagNum, (s.tag t).num = t
  parts_eq : ∀ t < s.tagNum, (s.tag t).parts = (s.tag t).mrphNum
  head_ptr : ∀ t < s.tagNum, (s.tag t).mrphPtr ≤ (s.tag t).headPtr ∧
    (s.tag t).headPtr < (s.tag t).mrphPtr + (s.tag t).mrphNum

theorem countBack_eq :
    (if (s.tag (s.tagNum - 1)).bnum < 0 then makeTagUnitSetInum s.tagNum s.tag else s.tag) =
      s.countBack := by
  unfold Units.countBack
  rcases Nat.eq_zero_or_pos s.tagNum with hzero | hpos
  · rw [hzero]
    split <;> rfl
  · rw [decide_eq_true hpos, Bool.true_and]
    by_cases hneg : (s.tag (s.tagNum - 1)).bnum < 0
    · rw [if_pos hneg, if_pos (decide_eq_true hneg)]
    · rw [if_neg hneg, if_neg (by rwa [decide_eq_true_eq])]

/-- The head is a morpheme of the tag. -/
theorem decideHeadPtr_bounds (mrph : Nat → MorphemeData) (t : Tag) (hpos : 0 < t.mrphNum) :
    t.mrphPtr ≤ (Units.decideHeadPtr mrph t).headPtr ∧
      (Units.decideHeadPtr mrph t).headPtr < t.mrphPtr + t.mrphNum := by
  unfold Units.decideHeadPtr
  dsimp only
  split
  next k hfind =>
    have hmem := List.mem_of_find?_eq_some hfind
    rw [List.mem_reverse, List.mem_range] at hmem
    omega
  next => omega

section After

variable {t : Nat}

theorem after_tag (ht : t < s.tagNum) : s.afterMakeTagUnits.tag t =
    { Units.decideHeadPtr s.mrph (s.tag t) with dpndHead := 0, dpndType := 'D' } :=
  if_pos ht

theorem after_tag_span : (s.afterMakeTagUnits.tag t).span = (s.tag t).span := by
  unfold Units.afterMakeTagUnits
  dsimp only
  split <;> rfl

theorem after_tag_owner : (s.afterMakeTagUnits.tag t).owner = (s.tag t).owner := by
  unfold Units.afterMakeTagUnits
  dsimp only
  split <;> rfl

theorem after_tag_inum : (s.afterMakeTagUnits.tag t).inum = (s.tag t).inum := by
  unfold Units.afterMakeTagUnits
  dsimp only
  split <;> rfl

end After

/-- All bunsetsu have started. -/
theorem Divides.count_eq (h : Divides bnstNum mrph bnst mrphNum B s)
    (hchunked : Chunked mrphNum bnstNum bnst) : B = bnstNum := by
  have hle := h.follows.le
  by_contra hne
  have hpos := hchunked.tiles.pos B (Nat.zero_le B) (by omega)
  have hstop := hchunked.tiles.stop_le_hi (Nat.zero_le B) (by omega)
  have hbegun := (h.follows.begun B (by omega)).mpr (by omega)
  omega

/-- The last tag and the last bunsetsu are counted behind the loop. -/
theorem Divides.closed (h : Divides bnstNum mrph bnst mrphNum B s)
    (hchunked : Chunked mrphNum bnstNum bnst) :
    Closed mrphNum bnstNum bnst (Units.afterMakeTagUnits
      { s with tag := s.countBack, mrph := makeMrphSetInum mrphNum s.mrph }) := by
  obtain rfl := h.count_eq hchunked
  generalize hs' : Units.afterMakeTagUnits
    { s with tag := s.countBack, mrph := makeMrphSetInum mrphNum s.mrph } = s'
  have hmrph : s'.mrph = makeMrphSetInum mrphNum s.mrph := by
    rw [← hs']
    rfl
  have htagNum : s'.tagNum = s.tagNum := by
    rw [← hs']
    rfl
  have hbnst : s'.bnst = s.bnst := by
    rw [← hs']
    rfl
  have hspan : ∀ t, (s'.tag t).span = (s.tag t).span := by
    intro t
    rw [← hs', after_tag_span]
    exact countBack_span
  have howner : ∀ t, (s'.tag t).owner = (s.tag t).owner := by
    intro t
    rw [← hs', after_tag_owner]
    exact countBack_owner
  have hinum : ∀ t, (s'.tag t).inum = (s.countBack t).inum := by
    intro t
    rw [← hs', after_tag_inum]
  simp only [Tag.span, Tag.owner, Prod.mk.injEq] at hspan howner
  have hptr : ∀ t, (s'.tag t).mrphPtr = (s.tag t).mrphPtr := fun t => (hspan t).2.1
  have hlen : ∀ t, (s'.tag t).mrphNum = (s.tag t).mrphNum := fun t => (hspan t).2.2.1
  have hcut : Cut (fun j => (s'.mrph j).tnum) (fun t => (s'.tag t).mrphPtr)
      (fun t => (s'.tag t).mrphNum) mrphNum s'.tagNum := by
    rw [htagNum, hmrph]
    refine h.mrphs.cut.congr ?_ (fun t _ => hptr t) (fun t _ => hlen t)
    intro j _
    exact makeMrphSetInum_tnum s.mrph
  constructor
  case mrphs => exact hcut
  case mrph_inum =>
    simp only [hmrph, htagNum, hptr, hlen]
    exact makeMrphSetInum_counted h.mrphs.cut h.mrphs.counted
  case tags =>
    rw [htagNum, hbnst]
    exact h.tags.cut.congr (fun t _ => (howner t).1) (fun _ _ => rfl) (fun _ _ => rfl)
  case tag_inum =>
    simp only [hbnst, hinum]
    exact h.tags.countBack_counted
  case begins =>
    intro b hb
    rw [hbnst, hptr]
    exact h.follows.begins b hb
  case bPtr_eq =>
    intro b hb t hlo hhi
    rw [hbnst] at hlo hhi
    rw [(howner t).2]
    exact h.tags.bPtr_eq b hb t hlo hhi
  case num_eq =>
    intro t ht
    rw [(hspan t).1]
    exact h.mrphs.num_eq t (by omega)
  case parts_eq =>
    intro t ht
    rw [(hspan t).2.2.2, hlen t]
    exact h.mrphs.parts_eq t (by omega)
  case head_ptr =>
    intro t ht
    have hpos : 0 < (s.countBack t).mrphNum := by
      have hback : (s.countBack t).span = (s.tag t).span := countBack_span
      simp only [Tag.span, Prod.mk.injEq] at hback
      rw [hback.2.2.1]
      exact h.mrphs.cut.pos t (Nat.zero_le t) (by omega)
    rw [← hs', after_tag (by rw [← htagNum]; exact ht)]
    exact decideHeadPtr_bounds _ (s.countBack t) hpos

/-- What `make_tag_units` is for. The distances are to the last element of the segment. -/
structure Divided (mrphNum bnstNum : Nat) (mrph : Nat → MorphemeData) (bnst : Nat → Bnst)
    (s : Units) : Prop where
  /-- The tags of a bunsetsu lie side by side from its first morpheme to its last one. -/
  tiles : ∀ b < bnstNum, 0 < (s.bnst b).tagNum ∧
    Tiles (fun t => (s.tag t).mrphPtr) (fun t => (s.tag t).mrphNum) (s.bnst b).tagPtr
      (s.bnst b).tagNum (bnst b).mrphPtr ((bnst b).mrphPtr + (bnst b).mrphNum)
  /-- The bunsetsu have all the tags. -/
  tags : Tiles (fun b => (s.bnst b).tagPtr) (fun b => (s.bnst b).tagNum) 0 bnstNum 0 s.tagNum
  starts : ∀ j < mrphNum, 0 ≤ (s.mrph j).tnum ↔ StartsTag bnstNum mrph bnst j
  bnum : ∀ t < s.tagNum, 0 ≤ (s.tag t).bnum ↔ ∃ b < bnstNum, (s.bnst b).tagPtr = t
  bnum_eq : ∀ b < bnstNum, ∀ t < s.tagNum, (s.tag t).bnum = b ↔ (s.bnst b).tagPtr = t
  bPtr : ∀ b < bnstNum, ∀ t < s.tagNum, (s.tag t).bPtr = b ↔
    (s.bnst b).tagPtr ≤ t ∧ t < (s.bnst b).tagPtr + (s.bnst b).tagNum
  num : ∀ t < s.tagNum, (s.tag t).num = t
  parts : ∀ t < s.tagNum,
    (s.tag t).settouNum + (s.tag t).jirituNum + (s.tag t).fuzokuNum = (s.tag t).mrphNum
  tag_inum : ∀ b < bnstNum, ∀ t, (s.bnst b).tagPtr ≤ t →
    t < (s.bnst b).tagPtr + (s.bnst b).tagNum →
    t + (s.tag t).inum = (s.bnst b).tagPtr + (s.bnst b).tagNum - 1
  tnum : ∀ t < s.tagNum, ∀ j < mrphNum, (s.mrph j).tnum = t ↔ (s.tag t).mrphPtr = j
  mrph_inum : ∀ t < s.tagNum, ∀ j, (s.tag t).mrphPtr ≤ j →
    j < (s.tag t).mrphPtr + (s.tag t).mrphNum →
    j + (s.mrph j).inum = (s.tag t).mrphPtr + (s.tag t).mrphNum - 1
  bnst_eq : ∀ b, (s.bnst b).num = (bnst b).num ∧ (s.bnst b).mrphPtr = (bnst b).mrphPtr ∧
    (s.bnst b).mrphNum = (bnst b).mrphNum

theorem Closed.divided (h : Closed mrphNum bnstNum bnst s)
    (hchunked : Chunked mrphNum bnstNum bnst)
    (hstarts : ∀ j < mrphNum, 0 ≤ (s.mrph j).tnum ↔ StartsTag bnstNum mrph bnst j)
    (hbnst : ∀ b, (s.bnst b).num = (bnst b).num ∧ (s.bnst b).mrphPtr = (bnst b).mrphPtr ∧
      (s.bnst b).mrphNum = (bnst b).mrphNum) : Divided mrphNum bnstNum mrph bnst s := by
  constructor
  case tiles =>
    intro b hb
    have hpos := h.tags.pos b (Nat.zero_le b) (by omega)
    have hstop := h.tags.stop_le_hi (Nat.zero_le b) (by omega)
    refine ⟨hpos, ?_, ?_, ?_, ?_, ?_⟩
    · intro t hlo hhi
      exact h.mrphs.pos t (Nat.zero_le t) (by omega)
    · intro _
      exact h.begins b hb
    · intro t hlo hhi
      exact h.mrphs.next t (Nat.zero_le t) (by omega)
    · -- the next tag, if there is one, starts the next bunsetsu
      intro t hlo hlast
      rcases Nat.lt_or_ge (b + 1) bnstNum with hlt | hge
      · have hnext := h.tags.next b (Nat.zero_le b) (by omega)
        have hlt' := h.tags.stop_le_hi (Nat.zero_le (b + 1)) (by omega)
        have hpos' := h.tags.pos (b + 1) (Nat.zero_le _) (by omega)
        have htag := h.mrphs.next t (Nat.zero_le t) (by omega)
        have hbegin := h.begins (b + 1) hlt
        have hchunk := hchunked.tiles.next b (Nat.zero_le b) (by omega)
        rw [hnext, ← hlast] at hbegin
        omega
      · have hends := h.tags.ends b (Nat.zero_le b) (by omega)
        have hchunk := hchunked.tiles.ends b (Nat.zero_le b) (by omega)
        rw [h.mrphs.ends t (Nat.zero_le t) (by omega), hchunk]
    · intro hzero
      omega
  case tags => exact h.tags.toTiles
  case starts => exact hstarts
  case bnum =>
    intro t ht
    exact h.tags.nonneg_iff ht
  case bnum_eq =>
    intro b hb t ht
    exact h.tags.label_eq_iff hb ht
  case bPtr =>
    intro b hb t ht
    exact h.tags.owner_iff h.bPtr_eq hb ht
  case num => exact h.num_eq
  case parts => exact h.parts_eq
  case tag_inum =>
    intro b hb t hlo hhi
    have hcounted := h.tag_inum b hb t hlo hhi
    dsimp only at hcounted
    omega
  case tnum =>
    intro t ht j hj
    exact h.mrphs.label_eq_iff ht hj
  case mrph_inum =>
    intro t ht j hlo hhi
    have hcounted := h.mrph_inum t ht j hlo hhi
    dsimp only at hcounted
    omega
  case bnst_eq => exact hbnst

/-- `make_tag_units` divides a sentence that is divided into bunsetsu. -/
theorem makeTagUnits_divided (tag : Nat → Tag) (hchunked : Chunked mrphNum bnstNum bnst) :
    ∃ s, makeTagUnits mrphNum bnstNum mrph tag bnst = some s ∧
      Divided mrphNum bnstNum mrph bnst s := by
  obtain ⟨s, B, hloop, h⟩ : ∃ s B, Units.loop bnstNum mrphNum
      ⟨mrph, 0, tag, bnst, none, some 0, none⟩ = some s ∧ Divides bnstNum mrph bnst mrphNum B s :=
    loop_divides tag hchunked le_rfl
  have hclosed := h.closed hchunked
  refine ⟨_, ?_, hclosed.divided hchunked ?_ h.follows.bnst_eq⟩
  · unfold makeTagUnits
    rw [hloop, Option.map_some, countBack_eq]
  · intro j hj
    change 0 ≤ (makeMrphSetInum mrphNum s.mrph j).tnum ↔ _
    rw [makeMrphSetInum_tnum]
    exact h.follows.starts j hj

end Follow

/-- 文節 0 has the morphemes 0 and 1, 文節 1 has morpheme 2. -/
def twoBnsts (b : Nat) : Bnst where
  tagPtr := 0
  tagNum := 0
  f := []
  num := b
  mrphPtr := 2 * b
  mrphNum := 2 - b

theorem twoBnsts_divided : ∃ s, makeTagUnits 3 2 (fun i => ⟨"名詞", "普通名詞",
    if i = 1 then ["タグ単位始"] else [], 0, 0⟩) (fun _ => newTag 0 0) twoBnsts = some s ∧
    Divided 3 2 (fun i => ⟨"名詞", "普通名詞", if i = 1 then ["タグ単位始"] else [], 0, 0⟩)
      twoBnsts s := by
  refine makeTagUnits_divided _ ⟨⟨?_, ?_, ?_, ?_, ?_⟩, ?_⟩
  · intro b _ hb
    change 0 < 2 - b
    omega
  · intro _
    rfl
  · intro b _ hb
    change 2 * (b + 1) = 2 * b + (2 - b)
    omega
  · intro b _ hb
    change 2 * b + (2 - b) = 3
    omega
  · intro hzero
    omega
  · intro b _
    rfl

/-! ## The sentence of the dependency analysis -/

/-- What the later steps read of it. -/
def Units.sentence (mrphNum bnstNum : Nat) (s : Units) : SentenceData where
  mrphNum := mrphNum
  mrph := s.mrph
  tagNum := s.tagNum
  tag := fun t => (s.tag t).toTagUnitData
  bnstNum := bnstNum
  bnst := fun b => (s.bnst b).toBunsetsuData

/-- The division that the heads of tags and morphemes rest on is the one that
`make_tag_units` makes. -/
theorem makeTagUnits_sentence {mrphNum bnstNum : Nat} {mrph : Nat → MorphemeData}
    {bnst : Nat → Bnst} (tag : Nat → Tag) (hchunked : Chunked mrphNum bnstNum bnst)
    (hpos : 0 < mrphNum) :
    ∃ s, makeTagUnits mrphNum bnstNum mrph tag bnst = some s ∧
      (s.sentence mrphNum bnstNum).Divided := by
  obtain ⟨s, B, hloop, hdiv⟩ : ∃ s B, Units.loop bnstNum mrphNum
      ⟨mrph, 0, tag, bnst, none, some 0, none⟩ = some s ∧ Divides bnstNum mrph bnst mrphNum B s :=
    loop_divides tag hchunked le_rfl
  have h := hdiv.closed hchunked
  refine ⟨_, by rw [makeTagUnits, hloop, Option.map_some, countBack_eq], ?_⟩
  generalize Units.afterMakeTagUnits
    { s with tag := s.countBack, mrph := makeMrphSetInum mrphNum s.mrph } = s' at h
  have htagNum : 0 < s'.tagNum := by
    by_contra hzero
    have hempty := h.mrphs.empty (by omega)
    omega
  constructor
  case mrph => exact h.mrphs.numbered hpos
  case mrph_inum_last => exact h.mrph_inum.last h.mrphs hpos
  case mrph_inum =>
    intro j hj
    exact h.mrph_inum.step h.mrphs hj
  case mrph_num =>
    intro t ht
    exact h.mrphs.stop_le_hi (Nat.zero_le t) (by rwa [Nat.zero_add])
  case mrph_ptr =>
    intro t ht j hj
    exact h.mrphs.number_eq_iff ht hj
  case head_ptr => exact h.head_ptr
  case tag => exact h.tags.numbered htagNum
  case tag_inum =>
    intro t ht
    exact h.tag_inum.step h.tags ht
  case tag_num =>
    intro b hb
    have hb' : b < 0 + bnstNum := by rwa [Nat.zero_add]
    exact ⟨h.tags.pos b (Nat.zero_le b) hb', h.tags.stop_le_hi (Nat.zero_le b) hb'⟩
  case tag_ptr =>
    intro b hb t ht
    exact h.tags.number_eq_iff hb ht

end Knp.TagUnits
