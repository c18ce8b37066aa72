import Knp.MrphTree
import Knp.TagChoice
import Knp.TreePlain

/-!
# Array heads and tree links of the tags

The heads of the tags in the arrays (`dpnd_info_to_tag_raw`) against the tree of
the tags (`make_dpnd_tree`, then `bnst_to_tag_tree`), for a sentence without
coordination and merged units.

> They agree exactly if the two choices of the governing tag do, no bunsetsu has
> more than 31 modifiers, and 31 of them do not all go to one tag that also has
> the tag in front of it.
-/

namespace Knp

open TreeData

/-! ## The links of a plain tree -/

section Links

variable {sp : SentenceData} {bnst : TreeData} {bps : Nat → BunsetsuData} {num : Nat → Int}
  {n tagNum tagPtr last b : Nat} {e : Nat × Nat}

theorem mem_insideLinks : e ∈ insideLinks tagPtr last ↔
    ∃ j < last, e = (tagPtr + j, tagPtr + (j + 1)) := by
  simp [insideLinks]

theorem mem_outLinks : e ∈ outLinks bnst bps b ↔ ∃ p, bnst.parent b = some p ∧
    e = ((bps b).tagPtr + ((bps b).tagNum - 1), dpndTag (bps b) (bps p)) := by
  unfold outLinks
  cases bnst.parent b with
  | none => simp
  | some p => simp

theorem mem_linksBelow : ∀ {m : Nat}, e ∈ linksBelow bnst bps m ↔ ∃ b < m,
    e ∈ insideLinks (bps b).tagPtr ((bps b).tagNum - 1) ∨ e ∈ outLinks bnst bps b
  | 0 => by simp [linksBelow]
  | m + 1 => by
      rw [linksBelow, List.mem_append, List.mem_append, mem_linksBelow]
      constructor
      · rintro (h | h | ⟨b, hb, h⟩)
        · exact ⟨m, Nat.lt_succ_self m, Or.inl h⟩
        · exact ⟨m, Nat.lt_succ_self m, Or.inr h⟩
        · exact ⟨b, Nat.lt_succ_of_lt hb, h⟩
      · rintro ⟨b, hb, h⟩
        rcases Nat.lt_succ_iff_lt_or_eq.mp hb with hlt | rfl
        · exact Or.inr (Or.inr ⟨b, hlt, h⟩)
        · exact h.imp_right Or.inl

theorem mem_tagLinks (hn : 0 < n) : e ∈ tagLinks bnst bps n ↔
    (∃ b < n, e ∈ insideLinks (bps b).tagPtr ((bps b).tagNum - 1)) ∨
      ∃ b, b + 1 < n ∧ e ∈ outLinks bnst bps b := by
  rw [tagLinks, List.mem_append, mem_linksBelow]
  constructor
  · rintro (h | ⟨b, hb, h | h⟩)
    · exact Or.inl ⟨n - 1, by omega, h⟩
    · exact Or.inl ⟨b, by omega, h⟩
    · exact Or.inr ⟨b, by omega, h⟩
  · rintro (⟨b, hb, h⟩ | ⟨b, hb, h⟩)
    · rcases (by omega : b = n - 1 ∨ b < n - 1) with rfl | hlt
      · exact Or.inl h
      · exact Or.inr ⟨b, hlt, Or.inl h⟩
    · exact Or.inr ⟨b, by omega, Or.inr h⟩

/-- The tags of the first bunsetsu, as `bps` has them, are those of the sentence. -/
structure OfSentence (sp : SentenceData) (bps : Nat → BunsetsuData) : Prop where
  divided : sp.Divided
  ptr_eq : ∀ b < sp.bnstNum, (bps b).tagPtr = (sp.bnst b).tagPtr
  num_eq : ∀ b < sp.bnstNum, (bps b).tagNum = (sp.bnst b).tagNum

namespace OfSentence

variable (h : OfSentence sp bps)
include h

theorem last_eq (hb : b < sp.bnstNum) : (bps b).tagPtr + ((bps b).tagNum - 1) = sp.lastTag b := by
  obtain ⟨hpos, -⟩ := h.divided.tag_num b hb
  rw [h.ptr_eq b hb, h.num_eq b hb]
  unfold SentenceData.lastTag
  omega

/-- A tag that is linked inside a bunsetsu is one of it, and not the last. -/
theorem inside (hb : b < sp.bnstNum)
    (he : e ∈ insideLinks (bps b).tagPtr ((bps b).tagNum - 1)) :
    sp.bnstOf e.1 = b ∧ e.1 < sp.lastTag b ∧ e.2 = e.1 + 1 := by
  obtain ⟨j, hj, rfl⟩ := mem_insideLinks.mp he
  obtain ⟨hpos, hfit⟩ := h.divided.tag_num b hb
  rw [h.num_eq b hb] at hj
  rw [h.ptr_eq b hb]
  refine ⟨(h.divided.tag_ptr b hb _ (by omega)).mpr (by omega), ?_, rfl⟩
  unfold SentenceData.lastTag
  omega

theorem out (hb : b < sp.bnstNum) (he : e ∈ outLinks bnst bps b) :
    sp.bnstOf e.1 = b ∧ e.1 = sp.lastTag b := by
  obtain ⟨p, -, rfl⟩ := mem_outLinks.mp he
  dsimp only
  rw [h.last_eq hb]
  exact ⟨bnstOf_lastTag h.divided hb, rfl⟩

theorem below_lt {m : Nat} (hm : m ≤ sp.bnstNum) {c : Nat}
    (hc : c ∈ (linksBelow bnst bps m).map Prod.fst) : sp.bnstOf c < m := by
  obtain ⟨e, he, rfl⟩ := List.mem_map.mp hc
  obtain ⟨b, hb, hin | hout⟩ := mem_linksBelow.mp he
  · rw [(h.inside (hb.trans_le hm) hin).1]
    exact hb
  · rw [(h.out (hb.trans_le hm) hout).1]
    exact hb

omit h in
theorem insideLinks_nodup : ((insideLinks tagPtr last).map Prod.fst).Nodup := by
  have hmap : (insideLinks tagPtr last).map Prod.fst = (List.range last).map (tagPtr + ·) := by
    unfold insideLinks
    rw [List.map_flatMap, List.map_eq_flatMap]
    rfl
  rw [hmap]
  exact List.nodup_range.map fun i j hij => Nat.add_left_cancel hij

theorem linksBelow_nodup : ∀ m ≤ sp.bnstNum, ((linksBelow bnst bps m).map Prod.fst).Nodup
  | 0, _ => List.nodup_nil
  | m + 1, hm => by
      have hrest := linksBelow_nodup m (Nat.le_of_succ_le hm)
      rw [linksBelow, List.map_append, List.map_append]
      refine insideLinks_nodup.append (List.Nodup.append ?_ hrest ?_) ?_
      · unfold outLinks
        cases bnst.parent m <;> simp
      · intro c hc hc'
        obtain ⟨e, he, rfl⟩ := List.mem_map.mp hc
        have := h.below_lt (Nat.le_of_succ_le hm) hc'
        rw [(h.out hm he).1] at this
        exact Nat.lt_irrefl m this
      · intro c hc hc'
        obtain ⟨e, he, rfl⟩ := List.mem_map.mp hc
        obtain ⟨hown, hlt, -⟩ := h.inside hm he
        rcases List.mem_append.mp hc' with hout | hbelow
        · obtain ⟨e', he', heq⟩ := List.mem_map.mp hout
          have := (h.out hm he').2
          omega
        · have := h.below_lt (Nat.le_of_succ_le hm) hbelow
          omega

/-- No tag gets two parents. -/
theorem tagLinks_nodup : ((tagLinks bnst bps sp.bnstNum).map Prod.fst).Nodup := by
  rcases Nat.eq_zero_or_pos sp.bnstNum with hzero | hpos
  · rw [hzero, tagLinks, List.map_append]
    simpa [linksBelow] using insideLinks_nodup
  · rw [tagLinks, List.map_append]
    refine insideLinks_nodup.append (h.linksBelow_nodup _ (Nat.sub_le _ 1)) fun c hc hc' => ?_
    obtain ⟨e, he, rfl⟩ := List.mem_map.mp hc
    have hown := (h.inside (by omega) he).1
    have := h.below_lt (Nat.sub_le _ 1) hc'
    omega

end OfSentence

end Links

/-! ## The whole run -/

section Run

variable (sp : SentenceData) (dp : Dpnd) (examples : Nat → Nat → Bool)

/-- What is filled in when the trees are built, without coordination and with
nothing merged. -/
structure Loaded (env : TreeEnv) (bnst tags : TreeData) : Prop where
  bnstNum_eq : env.bnstNum = sp.bnstNum
  noPara : env.para.paraMNum = 0
  bnst_num : ∀ b < sp.bnstNum, bnst.num b = b
  bnst_head : ∀ b < sp.bnstNum, bnst.dpndHead b = dp.head b
  tag_num : ∀ t < sp.tagNum, tags.num t = t
  bnst_max : sp.bnstNum ≤ BNST_MAX
  tag_max : sp.tagNum ≤ TAG_MAX

/-- The parent of every tag but the last one is its head, which has it as a
child once. -/
def LinksAgree (d : TreeData) : Prop :=
  ∀ t, t + 1 < sp.tagNum →
    ∃ p : Nat, (sp.tag t).dpndHead = p ∧ d.parent t = some p ∧ IsChild d p t

/-- The heads of the tags in the arrays are those of the tree. -/
def TagTreeAgrees (env : TreeEnv) (bnst tags : TreeData) : Prop :=
  ∃ s r, makeDpndTree env bnst = some (true, s) ∧
    bnstToTagTree (tagRawRun sp dp examples) s.data s.newBnstNum tags = some r ∧
    LinksAgree (tagRawRun sp dp examples) r.tags

/-- The choices of the governing tags are the same, and the child arrays have
room. -/
structure TagChoicesFit : Prop where
  choice : ∀ b, b + 1 < sp.bnstNum → SameChoice sp dp examples b
  few : ∀ h < sp.bnstNum, (modifiersOf sp dp h).card < PARA_PART_MAX
  spread : ∀ h < sp.bnstNum, (modifiersOf sp dp h).card + 1 = PARA_PART_MAX →
    2 ≤ (sp.bnst h).tagNum →
    (∃ b ∈ modifiersOf sp dp h, TakesFormer sp dp examples b ∨
      tagUke sp b h = 1 - ((sp.bnst h).tagNum : Int)) ∨
    ∃ b ∈ modifiersOf sp dp h, ∃ c ∈ modifiersOf sp dp h, tagUke sp b h ≠ tagUke sp c h

/-- The tag that `dpnd_info_to_tag_raw` chooses in the head of `b`. -/
def govTag (b : Nat) : Nat :=
  (sp.bnst (dp.head b).toNat).tagPtr +
    (((sp.bnst (dp.head b).toNat).tagNum : Int) - 1 + arrayOffset sp dp examples b).toNat

end Run

section Agree

variable {sp : SentenceData} {dp : Dpnd} {examples : Nat → Nat → Bool} {env : TreeEnv}
  {bnst tags : TreeData} {s : ExpandState} {b c g h : Nat}

theorem mem_modifiersOf : b ∈ modifiersOf sp dp h ↔ b < sp.bnstNum ∧ dp.head b = h := by
  unfold modifiersOf
  rw [Finset.mem_filter, Finset.mem_range]

theorem Loaded.plainHeads (hdp : RightHeaded dp sp.bnstNum) (hload : Loaded sp dp env bnst tags) :
    PlainHeads env bnst := by
  have heq := hload.bnstNum_eq
  refine ⟨⟨fun i hi => hload.bnst_num i (by omega), fun i hi => ?_, fun i hi => ?_⟩,
    hload.noPara, by have := hload.bnst_max; omega⟩
  · rw [hload.bnst_head i (by omega)]
    have := hdp.right i (by omega)
    omega
  · rw [hload.bnst_head i (by omega)]
    have := hdp.last
    rwa [show sp.bnstNum - 1 = i by omega] at this

variable (hdiv : sp.Divided) (hdp : RightHeaded dp sp.bnstNum)
include hdiv hdp

omit hdiv in
/-- A modifier lies before its head. -/
theorem modifier_lt (hb : b ∈ modifiersOf sp dp h) : b < h ∧ h < sp.bnstNum ∧
    b + 1 < sp.bnstNum ∧ (dp.head b).toNat = h := by
  obtain ⟨hlt, hhead⟩ := mem_modifiersOf.mp hb
  have hlast : b + 1 < sp.bnstNum := by
    by_contra hge
    have hroot := hdp.last
    rw [show sp.bnstNum - 1 = b by omega] at hroot
    omega
  have := hdp.right b hlast
  omega

variable (examples) in
theorem arrayOffset_bounds (hb : b + 1 < sp.bnstNum) :
    -((sp.bnst (dp.head b).toNat).tagNum : Int) < arrayOffset sp dp examples b ∧
      arrayOffset sp dp examples b ≤ 0 := by
  have hright := hdp.right b hb
  obtain ⟨hpos, -⟩ := hdiv.tag_num (dp.head b).toNat (by omega)
  obtain ⟨hlo, hhi⟩ := tagUke_bounds b hpos
  exact lastTagUke_bounds examples _ b hlo hhi

variable (examples) in
theorem bnstOf_govTag (hb : b + 1 < sp.bnstNum) :
    sp.bnstOf (govTag sp dp examples b) = (dp.head b).toNat := by
  have hright := hdp.right b hb
  obtain ⟨hpos, hfit⟩ := hdiv.tag_num (dp.head b).toNat (by omega)
  obtain ⟨hlo, hhi⟩ := arrayOffset_bounds examples hdiv hdp hb
  unfold govTag
  exact (hdiv.tag_ptr _ (by omega) _ (by omega)).mpr (by omega)

theorem govTag_lt (hb : b + 1 < sp.bnstNum) : govTag sp dp examples b < sp.tagNum := by
  have hright := hdp.right b hb
  have hfit := (hdiv.tag_num (dp.head b).toNat (by omega)).2
  obtain ⟨hlo, hhi⟩ := arrayOffset_bounds examples hdiv hdp hb
  unfold govTag
  omega

theorem head_lastTag (hb : b + 1 < sp.bnstNum) :
    ((tagRawRun sp dp examples).tag (sp.lastTag b)).dpndHead = govTag sp dp examples b := by
  have hright := hdp.right b hb
  have hown := bnstOf_lastTag hdiv (Nat.lt_of_succ_lt hb)
  obtain ⟨hpos, hfit⟩ := hdiv.tag_num (dp.head b).toNat (by omega)
  obtain ⟨hlo, hhi⟩ := arrayOffset_bounds examples hdiv hdp hb
  rw [(tagRawRun_inv dp examples hdiv).head _ (lastTag_lt hdiv (Nat.lt_of_succ_lt hb)), tagDpndHead]
  dsimp only
  rw [hown, if_neg (lastTag_succ_lt hdiv hb).ne, if_neg (by simp [inum_lastTag hdiv hb]),
    if_neg (by omega)]
  unfold govTag
  unfold arrayOffset at hlo hhi ⊢
  dsimp only at hlo hhi ⊢
  omega

/-- 31 modifiers of which not all go to the same tag leave room for the tag in front. -/
theorem TagChoicesFit.room (hfit : TagChoicesFit sp dp examples) (hh : h < sp.bnstNum)
    (hcard : (modifiersOf sp dp h).card + 1 = PARA_PART_MAX)
    (hall : ∀ b ∈ modifiersOf sp dp h, govTag sp dp examples b = g)
    (hfirst : (sp.bnst h).tagPtr < g) : False := by
  have hoffset : ∀ b ∈ modifiersOf sp dp h, arrayOffset sp dp examples b =
      g - (sp.bnst h).tagPtr - ((sp.bnst h).tagNum - 1) := by
    intro b hb
    obtain ⟨-, -, hlast, hhead⟩ := modifier_lt hdp hb
    obtain ⟨hlo, hhi⟩ := arrayOffset_bounds examples hdiv hdp hlast
    have hgov := hall b hb
    unfold govTag at hgov
    rw [hhead] at hgov hlo
    omega
  have htwo : 2 ≤ (sp.bnst h).tagNum := by
    obtain ⟨b, hb⟩ : (modifiersOf sp dp h).Nonempty := by
      rw [← Finset.card_pos]
      have : PARA_PART_MAX = 32 := rfl
      omega
    obtain ⟨-, -, hlast, hhead⟩ := modifier_lt hdp hb
    obtain ⟨hlo, hhi⟩ := arrayOffset_bounds examples hdiv hdp hlast
    have := hoffset b hb
    omega
  -- nothing is moved: another modifier would stay
  have hnone : ∀ b ∈ modifiersOf sp dp h, ¬ TakesFormer sp dp examples b := by
    intro b hb hmove
    obtain ⟨-, -, hlast, hhead⟩ := modifier_lt hdp hb
    obtain ⟨c, hc, hne⟩ := Finset.exists_mem_ne
      (by have : PARA_PART_MAX = 32 := rfl; omega : 1 < (modifiersOf sp dp h).card) b
    obtain ⟨-, -, -, hchead⟩ := modifier_lt hdp hc
    have hcnot : ¬ TakesFormer sp dp examples c := fun hcmove => by
      have := hcmove.next
      have := hmove.next
      omega
    have hrule : checkFeature (sp.bnst h).f "タグ単位受" = none := by
      by_contra hsome
      have hhas : hasFeature (sp.bnst (dp.head b).toNat).f "タグ単位受" = true := by
        rw [hhead]
        exact Option.isSome_iff_ne_none.mpr hsome
      exact (hfit.choice b hlast).byRule hmove.not_ignored hhas hmove
    obtain ⟨j, -, -, hlt⟩ := hmove.arrayOffset
    have hcoff := arrayOffset_of_not hcnot
    rw [hhead, tagUke_none hrule] at hlt
    rw [hchead, tagUke_none hrule] at hcoff
    have := hoffset b hb
    have := hoffset c hc
    omega
  have huke : ∀ b ∈ modifiersOf sp dp h, tagUke sp b h =
      g - (sp.bnst h).tagPtr - ((sp.bnst h).tagNum - 1) := by
    intro b hb
    obtain ⟨-, -, -, hhead⟩ := modifier_lt hdp hb
    have hstay := arrayOffset_of_not (hnone b hb)
    rw [hhead] at hstay
    rw [← hstay, hoffset b hb]
  rcases hfit.spread h hh hcard htwo with ⟨b, hb, hmove | hfront⟩ | ⟨b, hb, c, hc, hne⟩
  · exact hnone b hb hmove
  · have := huke b hb
    omega
  · exact hne ((huke b hb).trans (huke c hc).symm)

/-! ### The children of a tag -/

/-- In the tree the last tags go to the tags that the array has. -/
def SameGovTags (sp : SentenceData) (dp : Dpnd) (examples : Nat → Nat → Bool) (bnst : TreeData)
    (bps : Nat → BunsetsuData) : Prop :=
  ∀ b, b + 1 < sp.bnstNum → ∃ p, bnst.parent b = some p ∧
    dpndTag (bps b) (bps p) = govTag sp dp examples b

omit hdp in
theorem mem_tagLinks_iff {bps : Nat → BunsetsuData} (hof : OfSentence sp bps)
    (hgov : SameGovTags sp dp examples bnst bps) : (c, g) ∈ tagLinks bnst bps sp.bnstNum ↔
      (∃ b < sp.bnstNum, sp.bnstOf c = b ∧ c < sp.lastTag b ∧ g = c + 1) ∨
        ∃ b, b + 1 < sp.bnstNum ∧ c = sp.lastTag b ∧ g = govTag sp dp examples b := by
  have hpos : 0 < sp.bnstNum := by
    have := hdiv.tag.number_lt_count hdiv.tag.pos
    omega
  rw [mem_tagLinks hpos]
  refine or_congr ⟨?_, ?_⟩ ⟨?_, ?_⟩
  · rintro ⟨b, hb, he⟩
    exact ⟨b, hb, hof.inside hb he⟩
  · rintro ⟨b, hb, hown, hlt, rfl⟩
    refine ⟨b, hb, mem_insideLinks.mpr ⟨c - (bps b).tagPtr, ?_, ?_⟩⟩
    all_goals
      have hc := (hdiv.tag_ptr b hb c (hlt.trans (lastTag_lt hdiv hb))).mp hown
      have hlast := hof.last_eq hb
      rw [← hof.ptr_eq b hb] at hc
    · omega
    · rw [Prod.mk.injEq]
      omega
  · rintro ⟨b, hb, he⟩
    obtain ⟨p, hp, heq⟩ := mem_outLinks.mp he
    obtain ⟨p', hp', hsame⟩ := hgov b hb
    obtain rfl := Option.some.inj (hp.symm.trans hp')
    rw [Prod.mk.injEq, hof.last_eq (Nat.lt_of_succ_lt hb), hsame] at heq
    exact ⟨b, hb, heq⟩
  · rintro ⟨b, hb, rfl, rfl⟩
    obtain ⟨p, hp, hsame⟩ := hgov b hb
    refine ⟨b, hb, mem_outLinks.mpr ⟨p, hp, ?_⟩⟩
    rw [hof.last_eq (Nat.lt_of_succ_lt hb), hsame]

omit hdp in
theorem lastTag_inj (hb : b < sp.bnstNum) (hc : c < sp.bnstNum)
    (heq : sp.lastTag b = sp.lastTag c) : b = c := by
  rw [← bnstOf_lastTag hdiv hb, heq, bnstOf_lastTag hdiv hc]

omit hdp in
theorem bnstOf_succ_inside (hb : b < sp.bnstNum) (hown : sp.bnstOf c = b) (hlt : c < sp.lastTag b) :
    sp.bnstOf (c + 1) = b ∧ (sp.bnst b).tagPtr < c + 1 := by
  have hlast := lastTag_lt hdiv hb
  have hc := (hdiv.tag_ptr b hb c (by omega)).mp hown
  unfold SentenceData.lastTag at hlt
  exact ⟨(hdiv.tag_ptr b hb (c + 1) (by unfold SentenceData.lastTag at hlast; omega)).mpr
    (by omega), by omega⟩

/-- If the arrays have room, the modifiers are spread. -/
theorem spread_of_room {bps : Nat → BunsetsuData} (hof : OfSentence sp bps)
    (hgov : SameGovTags sp dp examples bnst bps)
    (hroom : ∀ g, (kidsOf (tagLinks bnst bps sp.bnstNum) g).length < PARA_PART_MAX)
    (hh : h < sp.bnstNum) (hcard : (modifiersOf sp dp h).card + 1 = PARA_PART_MAX)
    (htwo : 2 ≤ (sp.bnst h).tagNum) :
    (∃ b ∈ modifiersOf sp dp h, TakesFormer sp dp examples b ∨
      tagUke sp b h = 1 - ((sp.bnst h).tagNum : Int)) ∨
    ∃ b ∈ modifiersOf sp dp h, ∃ c ∈ modifiersOf sp dp h, tagUke sp b h ≠ tagUke sp c h := by
  by_contra hnot
  push Not at hnot
  obtain ⟨hstay, hsame⟩ := hnot
  obtain ⟨hpos, hfit⟩ := hdiv.tag_num h hh
  obtain ⟨b₀, hb₀⟩ : (modifiersOf sp dp h).Nonempty := by
    rw [← Finset.card_pos]
    have : PARA_PART_MAX = 32 := rfl
    omega
  obtain ⟨hlo, hhi⟩ := tagUke_bounds b₀ hpos
  have hnotfirst := (hstay b₀ hb₀).2
  set g := (sp.bnst h).tagPtr + (((sp.bnst h).tagNum : Int) - 1 + tagUke sp b₀ h).toNat with hg
  have hall : ∀ b ∈ modifiersOf sp dp h, govTag sp dp examples b = g := by
    intro b hb
    obtain ⟨-, -, -, hhead⟩ := modifier_lt hdp hb
    unfold govTag
    rw [arrayOffset_of_not (hstay b hb).1, hhead, hsame b hb b₀ hb₀]
  -- the tag in front, and the last tags of the modifiers
  have hown : sp.bnstOf (g - 1) = h := (hdiv.tag_ptr h hh _ (by omega)).mpr (by omega)
  have hfront : g - 1 ∉ (modifiersOf sp dp h).image sp.lastTag := by
    rw [Finset.mem_image]
    rintro ⟨b, hb, heq⟩
    obtain ⟨hlt, -, -, -⟩ := modifier_lt hdp hb
    have := bnstOf_lastTag hdiv (hlt.trans hh)
    rw [heq] at this
    omega
  have hsub : insert (g - 1) ((modifiersOf sp dp h).image sp.lastTag) ⊆
      (kidsOf (tagLinks bnst bps sp.bnstNum) g).toFinset := by
    intro c hc
    rw [List.mem_toFinset, mem_kidsOf, mem_tagLinks_iff hdiv hof hgov]
    rcases Finset.mem_insert.mp hc with rfl | hc
    · refine Or.inl ⟨h, hh, hown, ?_, by omega⟩
      unfold SentenceData.lastTag
      omega
    · obtain ⟨b, hb, rfl⟩ := Finset.mem_image.mp hc
      obtain ⟨-, -, hlast, -⟩ := modifier_lt hdp hb
      exact Or.inr ⟨b, hlast, rfl, (hall b hb).symm⟩
  have hcount := (Finset.card_le_card hsub).trans (List.toFinset_card_le _)
  rw [Finset.card_insert_of_notMem hfront, Finset.card_image_of_injOn] at hcount
  · have := hroom g
    omega
  · intro b hb c hc heq
    obtain ⟨hblt, -, -, -⟩ := modifier_lt hdp hb
    obtain ⟨hclt, -, -, -⟩ := modifier_lt hdp hc
    exact lastTag_inj hdiv (hblt.trans hh) (hclt.trans hh) heq

/-- If the modifiers are few and spread, the arrays have room. -/
theorem TagChoicesFit.kids_lt {bps : Nat → BunsetsuData} (hof : OfSentence sp bps)
    (hgov : SameGovTags sp dp examples bnst bps) (hfit : TagChoicesFit sp dp examples) (g : Nat) :
    (kidsOf (tagLinks bnst bps sp.bnstNum) g).length < PARA_PART_MAX := by
  set kids := kidsOf (tagLinks bnst bps sp.bnstNum) g with hkids
  have hnodup : kids.Nodup := kidsOf_nodup hof.tagLinks_nodup
  have hmem : ∀ c, c ∈ kids ↔ (∃ b < sp.bnstNum, sp.bnstOf c = b ∧ c < sp.lastTag b ∧ g = c + 1) ∨
      ∃ b, b + 1 < sp.bnstNum ∧ c = sp.lastTag b ∧ g = govTag sp dp examples b := fun c => by
    rw [hkids, mem_kidsOf, mem_tagLinks_iff hdiv hof hgov]
  set outer := (Finset.range sp.bnstNum).filter fun b =>
    b + 1 < sp.bnstNum ∧ g = govTag sp dp examples b with houter
  have hsub : kids.toFinset ⊆ insert (g - 1) (outer.image sp.lastTag) := by
    intro c hc
    rcases (hmem c).mp (List.mem_toFinset.mp hc) with ⟨b, -, -, -, rfl⟩ | ⟨b, hb, rfl, hg⟩
    · exact Finset.mem_insert_self _ _
    · refine Finset.mem_insert_of_mem (Finset.mem_image_of_mem _ ?_)
      exact Finset.mem_filter.mpr ⟨Finset.mem_range.mpr (by omega), hb, hg⟩
  have hmax : PARA_PART_MAX = 32 := rfl
  by_contra hge
  have hlen : kids.toFinset.card = kids.length := List.toFinset_card_of_nodup hnodup
  have hcount : kids.toFinset.card ≤ outer.card + 1 :=
    (Finset.card_le_card hsub).trans ((Finset.card_insert_le _ _).trans
      (Nat.succ_le_succ Finset.card_image_le))
  obtain ⟨b₀, hb₀⟩ : outer.Nonempty := by
    rw [← Finset.card_pos]
    omega
  obtain ⟨-, hlast₀, hg₀⟩ := Finset.mem_filter.mp hb₀
  have hright := hdp.right b₀ hlast₀
  set h := (dp.head b₀).toNat with hh
  have hgh : sp.bnstOf g = h := by rw [hg₀, bnstOf_govTag examples hdiv hdp hlast₀]
  -- all that go to the tag are modifiers of its bunsetsu
  have hmods : outer ⊆ modifiersOf sp dp h := by
    intro b hb
    obtain ⟨-, hlast, hg⟩ := Finset.mem_filter.mp hb
    have hbright := hdp.right b hlast
    have hsame := bnstOf_govTag examples hdiv hdp hlast
    rw [← hg, hgh] at hsame
    exact mem_modifiersOf.mpr ⟨by omega, by omega⟩
  have hle := Finset.card_le_card hmods
  have hfew := hfit.few h (by omega)
  have heq : outer = modifiersOf sp dp h := Finset.eq_of_subset_of_card_le hmods (by omega)
  -- the tag in front is a child too
  obtain ⟨b, hb, hown, hlt, hsucc⟩ : ∃ b < sp.bnstNum, sp.bnstOf (g - 1) = b ∧
      g - 1 < sp.lastTag b ∧ g = g - 1 + 1 := by
    by_contra hno
    have hsub' : kids.toFinset ⊆ outer.image sp.lastTag := fun c hc => by
      rcases (hmem c).mp (List.mem_toFinset.mp hc) with ⟨b, hb, hown, hlt, rfl⟩ | ⟨b, hb, rfl, hg⟩
      · exact absurd ⟨b, hb, hown, hlt, rfl⟩ hno
      · exact Finset.mem_image_of_mem _ (Finset.mem_filter.mpr
          ⟨Finset.mem_range.mpr (by omega), hb, hg⟩)
    have := (Finset.card_le_card hsub').trans Finset.card_image_le
    omega
  obtain ⟨hnext, hfirst⟩ := bnstOf_succ_inside hdiv hb hown hlt
  rw [← hsucc] at hnext hfirst
  obtain rfl : b = h := hnext.symm.trans hgh
  exact hfit.room hdiv hdp (by omega) (by omega) (fun b hb => by
    rw [← heq] at hb
    exact (Finset.mem_filter.mp hb).2.2.symm) hfirst

/-! ### Both sides -/

omit hdp in
variable (dp examples s) in
theorem ofSentence : OfSentence sp (nodeData (tagRawRun sp dp examples) s.data) := by
  have hsame := (tagRawRun_inv dp examples hdiv).same
  refine ⟨hdiv, fun b hb => ?_, fun b hb => ?_⟩
  · rw [nodeData, if_pos (by rwa [hsame.bnstNum_eq]), hsame.ptr_eq]
  · rw [nodeData, if_pos (by rwa [hsame.bnstNum_eq]), hsame.num_eq]

variable (examples) in
theorem Loaded.plainTree (hload : Loaded sp dp env bnst tags)
    (hrun : makeDpndTree env bnst = some (true, s)) :
    PlainTree s.data (nodeData (tagRawRun sp dp examples) s.data) tags.num sp.bnstNum sp.tagNum := by
  have hplain := hload.plainHeads hdp
  have hof := ofSentence dp examples s hdiv
  have henv := hload.bnstNum_eq
  obtain ⟨-, hfew, -⟩ := hplain.tree hrun
  refine ⟨fun b hb => ?_, fun b hb => ?_, fun b hb p hp => ?_, fun b hb => ?_, fun t ht => ?_⟩
  · rw [merged_congr hfew.num_eq]
    exact hplain.complete.merged_eq_false (by omega)
  · rw [hfew.paraTopP_eq]
    exact if_pos (hb.trans_le hload.bnst_max)
  · have := (hplain.parent_eq hrun (by omega) hp).2
    omega
  · rw [hof.ptr_eq b hb, hof.num_eq b hb]
    exact hdiv.tag_num b hb
  · rw [hload.tag_num t ht]
    omega

omit hdiv hdp in
/-- The start of the tree of the tags. -/
theorem initTagTree_reads (hg : g < TAG_MAX) :
    NullArray.Reads ((initTagTreeProperty tags).child g) [] := by
  intro k hk
  obtain rfl : k = 0 := Nat.le_zero.mp hk
  exact if_pos ⟨hg, rfl⟩

theorem dpndTag_eq_govTag_iff (hb : b + 1 < sp.bnstNum) :
    dpndTag (nodeData (tagRawRun sp dp examples) s.data b)
        (nodeData (tagRawRun sp dp examples) s.data (dp.head b).toNat) =
      govTag sp dp examples b ↔ SameChoice sp dp examples b := by
  have hright := hdp.right b hb
  have hsame := (tagRawRun_inv dp examples hdiv).same
  obtain ⟨hpos, -⟩ := hdiv.tag_num (dp.head b).toNat (by omega)
  obtain ⟨hlo, hhi⟩ := arrayOffset_bounds examples hdiv hdp hb
  have hpos' : 0 < ((tagRawRun sp dp examples).bnst (dp.head b).toNat).tagNum := by
    rwa [hsame.num_eq]
  obtain ⟨hlo', hhi'⟩ := dpndOffset_bounds ((tagRawRun sp dp examples).bnst b) hpos'
  rw [← treeOffset_eq_iff hdiv hdp hb, nodeData, if_pos (by rw [hsame.bnstNum_eq]; omega), nodeData,
    if_pos (by rw [hsame.bnstNum_eq]; omega), dpndTag, govTag]
  unfold treeOffset
  rw [hsame.num_eq] at hlo' ⊢
  rw [hsame.ptr_eq]
  omega

section Tree

variable (hload : Loaded sp dp env bnst tags) {d : TreeData}
  (hatt : Attached (tagLinks s.data (nodeData (tagRawRun sp dp examples) s.data) sp.bnstNum)
    (initTagTreeProperty tags) d)
include hload hatt

theorem LinksAgree.sameGovTags (hagree : LinksAgree (tagRawRun sp dp examples) d) :
    SameGovTags sp dp examples s.data (nodeData (tagRawRun sp dp examples) s.data) := by
  have hof := ofSentence dp examples s hdiv
  have hmax := hload.tag_max
  intro b hb
  have hlt := lastTag_succ_lt hdiv hb
  obtain ⟨p, hhead, hparent, -⟩ := hagree (sp.lastTag b)
    (by rwa [(tagRawRun_inv dp examples hdiv).same.tagNum_eq])
  rw [head_lastTag hdiv hdp hb] at hhead
  cases hbp : s.data.parent b with
  | none =>
      -- then the tag has no parent
      rw [hatt.parent_keep, initTagTreeProperty] at hparent
      · dsimp only at hparent
        rw [if_pos (by omega)] at hparent
        cases hparent
      · intro hmem
        obtain ⟨e, he, heq⟩ := List.mem_map.mp hmem
        rcases (mem_tagLinks (by omega)).mp he with ⟨b', hb', hin⟩ | ⟨b', hb', hout⟩
        · obtain ⟨hown, hlast, -⟩ := hof.inside hb' hin
          rw [heq, bnstOf_lastTag hdiv (Nat.lt_of_succ_lt hb)] at hown
          rw [heq, hown] at hlast
          exact Nat.lt_irrefl _ hlast
        · have hown := (hof.out (Nat.lt_of_succ_lt hb') hout).1
          rw [heq, bnstOf_lastTag hdiv (Nat.lt_of_succ_lt hb)] at hown
          obtain ⟨p', hp', -⟩ := mem_outLinks.mp hout
          rw [← hown, hbp] at hp'
          cases hp'
  | some q =>
      have hmem : (sp.lastTag b, dpndTag (nodeData (tagRawRun sp dp examples) s.data b)
          (nodeData (tagRawRun sp dp examples) s.data q)) ∈
          tagLinks s.data (nodeData (tagRawRun sp dp examples) s.data) sp.bnstNum := by
        refine (mem_tagLinks (by omega)).mpr (Or.inr ⟨b, hb, mem_outLinks.mpr ⟨q, hbp, ?_⟩⟩)
        rw [hof.last_eq (Nat.lt_of_succ_lt hb)]
      rw [hatt.parent_of_mem hof.tagLinks_nodup _ _ hmem] at hparent
      have := Option.some.inj hparent
      exact ⟨q, rfl, by omega⟩

/-- The children of a tag fit into its array. -/
theorem LinksAgree.kids_lt (hagree : LinksAgree (tagRawRun sp dp examples) d) (g : Nat) :
    (kidsOf (tagLinks s.data (nodeData (tagRawRun sp dp examples) s.data) sp.bnstNum) g).length <
      PARA_PART_MAX := by
  have hof := ofSentence dp examples s hdiv
  have hgov := hagree.sameGovTags hdiv hdp hload hatt
  have hmax := hload.tag_max
  cases hkids : kidsOf (tagLinks s.data (nodeData (tagRawRun sp dp examples) s.data) sp.bnstNum)
    g with
  | nil => exact Nat.zero_lt_succ _
  | cons c rest =>
      have hmem := mem_kidsOf.mp (hkids ▸ List.mem_cons_self (a := c) (l := rest))
      have hparent := hatt.parent_of_mem hof.tagLinks_nodup c g hmem
      have hc : c + 1 < sp.tagNum ∧ g < sp.tagNum := by
        rcases (mem_tagLinks_iff hdiv hof hgov).mp hmem with
          ⟨b, hb, -, hlt, rfl⟩ | ⟨b, hb, rfl, rfl⟩
        · have := lastTag_lt hdiv hb
          omega
        · exact ⟨lastTag_succ_lt hdiv hb, govTag_lt hdiv hdp hb⟩
      obtain ⟨p, -, hp, l, hlen, hreads, -⟩ := hagree c (by
        rw [(tagRawRun_inv dp examples hdiv).same.tagNum_eq]
        exact hc.1)
      obtain rfl := Option.some.inj (hparent.symm.trans hp)
      have hall := hatt.reads g [] (initTagTree_reads (by omega))
      rw [List.nil_append, hkids] at hall
      rwa [hall.unique hreads]

theorem SameGovTags.linksAgree
    (hgov : SameGovTags sp dp examples s.data (nodeData (tagRawRun sp dp examples) s.data))
    (hroom : ∀ g, (kidsOf (tagLinks s.data (nodeData (tagRawRun sp dp examples) s.data) sp.bnstNum)
      g).length < PARA_PART_MAX) : LinksAgree (tagRawRun sp dp examples) d := by
  have hof := ofSentence dp examples s hdiv
  have hmax := hload.tag_max
  intro t ht
  rw [(tagRawRun_inv dp examples hdiv).same.tagNum_eq] at ht
  have hown : sp.bnstOf t < sp.bnstNum := hdiv.tag.number_lt_count (Nat.lt_of_succ_lt ht)
  have hchild : ∀ g, (t, g) ∈ tagLinks s.data (nodeData (tagRawRun sp dp examples) s.data)
      sp.bnstNum → g < sp.tagNum → d.parent t = some g ∧ IsChild d g t := fun g hmem hg =>
    ⟨hatt.parent_of_mem hof.tagLinks_nodup t g hmem,
      hatt.isChild hof.tagLinks_nodup (initTagTree_reads (by omega)) (hroom g) hmem⟩
  by_cases hinum : (sp.tag t).inum = 0
  · have hlast := eq_lastTag hdiv (Nat.lt_of_succ_lt ht) hinum
    have hb : sp.bnstOf t + 1 < sp.bnstNum := bnstOf_succ_lt hdiv ht hinum
    refine ⟨govTag sp dp examples (sp.bnstOf t), ?_, hchild _ ?_ (govTag_lt hdiv hdp hb)⟩
    · conv_lhs => rw [hlast]
      exact head_lastTag hdiv hdp hb
    · exact (mem_tagLinks_iff hdiv hof hgov).mpr (Or.inr ⟨sp.bnstOf t, hb, hlast, rfl⟩)
  · refine ⟨t + 1, ?_, hchild _ ?_ ht⟩
    · rw [(tagRawRun_inv dp examples hdiv).head t (Nat.lt_of_succ_lt ht), tagDpndHead]
      dsimp only
      rw [if_neg ht.ne, if_pos hinum]
      rfl
    · exact (mem_tagLinks_iff hdiv hof hgov).mpr
        (Or.inl ⟨_, hown, rfl, lt_lastTag hdiv ht hinum, rfl⟩)

end Tree

/-- The heads of the tags in the arrays are those of the tree exactly if both
choose the same governing tags and the child arrays have room. -/
theorem tagTreeAgrees_iff (hload : Loaded sp dp env bnst tags) :
    TagTreeAgrees sp dp examples env bnst tags ↔ TagChoicesFit sp dp examples := by
  have hplain := hload.plainHeads hdp
  have henv := hload.bnstNum_eq
  have hsame := (tagRawRun_inv dp examples hdiv).same
  have hpos : 0 < sp.bnstNum := by
    have := hdiv.tag.number_lt_count hdiv.tag.pos
    omega
  have hmods : ∀ h, modifierNum env bnst.dpndHead h = (modifiersOf sp dp h).card := by
    intro h
    unfold modifierNum modifiersOf
    rw [henv]
    refine congrArg Finset.card (Finset.filter_congr fun i hi => ?_)
    rw [hload.bnst_head i (Finset.mem_range.mp hi)]
  have hparent : ∀ s, makeDpndTree env bnst = some (true, s) → ∀ b, b + 1 < sp.bnstNum →
      ∀ p, s.data.parent b = some p → p = (dp.head b).toNat := by
    intro s hrun b hb p hp
    have := (hplain.parent_eq hrun (by omega) hp).1
    rw [hload.bnst_head b (by omega)] at this
    omega
  constructor
  · rintro ⟨s, r, hrun, htags, hagree⟩
    have hof := ofSentence dp examples s hdiv
    have htree := hload.plainTree examples hdiv hdp hrun
    rw [(hplain.tree hrun).1] at htags
    obtain ⟨d, hlink, rfl⟩ := Option.map_eq_some_iff.mp htags
    rw [hsame.bnstNum_eq] at hlink
    have hatt := (htree.attaches hpos).sound (initTagTreeProperty tags) d rfl hlink
    have hgov := hagree.sameGovTags hdiv hdp hload hatt
    have hroom := hagree.kids_lt hdiv hdp hload hatt
    refine ⟨fun b hb => ?_, fun h hh => ?_, fun h hh hcard htwo =>
      spread_of_room hdiv hdp hof hgov hroom hh hcard htwo⟩
    · obtain ⟨p, hp, hsameTag⟩ := hgov b hb
      rw [hparent s hrun b hb p hp] at hsameTag
      exact (dpndTag_eq_govTag_iff hdiv hdp hb).mp hsameTag
    · rw [← hmods]
      refine hplain.parents_iff.mp ⟨s, hrun, fun b hb => ?_⟩ h (by omega)
      obtain ⟨p, hp, -⟩ := hgov b (by omega)
      rw [hp]
      rfl
  · intro hfit
    obtain ⟨s, hrun, hsome⟩ := hplain.parents_iff.mpr fun h hh => by
      rw [hmods]
      exact hfit.few h (by omega)
    have hof := ofSentence dp examples s hdiv
    have htree := hload.plainTree examples hdiv hdp hrun
    have hgov : SameGovTags sp dp examples s.data
        (nodeData (tagRawRun sp dp examples) s.data) := by
      intro b hb
      obtain ⟨p, hp⟩ := Option.isSome_iff_exists.mp (hsome b (by omega))
      refine ⟨p, hp, ?_⟩
      rw [hparent s hrun b hb p hp]
      exact (dpndTag_eq_govTag_iff hdiv hdp hb).mpr (hfit.choice b hb)
    have hroom := hfit.kids_lt hdiv hdp hof hgov
    obtain ⟨d, hlink⟩ := (htree.attaches hpos).total (initTagTreeProperty tags) rfl fun g hg => by
      obtain ⟨e, he, rfl⟩ := List.mem_map.mp hg
      refine ⟨[], initTagTree_reads ?_, by simpa using hroom e.2⟩
      have hlt : e.2 < sp.tagNum := by
        rcases (mem_tagLinks_iff (c := e.1) hdiv hof hgov).mp he with
          ⟨b, hb, -, hlt, heq⟩ | ⟨b, hb, -, heq⟩
        · have := lastTag_lt hdiv hb
          omega
        · rw [heq]
          exact govTag_lt hdiv hdp hb
      exact hlt.trans_le hload.tag_max
    have hatt := (htree.attaches hpos).sound (initTagTreeProperty tags) d rfl hlink
    refine ⟨s, ⟨d, nodeData (tagRawRun sp dp examples) s.data, 0⟩, hrun, ?_,
      hgov.linksAgree hdiv hdp hload hatt hroom⟩
    rw [(hplain.tree hrun).1]
    unfold bnstToTagTree
    rw [linkNews, Option.bind_some, hsame.bnstNum_eq, hlink]
    rfl

end Agree

/-! ## Two structures of a sentence -/

/-- 優秀な東京の大学教授: the last bunsetsu has the tags 大学 and 教授. -/
def kyoju : SentenceData where
  mrphNum := 4
  mrph i := morpheme "名詞" "普通名詞" [] i 0
  tagNum := 4
  tag t :=
    { mrphPtr := t, mrphNum := 1, headPtr := t, f := if t = 1 then ["係:ノ格"] else []
      bnum := if t = 3 then -1 else t, inum := if t = 2 then 1 else 0
      dpndHead := 0, dpndType := 'D' }
  bnstNum := 3
  bnst b := ⟨b, if b = 2 then 2 else 1, []⟩

/-- 東京の is an example of 大学 and not of 教授. -/
def kyojuExamples (t g : Nat) : Bool := t = 1 && g = 2

def dpndOf (heads : List Int) : Dpnd := ⟨fun b => heads.getD b (-1), fun _ => 'D'⟩

theorem kyoju_divided : kyoju.Divided := by decide +kernel

theorem kyoju_loaded (heads : List Int) :
    Loaded kyoju (dpndOf heads) (plainEnv 3) (bunsetsuOf heads) (bunsetsuOf []) :=
  ⟨rfl, rfl, fun _ _ => rfl, fun _ _ => rfl, fun _ _ => rfl, by decide, by decide⟩

theorem kyoju_rightHeaded {heads : List Int}
    (h : heads = [1, 2] ∨ heads = [2, 2]) : RightHeaded (dpndOf heads) 3 := by
  rcases h with rfl | rfl
  all_goals
    refine ⟨fun b hb => ?_, by decide⟩
    have hlt : b < 2 := Nat.lt_of_succ_lt_succ hb
    interval_cases b <;> decide

theorem kyoju_takesFormer (heads : List Int) (h : heads.getD 1 (-1) = 2) :
    TakesFormer kyoju (dpndOf heads) kyojuExamples 1 := by
  have hhead : ((dpndOf heads).head 1).toNat = 2 := by
    show (heads.getD 1 (-1)).toNat = 2
    rw [h]
    rfl
  unfold TakesFormer
  rw [hhead]
  decide +kernel

/-- If 優秀な goes to 東京の, this one is the only modifier of 大学教授. -/
theorem kyoju_agrees : TagTreeAgrees kyoju (dpndOf [1, 2]) kyojuExamples (plainEnv 3)
    (bunsetsuOf [1, 2]) (bunsetsuOf []) := by
  have hmods : ∀ h, (modifiersOf kyoju (dpndOf [1, 2]) h).card < 4 := fun h =>
    (Finset.card_filter_le _ _).trans_lt (by decide)
  refine (tagTreeAgrees_iff kyoju_divided (kyoju_rightHeaded (Or.inl rfl))
    (kyoju_loaded [1, 2])).mpr ⟨fun b hb => ?_, fun h _ => ?_, fun h _ hfull => ?_⟩
  · have hlt : b < 2 := Nat.lt_of_succ_lt_succ hb
    interval_cases b
    · refine ⟨fun _ hrule => absurd hrule (by decide +kernel), fun _ _ => Or.inr ⟨?_, ?_⟩⟩
      · intro c hc
        obtain rfl : c = 0 := by
          obtain ⟨hc3, hhead⟩ := mem_modifiersOf.mp hc
          have hc3' : c < 3 := hc3
          interval_cases c
          · rfl
          · exact absurd hhead (by decide)
          · exact absurd hhead (by decide)
        exact fun hmove => absurd hmove.2.1 (by decide +kernel)
      · decide +kernel
    · exact ⟨fun _ hrule => absurd hrule (by decide +kernel),
        fun _ _ => Or.inl (kyoju_takesFormer [1, 2] rfl)⟩
  · exact (hmods h).trans (by decide)
  · have := hmods h
    have hmax : PARA_PART_MAX = 32 := rfl
    omega

/-- If it goes to 大学教授, its tag has the head 教授 in the array and 大学 in the tree,
because 東京の has been moved. -/
theorem kyoju_not_agrees : kyoju.Divided ∧ RightHeaded (dpndOf [2, 2]) kyoju.bnstNum ∧
    Loaded kyoju (dpndOf [2, 2]) (plainEnv 3) (bunsetsuOf [2, 2]) (bunsetsuOf []) ∧
    ¬ TagTreeAgrees kyoju (dpndOf [2, 2]) kyojuExamples (plainEnv 3) (bunsetsuOf [2, 2])
      (bunsetsuOf []) := by
  refine ⟨kyoju_divided, kyoju_rightHeaded (Or.inr rfl), kyoju_loaded [2, 2], ?_⟩
  rintro ⟨s, r, hrun, htags, hagree⟩
  have hhead : ((tagRawRun kyoju (dpndOf [2, 2]) kyojuExamples).tag 0).dpndHead = 3 := by
    decide +kernel
  have htree : ((makeDpndTree (plainEnv 3) (bunsetsuOf [2, 2])).bind fun r => bnstToTagTree
      (tagRawRun kyoju (dpndOf [2, 2]) kyojuExamples) r.2.data r.2.newBnstNum (bunsetsuOf [])).map
        (fun r => r.tags.parent 0) = some (some 2) := by
    decide +kernel
  rw [hrun, Option.bind_some, htags, Option.map_some] at htree
  obtain ⟨p, hp, hparent, -⟩ := hagree 0 (by decide)
  rw [Option.some.inj htree] at hparent
  obtain rfl := Option.some.inj hparent
  rw [hhead] at hp
  exact absurd hp (by decide)

end Knp
