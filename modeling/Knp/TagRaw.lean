import Knp.MrphDpnd

/-!
# The features that `dpnd_info_to_tag_raw` leaves

In ＡのＢＣ the last tag Ａ of a bunsetsu may go to a former tag Ｂ of its head. Then
the head and the tag Ｂ get the feature 直前タグ受, which `bnst_to_tag_tree` reads
later. Here the turns of `dpnd_info_to_tag_raw` are run one after the other, each
on the features that the ones before have left.

> The features make no difference to the heads of the tags. A bunsetsu gets
> 直前タグ受 from its left neighbour only.
-/

namespace Knp

/-! ## Assigning a feature -/

/-- The name in front of the colon, or all of `fname` if the colon is quoted. -/
def featureName (fname : String) : String :=
  let name := String.ofList (fname.toList.takeWhile (· != ':'))
  -- 34 is the quotation mark
  if name ≠ fname && name.toList.count (Char.ofNat 34) % 2 = 1 then fname else name

/-- `assign_cfeature`: 上書きできなければ末尾に追加 -/
def assignCfeature (fname : String) : List String → List String
  | [] => [fname]
  | cp :: fp =>
      if compFeature cp (featureName fname) then fname :: fp else cp :: assignCfeature fname fp

/-- What `sprintf` writes for an offset. -/
def lastTagFeature (offset : Int) : String := "直前タグ受:" ++ toString offset

section Features

variable {cp fname name : String} {fp : List String} {offset : Int}

theorem compFeature_head (h : compFeature cp name = true) (hne : name.toList ≠ []) :
    cp.toList.head? = name.toList.head? := by
  unfold compFeature at h
  rw [Bool.or_eq_true, decide_eq_true_eq] at h
  rcases h with rfl | hprefix
  · rfl
  · obtain ⟨rest, hrest⟩ := List.isPrefixOf_iff_prefix.mp hprefix
    rw [← hrest, List.append_assoc, List.head?_append_of_ne_nil _ hne]

theorem featureName_lastTag : featureName (lastTagFeature offset) = "直前タグ受" := by
  have hname : (lastTagFeature offset).toList.takeWhile (· != ':') = "直前タグ受".toList := by
    unfold lastTagFeature
    rw [String.toList_append]
    rfl
  unfold featureName
  rw [hname, String.ofList_toList]
  simp

theorem lastTag_head : (lastTagFeature offset).toList.head? = "直前タグ受".toList.head? := by
  unfold lastTagFeature
  rw [String.toList_append]
  rfl

theorem compFeature_lastTag : compFeature (lastTagFeature offset) "直前タグ受" = true := by
  unfold compFeature lastTagFeature
  rw [Bool.or_eq_true]
  refine Or.inr (List.isPrefixOf_iff_prefix.mpr ⟨(toString offset).toList, ?_⟩)
  rw [String.toList_append]
  rfl

theorem checkFeature_cons_of (h : compFeature cp name = true) :
    checkFeature (cp :: fp) name = some cp := List.find?_cons_of_pos h

theorem checkFeature_cons_of_not (h : ¬ compFeature cp name = true) :
    checkFeature (cp :: fp) name = checkFeature fp name := List.find?_cons_of_neg h

/-- The feature that has been assigned is found. -/
theorem checkFeature_assign : checkFeature (assignCfeature (lastTagFeature offset) fp) "直前タグ受" =
    some (lastTagFeature offset) := by
  induction fp with
  | nil => exact checkFeature_cons_of compFeature_lastTag
  | cons cp fp ih =>
      rw [assignCfeature, featureName_lastTag]
      split_ifs with hcp
      · exact checkFeature_cons_of compFeature_lastTag
      · rw [checkFeature_cons_of_not hcp]
        exact ih

/-- Features of other names are as they were. -/
structure KeepsOther (fp fp' : List String) : Prop where
  other : ∀ name : String, name.toList ≠ [] → name.toList.head? ≠ "直前タグ受".toList.head? →
    checkFeature fp' name = checkFeature fp name

theorem KeepsOther.refl : KeepsOther fp fp := ⟨fun _ _ _ => rfl⟩

theorem KeepsOther.trans {fp' fp'' : List String} (h : KeepsOther fp fp')
    (h' : KeepsOther fp' fp'') : KeepsOther fp fp'' :=
  ⟨fun name hne hhead => (h'.other name hne hhead).trans (h.other name hne hhead)⟩

theorem keepsOther_assign : KeepsOther fp (assignCfeature (lastTagFeature offset) fp) := by
  refine ⟨fun name hne hhead => ?_⟩
  have hnew : ¬ compFeature (lastTagFeature offset) name = true := fun h =>
    hhead ((compFeature_head h hne).symm.trans lastTag_head)
  induction fp with
  | nil => exact checkFeature_cons_of_not hnew
  | cons cp fp ih =>
      rw [assignCfeature, featureName_lastTag]
      split_ifs with hcp
      · have hold : ¬ compFeature cp name = true := fun h =>
          hhead ((compFeature_head h hne).symm.trans (compFeature_head hcp (by decide)))
        rw [checkFeature_cons_of_not hnew, checkFeature_cons_of_not hold]
      · unfold checkFeature at ih ⊢
        rw [List.find?_cons, List.find?_cons, ih]

theorem KeepsOther.hasFeature_eq {fp' : List String} (h : KeepsOther fp fp') (hne : name.toList ≠ [])
    (hhead : name.toList.head? ≠ "直前タグ受".toList.head?) :
    hasFeature fp' name = hasFeature fp name := by
  unfold hasFeature
  rw [h.other name hne hhead]

end Features

/-! ## The run -/

namespace SentenceData

def assignBnst (h : Nat) (fname : String) (sp : SentenceData) : SentenceData :=
  { sp with
    bnst := Function.update sp.bnst h
      { sp.bnst h with f := assignCfeature fname (sp.bnst h).f } }

def assignTag (t : Nat) (fname : String) (sp : SentenceData) : SentenceData :=
  { sp with
    tag := Function.update sp.tag t
      { sp.tag t with f := assignCfeature fname (sp.tag t).f } }

/-- The last tag of a bunsetsu. -/
def lastTag (sp : SentenceData) (b : Nat) : Nat := (sp.bnst b).tagPtr + (sp.bnst b).tagNum - 1

end SentenceData

section Run

variable (sp : SentenceData) (dp : Dpnd) (examples : Nat → Nat → Bool)

/-- The former tag Ｂ of bunsetsu `h` that takes tag `t`, if Ｃ does not. -/
def formerTag (t b h : Nat) (offset : Int) : Option Nat :=
  let last := ((sp.bnst h).tagNum : Int) - 1 + offset
  if !hasFeature (sp.bnst b).f "タグ単位受無視" && hasFeature (sp.tag t).f "係:ノ格" &&
      h = b + 1 && !examples t (((sp.bnst h).tagPtr : Int) + last).toNat then
    (List.range last.toNat).find? fun j => examples t ((sp.bnst h).tagPtr + j)
  else none

/-- The head and the type of tag `t`. -/
def linkTag (t : Nat) : SentenceData :=
  { sp with
    tag := Function.update sp.tag t
      { sp.tag t with
        dpndHead := tagDpndHead sp dp examples t
        dpndType := tagDpndType sp dp t } }

/-- One turn of `dpnd_info_to_tag_raw`. -/
def tagRawTurn (t : Nat) (sp : SentenceData) : SentenceData :=
  let b := sp.bnstOf t
  let h := (dp.head b).toNat
  if t + 1 = sp.tagNum ∨ (sp.tag t).inum ≠ 0 then linkTag sp dp examples t
  else match formerTag sp examples t b h (tagUke sp b h) with
    | some j =>
        let fname := lastTagFeature (j - ((sp.bnst h).tagNum - 1))
        ((linkTag sp dp examples t).assignBnst h fname).assignTag ((sp.bnst h).tagPtr + j) fname
    | none => linkTag sp dp examples t

/-- `dpnd_info_to_tag_raw` with the features it assigns. -/
def tagRawRun : SentenceData := Loop.upTo 0 sp.tagNum (tagRawTurn dp examples) sp

/-- ＡのＢＣ: the last tag Ａ of `b` goes to a former tag Ｂ of its head. -/
def TakesFormer (b : Nat) : Prop :=
  let h := (dp.head b).toNat
  let last := ((sp.bnst h).tagNum : Int) - 1 + tagUke sp b h
  hasFeature (sp.bnst b).f "タグ単位受無視" = false ∧
    hasFeature (sp.tag (sp.lastTag b)).f "係:ノ格" = true ∧ h = b + 1 ∧
    examples (sp.lastTag b) (((sp.bnst h).tagPtr : Int) + last).toNat = false ∧
    ∃ j < last.toNat, examples (sp.lastTag b) ((sp.bnst h).tagPtr + j) = true

/-- Tag `t` goes to the former tag `j` of bunsetsu `h`. -/
def Marks (t h j : Nat) : Prop :=
  t + 1 < sp.tagNum ∧ (sp.tag t).inum = 0 ∧ (dp.head (sp.bnstOf t)).toNat = h ∧
    formerTag sp examples t (sp.bnstOf t) h (tagUke sp (sp.bnstOf t) h) = some j

end Run

/-! ## The tags of a divided sentence -/

section Division

variable {sp : SentenceData} {t t' b : Nat}

/-- Behind the last tag of a bunsetsu the next one starts. -/
theorem bnstOf_lt_of_inum (hdiv : sp.Divided) (hinum : (sp.tag t).inum = 0) (htt : t < t')
    (ht' : t' < sp.tagNum) : sp.bnstOf t < sp.bnstOf t' := by
  have hnext := hdiv.tag_inum t (by omega)
  rcases hdiv.tag.step t (by omega) with hneg | hnum
  · rw [if_pos hneg] at hnext
    omega
  · have hsucc : sp.bnstOf (t + 1) = sp.bnstOf t + 1 := Segments.number_succ_of_eq hnum
    have hmono : sp.bnstOf (t + 1) ≤ sp.bnstOf t' := hdiv.tag.number_mono htt ht'
    omega

theorem bnstOf_lastTag (hdiv : sp.Divided) (hb : b < sp.bnstNum) : sp.bnstOf (sp.lastTag b) = b := by
  obtain ⟨hpos, hfit⟩ := hdiv.tag_num b hb
  unfold SentenceData.lastTag
  exact (hdiv.tag_ptr b hb _ (by omega)).mpr (by omega)

theorem lastTag_lt (hdiv : sp.Divided) (hb : b < sp.bnstNum) : sp.lastTag b < sp.tagNum := by
  obtain ⟨hpos, hfit⟩ := hdiv.tag_num b hb
  unfold SentenceData.lastTag
  omega

theorem eq_lastTag (hdiv : sp.Divided) (ht : t < sp.tagNum) (hinum : (sp.tag t).inum = 0) :
    t = sp.lastTag (sp.bnstOf t) := by
  have hb : sp.bnstOf t < sp.bnstNum := hdiv.tag.number_lt_count ht
  obtain ⟨hlo, hhi⟩ := (hdiv.tag_ptr _ hb t ht).mp rfl
  by_contra hne
  have hlt : t < sp.lastTag (sp.bnstOf t) := by
    unfold SentenceData.lastTag at hne ⊢
    omega
  have := bnstOf_lt_of_inum hdiv hinum hlt (lastTag_lt hdiv hb)
  rw [bnstOf_lastTag hdiv hb] at this
  omega

/-- The last tag of a bunsetsu but the last one is not the last tag. -/
theorem lastTag_succ_lt (hdiv : sp.Divided) (hb : b + 1 < sp.bnstNum) :
    sp.lastTag b + 1 < sp.tagNum := by
  have hlt := lastTag_lt hdiv (Nat.lt_of_succ_lt hb)
  have hlast : sp.bnstOf (sp.tagNum - 1) + 1 = sp.bnstNum := hdiv.tag.last
  have hown := bnstOf_lastTag hdiv (Nat.lt_of_succ_lt hb)
  by_contra hge
  rw [show sp.tagNum - 1 = sp.lastTag b by omega] at hlast
  omega

theorem inum_lastTag (hdiv : sp.Divided) (hb : b + 1 < sp.bnstNum) :
    (sp.tag (sp.lastTag b)).inum = 0 := by
  have hb' : b < sp.bnstNum := Nat.lt_of_succ_lt hb
  have hlt := lastTag_succ_lt hdiv hb
  have hown := bnstOf_lastTag hdiv hb'
  rw [hdiv.tag_inum _ hlt]
  refine if_neg fun hneg => ?_
  have hnext : sp.bnstOf (sp.lastTag b + 1) = sp.bnstOf (sp.lastTag b) :=
    Segments.number_succ_of_neg hneg
  have := (hdiv.tag_ptr b hb' _ hlt).mp (hnext.trans hown)
  unfold SentenceData.lastTag at this
  omega

/-- A tag that is not the last one of its bunsetsu. -/
theorem lt_lastTag (hdiv : sp.Divided) (ht : t + 1 < sp.tagNum) (hinum : (sp.tag t).inum ≠ 0) :
    t < sp.lastTag (sp.bnstOf t) := by
  have hnext := hdiv.tag_inum t ht
  rcases hdiv.tag.step t ht with hneg | hnum
  · have hb : sp.bnstOf t < sp.bnstNum := hdiv.tag.number_lt_count (Nat.lt_of_succ_lt ht)
    have hsame : sp.bnstOf (t + 1) = sp.bnstOf t := Segments.number_succ_of_neg hneg
    have hin := (hdiv.tag_ptr _ hb (t + 1) ht).mp hsame
    unfold SentenceData.lastTag
    omega
  · rw [if_neg (by omega)] at hnext
    exact absurd hnext hinum

end Division

/-! ## What the turns preserve -/

section Turns

variable {sp s : SentenceData} {dp : Dpnd} {examples : Nat → Nat → Bool} {t t' b h i j j' : Nat}
  {offset : Int} {fname : String}

theorem lastTagUke_eq : lastTagUke sp examples t b h offset =
    match formerTag sp examples t b h offset with
    | some j => (j : Int) - ((sp.bnst h).tagNum - 1)
    | none => offset := by
  unfold lastTagUke formerTag
  dsimp only
  split <;> rfl

theorem formerTag_next (hj : formerTag sp examples t b h offset = some j) : h = b + 1 := by
  unfold formerTag at hj
  dsimp only at hj
  split_ifs at hj with hcond
  simp only [Bool.and_eq_true, decide_eq_true_eq] at hcond
  exact hcond.1.2

/-- A former tag lies before the one that タグ単位受 gives. -/
theorem formerTag_lt (hj : formerTag sp examples t b h offset = some j) :
    (j : Int) < (sp.bnst h).tagNum - 1 + offset := by
  unfold formerTag at hj
  dsimp only at hj
  split_ifs at hj with hcond
  have := List.mem_range.mp (List.mem_of_find?_eq_some hj)
  omega

theorem takesFormer_iff : TakesFormer sp dp examples b ↔
    ∃ j, formerTag sp examples (sp.lastTag b) b (dp.head b).toNat
      (tagUke sp b (dp.head b).toNat) = some j := by
  unfold TakesFormer formerTag
  dsimp only
  rw [← Option.isSome_iff_exists]
  split_ifs with hcond
  · simp only [Bool.and_eq_true, Bool.not_eq_true', decide_eq_true_eq] at hcond
    obtain ⟨⟨⟨hignore, hno⟩, hnext⟩, hlast⟩ := hcond
    rw [List.find?_isSome]
    constructor
    · rintro ⟨-, -, -, -, j, hj, hex⟩
      exact ⟨j, List.mem_range.mpr hj, hex⟩
    · rintro ⟨j, hj, hex⟩
      exact ⟨hignore, hno, hnext, hlast, j, List.mem_range.mp hj, hex⟩
  · simp only [Bool.and_eq_true, Bool.not_eq_true', decide_eq_true_eq, not_and] at hcond
    simp only [Option.isSome_none, Bool.false_eq_true, iff_false]
    rintro ⟨hignore, hno, hnext, hlast, -⟩
    exact hcond ⟨⟨hignore, hno⟩, hnext⟩ hlast

/-- `s` differs from `sp` in the heads and in 直前タグ受 only. -/
structure SameReads (sp s : SentenceData) : Prop where
  tagNum_eq : s.tagNum = sp.tagNum
  bnstNum_eq : s.bnstNum = sp.bnstNum
  bnum_eq : ∀ t, (s.tag t).bnum = (sp.tag t).bnum
  inum_eq : ∀ t, (s.tag t).inum = (sp.tag t).inum
  ptr_eq : ∀ b, (s.bnst b).tagPtr = (sp.bnst b).tagPtr
  num_eq : ∀ b, (s.bnst b).tagNum = (sp.bnst b).tagNum
  tag_f : ∀ t, KeepsOther (sp.tag t).f (s.tag t).f
  bnst_f : ∀ b, KeepsOther (sp.bnst b).f (s.bnst b).f

namespace SameReads

theorem refl : SameReads sp sp :=
  ⟨rfl, rfl, fun _ => rfl, fun _ => rfl, fun _ => rfl, fun _ => rfl, fun _ => .refl, fun _ => .refl⟩

theorem linkTag (hs : SameReads sp s) : SameReads sp (linkTag s dp examples t) := by
  have htag : ∀ k, ((Knp.linkTag s dp examples t).tag k).bnum = (s.tag k).bnum ∧
      ((Knp.linkTag s dp examples t).tag k).inum = (s.tag k).inum ∧
      ((Knp.linkTag s dp examples t).tag k).f = (s.tag k).f := by
    intro k
    simp only [Knp.linkTag, Function.update_apply]
    split_ifs with hk
    · rw [hk]
      exact ⟨rfl, rfl, rfl⟩
    · exact ⟨rfl, rfl, rfl⟩
  refine ⟨hs.tagNum_eq, hs.bnstNum_eq, fun k => ?_, fun k => ?_, hs.ptr_eq, hs.num_eq, fun k => ?_,
    hs.bnst_f⟩
  · rw [(htag k).1, hs.bnum_eq]
  · rw [(htag k).2.1, hs.inum_eq]
  · rw [(htag k).2.2]
    exact hs.tag_f k

theorem assignBnst (hs : SameReads sp s) :
    SameReads sp (s.assignBnst h (lastTagFeature offset)) := by
  have hbnst : ∀ b, ((s.assignBnst h (lastTagFeature offset)).bnst b).tagPtr = (s.bnst b).tagPtr ∧
      ((s.assignBnst h (lastTagFeature offset)).bnst b).tagNum = (s.bnst b).tagNum ∧
      KeepsOther (s.bnst b).f ((s.assignBnst h (lastTagFeature offset)).bnst b).f := by
    intro b
    simp only [SentenceData.assignBnst, Function.update_apply]
    split_ifs with hb
    · rw [hb]
      exact ⟨rfl, rfl, keepsOther_assign⟩
    · exact ⟨rfl, rfl, .refl⟩
  refine ⟨hs.tagNum_eq, hs.bnstNum_eq, hs.bnum_eq, hs.inum_eq, fun b => ?_, fun b => ?_, hs.tag_f,
    fun b => (hs.bnst_f b).trans (hbnst b).2.2⟩
  · rw [(hbnst b).1, hs.ptr_eq]
  · rw [(hbnst b).2.1, hs.num_eq]

theorem assignTag (hs : SameReads sp s) :
    SameReads sp (s.assignTag j (lastTagFeature offset)) := by
  have htag : ∀ k, ((s.assignTag j (lastTagFeature offset)).tag k).bnum = (s.tag k).bnum ∧
      ((s.assignTag j (lastTagFeature offset)).tag k).inum = (s.tag k).inum ∧
      KeepsOther (s.tag k).f ((s.assignTag j (lastTagFeature offset)).tag k).f := by
    intro k
    simp only [SentenceData.assignTag, Function.update_apply]
    split_ifs with hk
    · rw [hk]
      exact ⟨rfl, rfl, keepsOther_assign⟩
    · exact ⟨rfl, rfl, .refl⟩
  refine ⟨hs.tagNum_eq, hs.bnstNum_eq, fun k => ?_, fun k => ?_, hs.ptr_eq, hs.num_eq,
    fun k => (hs.tag_f k).trans (htag k).2.2, hs.bnst_f⟩
  · rw [(htag k).1, hs.bnum_eq]
  · rw [(htag k).2.1, hs.inum_eq]

theorem bnstOf_eq (hs : SameReads sp s) : s.bnstOf = sp.bnstOf := by
  unfold SentenceData.bnstOf
  rw [funext hs.bnum_eq]

theorem ignores_eq (hs : SameReads sp s) :
    hasFeature (s.bnst b).f "タグ単位受無視" = hasFeature (sp.bnst b).f "タグ単位受無視" :=
  (hs.bnst_f b).hasFeature_eq (by decide) (by decide)

theorem tagUke_eq (hs : SameReads sp s) : tagUke s b h = tagUke sp b h := by
  unfold tagUke
  rw [hs.ignores_eq, hs.num_eq, (hs.bnst_f h).other "タグ単位受" (by decide) (by decide)]

theorem formerTag_eq (hs : SameReads sp s) :
    formerTag s examples t b h offset = formerTag sp examples t b h offset := by
  have hno : hasFeature (s.tag t).f "係:ノ格" = hasFeature (sp.tag t).f "係:ノ格" :=
    (hs.tag_f t).hasFeature_eq (by decide) (by decide)
  unfold formerTag
  rw [hs.ignores_eq, hs.num_eq, hs.ptr_eq,
    hno]

theorem tagDpndHead_eq (hs : SameReads sp s) :
    tagDpndHead s dp examples t = tagDpndHead sp dp examples t := by
  unfold tagDpndHead
  dsimp only
  rw [hs.bnstOf_eq, hs.tagNum_eq, hs.inum_eq, hs.ptr_eq, hs.num_eq, lastTagUke_eq, lastTagUke_eq,
    hs.formerTag_eq, hs.tagUke_eq, hs.num_eq]

end SameReads

/-- A bunsetsu is marked by the last tag of its left neighbour. -/
theorem Marks.unique (hdiv : sp.Divided) (hm : Marks sp dp examples t h j)
    (hm' : Marks sp dp examples t' h j') : t = t' ∧ j = j' := by
  obtain ⟨ht, hinum, -, hj⟩ := hm
  obtain ⟨ht', hinum', -, hj'⟩ := hm'
  have hnext := formerTag_next hj
  have hnext' := formerTag_next hj'
  have heq : t = t' := by
    rw [eq_lastTag hdiv (Nat.lt_of_succ_lt ht) hinum, eq_lastTag hdiv (Nat.lt_of_succ_lt ht') hinum',
      show sp.bnstOf t = sp.bnstOf t' by omega]
  subst heq
  exact ⟨rfl, Option.some.inj (hj.symm.trans hj')⟩

/-- The turns of the tags below `i`. -/
structure TagRawInv (sp : SentenceData) (dp : Dpnd) (examples : Nat → Nat → Bool) (i : Nat)
    (s : SentenceData) : Prop where
  same : SameReads sp s
  head : ∀ t < i, (s.tag t).dpndHead = tagDpndHead sp dp examples t
  unmarked : ∀ h, (∀ t < i, ∀ j, ¬ Marks sp dp examples t h j) → (s.bnst h).f = (sp.bnst h).f
  marked : ∀ t < i, ∀ h j, Marks sp dp examples t h j → (s.bnst h).f =
    assignCfeature (lastTagFeature (j - ((sp.bnst h).tagNum - 1))) (sp.bnst h).f

theorem linkTag_head (hs : SameReads sp s) (hhead : ∀ k < t, (s.tag k).dpndHead =
    tagDpndHead sp dp examples k) {k : Nat} (hk : k < t + 1) :
    ((linkTag s dp examples t).tag k).dpndHead = tagDpndHead sp dp examples k := by
  unfold linkTag
  dsimp only
  by_cases hkt : k = t
  · subst hkt
    rw [Function.update_self]
    exact hs.tagDpndHead_eq
  · rw [Function.update_of_ne hkt]
    exact hhead k (by omega)

theorem assignTag_head {k : Nat} :
    ((s.assignTag t fname).tag k).dpndHead = (s.tag k).dpndHead := by
  simp only [SentenceData.assignTag, Function.update_apply]
  split_ifs with hk
  · rw [hk]
  · rfl

theorem TagRawInv.step (hdiv : sp.Divided) (ht : t < sp.tagNum)
    (hinv : TagRawInv sp dp examples t s) :
    TagRawInv sp dp examples (t + 1) (tagRawTurn dp examples t s) := by
  have hs := hinv.same
  have hhead : ∀ k < t + 1, ((linkTag s dp examples t).tag k).dpndHead =
      tagDpndHead sp dp examples k := fun k hk => linkTag_head hs hinv.head hk
  -- a turn that marks nothing
  have hplain : (∀ h j, ¬ Marks sp dp examples t h j) →
      TagRawInv sp dp examples (t + 1) (linkTag s dp examples t) := by
    intro hnone
    refine ⟨hs.linkTag, hhead, fun h hh => hinv.unmarked h fun k hk => hh k (by omega),
      fun k hk h j hm => ?_⟩
    rcases Nat.lt_succ_iff_lt_or_eq.mp hk with hlt | rfl
    · exact hinv.marked k hlt h j hm
    · exact absurd hm (hnone h j)
  unfold tagRawTurn
  dsimp only
  rw [hs.bnstOf_eq, hs.tagNum_eq, hs.inum_eq, hs.num_eq, hs.ptr_eq, hs.tagUke_eq, hs.formerTag_eq]
  split_ifs with hlast
  · refine hplain fun h j hm => ?_
    obtain ⟨hlt, hinum, -⟩ := hm
    omega
  · cases hformer : formerTag sp examples t (sp.bnstOf t) (dp.head (sp.bnstOf t)).toNat
      (tagUke sp (sp.bnstOf t) (dp.head (sp.bnstOf t)).toNat) with
    | none =>
        refine hplain fun h j hm => ?_
        obtain ⟨-, -, rfl, hj⟩ := hm
        rw [hformer] at hj
        cases hj
    | some j =>
        set h₀ := (dp.head (sp.bnstOf t)).toNat with hh₀
        have hmarks : Marks sp dp examples t h₀ j := ⟨by omega, by omega, rfl, hformer⟩
        have hold : (s.bnst h₀).f = (sp.bnst h₀).f := hinv.unmarked h₀ fun k hk j' hm => by
          have := (hmarks.unique hdiv hm).1
          omega
        have hbnst : ∀ h, h ≠ h₀ → ∀ fname j', ((((linkTag s dp examples t).assignBnst h₀
            fname).assignTag j' fname).bnst h).f = (s.bnst h).f := by
          intro h hne fname j'
          unfold SentenceData.assignTag SentenceData.assignBnst linkTag
          dsimp only
          rw [Function.update_of_ne hne]
        refine ⟨hs.linkTag.assignBnst.assignTag, fun k hk => ?_, fun h hh => ?_,
          fun k hk h j' hm => ?_⟩
        · rw [assignTag_head]
          exact hhead k hk
        · rw [hbnst h fun heq => hh t (Nat.lt_succ_self t) j (heq ▸ hmarks)]
          exact hinv.unmarked h fun k hk => hh k (by omega)
        · by_cases heq : h = h₀
          · subst heq
            obtain ⟨rfl, rfl⟩ := hmarks.unique hdiv hm
            unfold SentenceData.assignTag SentenceData.assignBnst linkTag
            dsimp only
            rw [Function.update_self, hold]
          · rw [hbnst h heq]
            rcases Nat.lt_succ_iff_lt_or_eq.mp hk with hlt | rfl
            · exact hinv.marked k hlt h j' hm
            · exact absurd hm.2.2.1.symm heq

variable (dp examples) in
theorem tagRawRun_inv (hdiv : sp.Divided) :
    TagRawInv sp dp examples sp.tagNum (tagRawRun sp dp examples) :=
  Loop.upTo_induction _ (TagRawInv sp dp examples) (Nat.zero_le _)
    (fun _ _ _ ht hinv => hinv.step hdiv ht)
    ⟨.refl, fun _ ht => absurd ht (Nat.not_lt_zero _), fun _ _ => rfl,
      fun _ ht => absurd ht (Nat.not_lt_zero _)⟩

/-- The features make no difference to the heads. -/
theorem tagRawRun_head (hdiv : sp.Divided) (ht : t < sp.tagNum) :
    ((tagRawRun sp dp examples).tag t).dpndHead =
      ((dpndInfoToTagRaw sp dp examples).tag t).dpndHead := by
  rw [(tagRawRun_inv dp examples hdiv).head t ht]
  simp only [dpndInfoToTagRaw]
  rw [if_pos ht]

end Turns

end Knp
