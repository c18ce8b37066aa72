import Knp.Loop
import Knp.Segments

/-!
# Heads of tags and of morphemes (`dpnd_analysis.c`, `tree_conv.c`)

The heads of the bunsetsu are carried over to the tags of the bunsetsu, and from
there to the morphemes. `dpnd_info_to_tag_raw` links the last tag of a bunsetsu
to a tag of its head and the other tags to the next one. `dpnd_info_to_mrph`
goes through the morphemes once: inside a tag it links to the next morpheme, or
back to the content morpheme; one morpheme leaves the tag for a morpheme of the
head tag.

Pointers are indices of the arrays of the sentence. A feature is its string.
-/

namespace Knp

/-! ## Features -/

/-- Equal to the pattern, or the pattern and a colon in front. -/
def compFeature (data pattern : String) : Bool :=
  data = pattern || (pattern.toList ++ [':']).isPrefixOf data.toList

def checkFeature (fp : List String) (fname : String) : Option String :=
  fp.find? fun cp => compFeature cp fname

/-- `check_feature` as a condition. -/
def hasFeature (fp : List String) (fname : String) : Bool := (checkFeature fp fname).isSome

/-- The digits in front, in base ten. -/
def digits : List Char → Nat → Nat
  | c :: cs, n => if c.isDigit then digits cs (10 * n + (c.toNat - 48)) else n
  | [], n => n

def atoi (s : String) : Int :=
  match s.toList.dropWhile Char.isWhitespace with
  | '-' :: cs => -(digits cs 0 : Nat)
  | '+' :: cs => (digits cs 0 : Nat)
  | cs => (digits cs 0 : Nat)

/-! ## The sentence -/

/-- `hinshi` and `bunrui` are the names in `Class`. `tnum` is the number of the
tag that starts here, or -1; `inum` counts from the last morpheme of the tag. -/
structure MorphemeData where
  hinshi : String
  bunrui : String
  f : List String
  tnum : Int
  inum : Nat

/-- `bnum` is the number of the bunsetsu that starts here, or -1; `inum` counts
from the last tag of the bunsetsu. -/
structure TagUnitData where
  mrphPtr : Nat
  mrphNum : Nat
  headPtr : Nat
  f : List String
  bnum : Int
  inum : Nat
  dpndHead : Int
  dpndType : Char

structure BunsetsuData where
  tagPtr : Nat
  tagNum : Nat
  f : List String

structure SentenceData where
  mrphNum : Nat
  mrph : Nat → MorphemeData
  tagNum : Nat
  tag : Nat → TagUnitData
  bnstNum : Nat
  bnst : Nat → BunsetsuData

/-- `DPND` -/
structure Dpnd where
  head : Nat → Int
  type : Nat → Char

namespace SentenceData

/-- The tag of a morpheme (`last_t`). -/
def tagOf (sp : SentenceData) : Nat → Nat := Segments.number fun i => (sp.mrph i).tnum

/-- The bunsetsu of a tag (`last_b`). -/
def bnstOf (sp : SentenceData) : Nat → Nat := Segments.number fun t => (sp.tag t).bnum

/-- What `make_tag_units` leaves: bunsetsu, tags and morphemes are intervals of
the next level, counted from the front and from the back. -/
structure Divided (sp : SentenceData) : Prop where
  mrph : Segments.Numbered (fun i => (sp.mrph i).tnum) sp.mrphNum sp.tagNum
  mrph_inum_last : (sp.mrph (sp.mrphNum - 1)).inum = 0
  mrph_inum : ∀ i, i + 1 < sp.mrphNum →
    (sp.mrph i).inum = if (sp.mrph (i + 1)).tnum = -1 then (sp.mrph (i + 1)).inum + 1 else 0
  mrph_num : ∀ t < sp.tagNum, (sp.tag t).mrphPtr + (sp.tag t).mrphNum ≤ sp.mrphNum
  mrph_ptr : ∀ t < sp.tagNum, ∀ i < sp.mrphNum,
    sp.tagOf i = t ↔ (sp.tag t).mrphPtr ≤ i ∧ i < (sp.tag t).mrphPtr + (sp.tag t).mrphNum
  head_ptr : ∀ t < sp.tagNum, (sp.tag t).mrphPtr ≤ (sp.tag t).headPtr ∧
    (sp.tag t).headPtr < (sp.tag t).mrphPtr + (sp.tag t).mrphNum
  tag : Segments.Numbered (fun t => (sp.tag t).bnum) sp.tagNum sp.bnstNum
  tag_inum : ∀ t, t + 1 < sp.tagNum →
    (sp.tag t).inum = if (sp.tag (t + 1)).bnum = -1 then (sp.tag (t + 1)).inum + 1 else 0
  tag_num : ∀ b < sp.bnstNum, 0 < (sp.bnst b).tagNum ∧
    (sp.bnst b).tagPtr + (sp.bnst b).tagNum ≤ sp.tagNum
  tag_ptr : ∀ b < sp.bnstNum, ∀ t < sp.tagNum,
    sp.bnstOf t = b ↔ (sp.bnst b).tagPtr ≤ t ∧ t < (sp.bnst b).tagPtr + (sp.bnst b).tagNum

instance (sp : SentenceData) : Decidable sp.Divided :=
  decidable_of_iff (Segments.Numbered (fun i => (sp.mrph i).tnum) sp.mrphNum sp.tagNum ∧
      (sp.mrph (sp.mrphNum - 1)).inum = 0 ∧
      (∀ i < sp.mrphNum - 1, (sp.mrph i).inum =
        if (sp.mrph (i + 1)).tnum = -1 then (sp.mrph (i + 1)).inum + 1 else 0) ∧
      (∀ t < sp.tagNum, (sp.tag t).mrphPtr + (sp.tag t).mrphNum ≤ sp.mrphNum) ∧
      (∀ t < sp.tagNum, ∀ i < sp.mrphNum,
        sp.tagOf i = t ↔ (sp.tag t).mrphPtr ≤ i ∧ i < (sp.tag t).mrphPtr + (sp.tag t).mrphNum) ∧
      (∀ t < sp.tagNum, (sp.tag t).mrphPtr ≤ (sp.tag t).headPtr ∧
        (sp.tag t).headPtr < (sp.tag t).mrphPtr + (sp.tag t).mrphNum) ∧
      Segments.Numbered (fun t => (sp.tag t).bnum) sp.tagNum sp.bnstNum ∧
      (∀ t < sp.tagNum - 1, (sp.tag t).inum =
        if (sp.tag (t + 1)).bnum = -1 then (sp.tag (t + 1)).inum + 1 else 0) ∧
      (∀ b < sp.bnstNum, 0 < (sp.bnst b).tagNum ∧
        (sp.bnst b).tagPtr + (sp.bnst b).tagNum ≤ sp.tagNum) ∧
      ∀ b < sp.bnstNum, ∀ t < sp.tagNum,
        sp.bnstOf t = b ↔ (sp.bnst b).tagPtr ≤ t ∧ t < (sp.bnst b).tagPtr + (sp.bnst b).tagNum)
    ⟨fun h => ⟨h.1, h.2.1, fun i hi => h.2.2.1 i (by omega), h.2.2.2.1, h.2.2.2.2.1,
      h.2.2.2.2.2.1, h.2.2.2.2.2.2.1, fun t ht => h.2.2.2.2.2.2.2.1 t (by omega),
      h.2.2.2.2.2.2.2.2.1, h.2.2.2.2.2.2.2.2.2⟩,
    fun h => ⟨h.mrph, h.mrph_inum_last, fun i hi => h.mrph_inum i (by omega), h.mrph_num,
      h.mrph_ptr, h.head_ptr, h.tag, fun t ht => h.tag_inum t (by omega), h.tag_num, h.tag_ptr⟩⟩

end SentenceData

/-- The heads of the bunsetsu are to the right, the last bunsetsu has none. -/
structure RightHeaded (dp : Dpnd) (bnstNum : Nat) : Prop where
  right : ∀ b, b + 1 < bnstNum → (b : Int) < dp.head b ∧ dp.head b < bnstNum
  last : dp.head (bnstNum - 1) = -1

/-! ## From bunsetsu to tags -/

section Tags

variable (sp : SentenceData) (dp : Dpnd)
  -- 「ＡのＢ」: the case frame of the second tag has the first one as an example
  (examples : Nat → Nat → Bool)

/-- `offset` by タグ単位受: the tag of bunsetsu `h` counted from its last one. -/
def tagUke (b h : Nat) : Int :=
  if hasFeature (sp.bnst b).f "タグ単位受無視" then 0
  else match checkFeature (sp.bnst h).f "タグ単位受" with
    | some cp =>
        let offset := atoi (cp.drop "タグ単位受:".length).toString
        if 0 < offset ∨ ((sp.bnst h).tagNum : Int) ≤ -1 * offset then 0 else offset
    | none => 0

/-- `offset` by 直前タグ受: in ＡのＢＣ the first Ｂ that takes Ａ, if Ｃ does not. -/
def lastTagUke (t b h : Nat) (offset : Int) : Int :=
  let last := ((sp.bnst h).tagNum : Int) - 1 + offset
  if !hasFeature (sp.bnst b).f "タグ単位受無視" && hasFeature (sp.tag t).f "係:ノ格" &&
      h = b + 1 && !examples t (((sp.bnst h).tagPtr : Int) + last).toNat then
    match (List.range last.toNat).find? fun j => examples t ((sp.bnst h).tagPtr + j) with
    | some j => (j : Int) - ((sp.bnst h).tagNum - 1)
    | none => offset
  else offset

/-- The head of tag `t`. -/
def tagDpndHead (t : Nat) : Int :=
  let b := sp.bnstOf t
  if t + 1 = sp.tagNum then -1
  else if (sp.tag t).inum ≠ 0 then t + 1
  else if dp.head b = -1 then -1
  else
    let h := (dp.head b).toNat
    (sp.bnst h).tagPtr + (sp.bnst h).tagNum - 1 + lastTagUke sp examples t b h (tagUke sp b h)

/-- The type of the link of tag `t`; relaxed links (`d`, `R`) become `D`. -/
def tagDpndType (t : Nat) : Char :=
  let type := dp.type (sp.bnstOf t)
  if t + 1 = sp.tagNum ∨ (sp.tag t).inum ≠ 0 ∨ type = 'd' ∨ type = 'R' then 'D' else type

def dpndInfoToTagRaw : SentenceData :=
  { sp with
    tag := fun t =>
      if t < sp.tagNum then
        { sp.tag t with
          dpndHead := tagDpndHead sp dp examples t
          dpndType := tagDpndType sp dp t }
      else sp.tag t }

@[simp] theorem dpndInfoToTagRaw_mrphNum :
    (dpndInfoToTagRaw sp dp examples).mrphNum = sp.mrphNum := rfl

@[simp] theorem dpndInfoToTagRaw_tagNum : (dpndInfoToTagRaw sp dp examples).tagNum = sp.tagNum := rfl

@[simp] theorem dpndInfoToTagRaw_bnstNum :
    (dpndInfoToTagRaw sp dp examples).bnstNum = sp.bnstNum := rfl

@[simp] theorem dpndInfoToTagRaw_bnst : (dpndInfoToTagRaw sp dp examples).bnst = sp.bnst := rfl

@[simp] theorem dpndInfoToTagRaw_tagOf : (dpndInfoToTagRaw sp dp examples).tagOf = sp.tagOf := rfl

@[simp] theorem dpndInfoToTagRaw_bnum (t : Nat) :
    ((dpndInfoToTagRaw sp dp examples).tag t).bnum = (sp.tag t).bnum := by
  simp only [dpndInfoToTagRaw]
  split <;> rfl

@[simp] theorem dpndInfoToTagRaw_inum (t : Nat) :
    ((dpndInfoToTagRaw sp dp examples).tag t).inum = (sp.tag t).inum := by
  simp only [dpndInfoToTagRaw]
  split <;> rfl

@[simp] theorem dpndInfoToTagRaw_mrphPtr (t : Nat) :
    ((dpndInfoToTagRaw sp dp examples).tag t).mrphPtr = (sp.tag t).mrphPtr := by
  simp only [dpndInfoToTagRaw]
  split <;> rfl

@[simp] theorem dpndInfoToTagRaw_tag_mrphNum (t : Nat) :
    ((dpndInfoToTagRaw sp dp examples).tag t).mrphNum = (sp.tag t).mrphNum := by
  simp only [dpndInfoToTagRaw]
  split <;> rfl

@[simp] theorem dpndInfoToTagRaw_headPtr (t : Nat) :
    ((dpndInfoToTagRaw sp dp examples).tag t).headPtr = (sp.tag t).headPtr := by
  simp only [dpndInfoToTagRaw]
  split <;> rfl

/-- The links do not touch the division. -/
theorem dpndInfoToTagRaw_divided (h : sp.Divided) : (dpndInfoToTagRaw sp dp examples).Divided := by
  have hbnst : (dpndInfoToTagRaw sp dp examples).bnstOf = sp.bnstOf := by
    simp only [SentenceData.bnstOf, dpndInfoToTagRaw_bnum]
  constructor
  case tag => simpa using h.tag
  case tag_ptr =>
    rw [hbnst]
    exact h.tag_ptr
  case tag_inum => simpa using h.tag_inum
  case mrph_num => simpa using h.mrph_num
  case mrph_ptr => simpa using h.mrph_ptr
  case head_ptr => simpa using h.head_ptr
  exacts [h.mrph, h.mrph_inum_last, h.mrph_inum, h.tag_num]

variable {sp dp}

theorem tagUke_bounds (b : Nat) {h : Nat} (hpos : 0 < (sp.bnst h).tagNum) :
    -((sp.bnst h).tagNum : Int) < tagUke sp b h ∧ tagUke sp b h ≤ 0 := by
  unfold tagUke
  split
  · omega
  · split
    · dsimp only
      split <;> omega
    · omega

theorem lastTagUke_bounds (t b : Nat) {h : Nat} {offset : Int}
    (hlo : -((sp.bnst h).tagNum : Int) < offset) (hhi : offset ≤ 0) :
    -((sp.bnst h).tagNum : Int) < lastTagUke sp examples t b h offset ∧
      lastTagUke sp examples t b h offset ≤ 0 := by
  unfold lastTagUke
  dsimp only
  split
  · split
    · rename_i j hfind
      have := List.mem_range.mp (List.mem_of_find?_eq_some hfind)
      omega
    · exact ⟨hlo, hhi⟩
  · exact ⟨hlo, hhi⟩

/-- The heads of the tags are to the right, the last tag has none. -/
structure TagHeads (sp : SentenceData) : Prop where
  right : ∀ t, t + 1 < sp.tagNum → ∃ g : Nat, (sp.tag t).dpndHead = g ∧ t < g ∧ g < sp.tagNum
  last : (sp.tag (sp.tagNum - 1)).dpndHead = -1

/-- The last tag of a bunsetsu but the last one lies before the last bunsetsu. -/
theorem bnstOf_succ_lt (h : sp.Divided) {t : Nat} (ht : t + 1 < sp.tagNum)
    (hinum : (sp.tag t).inum = 0) : sp.bnstOf t + 1 < sp.bnstNum := by
  have hlt := h.tag.number_lt_count ht
  have hnext := h.tag_inum t ht
  rcases h.tag.step t ht with hneg | hnum
  · rw [if_pos hneg] at hnext
    omega
  · rwa [Segments.number_succ_of_eq hnum] at hlt

/-- Right-headed bunsetsu give right-headed tags. -/
theorem dpndInfoToTagRaw_tagHeads (h : sp.Divided) (hdp : RightHeaded dp sp.bnstNum) :
    TagHeads (dpndInfoToTagRaw sp dp examples) where
  right := by
    intro t ht
    have ht' : t + 1 < sp.tagNum := ht
    have hhead : ((dpndInfoToTagRaw sp dp examples).tag t).dpndHead = tagDpndHead sp dp examples t := by
      simp only [dpndInfoToTagRaw]
      rw [if_pos (by omega)]
    rw [hhead, tagDpndHead]
    dsimp only
    rw [if_neg (by omega)]
    by_cases hinum : (sp.tag t).inum = 0
    · obtain ⟨hlt, hle⟩ := hdp.right _ (bnstOf_succ_lt h ht' hinum)
      obtain ⟨b, hb⟩ : ∃ b : Nat, dp.head (sp.bnstOf t) = b := ⟨_, (Int.toNat_of_nonneg (by omega)).symm⟩
      rw [if_neg (by omega), if_neg (by omega), hb, Int.toNat_natCast]
      obtain ⟨hpos, hfit⟩ := h.tag_num b (by omega)
      obtain ⟨hlo, hhi⟩ := tagUke_bounds (sp.bnstOf t) hpos
      obtain ⟨hlo', hhi'⟩ := lastTagUke_bounds examples t (sp.bnstOf t) hlo hhi
      refine ⟨((sp.bnst b).tagPtr + (sp.bnst b).tagNum - 1 +
        lastTagUke sp examples t (sp.bnstOf t) b (tagUke sp (sp.bnstOf t) b) : Int).toNat,
        by omega, ?_, by change _ < sp.tagNum; omega⟩
      -- the tag lies in the head, which is a later bunsetsu
      refine h.tag.lt_of_number_lt (by omega) ?_
      have hmem := (h.tag_ptr b (by omega) ((sp.bnst b).tagPtr + (sp.bnst b).tagNum - 1 +
        lastTagUke sp examples t (sp.bnstOf t) b (tagUke sp (sp.bnstOf t) b) : Int).toNat
        (by omega)).mpr (by omega)
      change sp.bnstOf t < sp.bnstOf _
      omega
    · exact ⟨t + 1, by rw [if_pos hinum]; rfl, by omega, ht⟩
  last := by
    have hpos := h.tag.pos
    change ((dpndInfoToTagRaw sp dp examples).tag (sp.tagNum - 1)).dpndHead = -1
    simp only [dpndInfoToTagRaw]
    rw [if_pos (by omega)]
    exact if_pos (by omega)

end Tags

/-! ## From tags to morphemes -/

section Heads

variable (sp : SentenceData)

/-- Morpheme `m` as the semantic head of tag `t`. -/
def checkSemanticHead (m t : Nat) : Bool :=
  (match checkFeature (sp.tag t).f "用言" with
    | some cp =>
        -- with a 判定詞 that one, else the content word
        if cp = "用言:判" && hasFeature (sp.tag t).f "判定詞" then
          (sp.tag t).headPtr < m && (sp.mrph m).hinshi = "判定詞"
        else m = (sp.tag t).headPtr
    | none => false) ||
  (sp.mrph m).inum = 0

/-- Morpheme `m` is 読点 or 句点. -/
def isPunctuation (m : Nat) : Bool :=
  (sp.mrph m).hinshi = "特殊" && ((sp.mrph m).bunrui = "読点" || (sp.mrph m).bunrui = "句点")

def checkSyntacticHead (m : Nat) : Bool :=
  (sp.mrph m).inum = 1 && isPunctuation sp (m + 1) || (sp.mrph m).inum = 0

/-- The morpheme of tag `gov` that tag `dep` is linked to. -/
def findHeadMrphFromDpndBnst (dep gov : Nat) : Nat :=
  let d := sp.tag dep
  let g := sp.tag gov
  if g.headPtr + 1 < g.mrphPtr + g.mrphNum && hasFeature g.f "用言:判" &&
      (sp.mrph (g.headPtr + 1)).hinshi = "判定詞" &&
      !(hasFeature d.f "連体修飾" || hasFeature d.f "係:隣" || hasFeature d.f "係:文節内" ||
        (d.dpndType = 'P' && hasFeature d.f "並キ:名")) then
    g.headPtr + 1
  else if g.mrphPtr + 1 ≤ g.headPtr && hasFeature d.f "係:文節内" && hasFeature d.f "数量" &&
      !hasFeature d.f "カウンタ" && hasFeature g.f "カウンタ" &&
      hasFeature (sp.mrph (g.headPtr - 1)).f "数字" then
    g.headPtr - 1
  else g.headPtr

end Heads

/-- What is written of a morpheme. -/
structure MrphLink where
  dpndHead : Int
  dpndType : Char
  outHeadFlag : Bool

/-- The variables of `dpnd_info_to_mrph`; -1 for a root not seen yet. -/
structure MrphLoop where
  lastT : Nat
  appearSemanticHead : Bool
  appearSyntacticHead : Bool
  appearOuterWord : Bool
  lastContentM : Int
  lastContentMPtr : Option Nat
  projTable : Nat → Nat
  rootM : Int
  link : Nat → MrphLink

namespace MrphLoop

/-- `last_content_m` and the links are not initialised. -/
def init (lastContentM : Int) (link : Nat → MrphLink) : MrphLoop where
  lastT := 0
  appearSemanticHead := false
  appearSyntacticHead := false
  appearOuterWord := false
  lastContentM := lastContentM
  lastContentMPtr := none
  projTable _ := 0
  rootM := -1
  link := link

def setLink (i : Nat) (l : MrphLink) (s : MrphLoop) : MrphLoop :=
  { s with link := Function.update s.link i l }

/-- A tag starts at morpheme `i`: もっとも近い基本句行を記憶. -/
def enterTag (sp : SentenceData) (i : Nat) (s : MrphLoop) : MrphLoop :=
  if 0 ≤ (sp.mrph i).tnum then
    { s with
      lastT := (sp.mrph i).tnum.toNat
      appearSemanticHead := false
      appearSyntacticHead := false
      appearOuterWord := false
      lastContentMPtr := none }
  else s

/-- Links the semantic head to morpheme `i`, if that is still to be done. -/
def linkSemanticHead (i : Nat) (outHeadFlag : MrphLink → Bool) (s : MrphLoop) : MrphLoop :=
  match s.lastContentMPtr with
  | some c =>
      { s.setLink c ⟨i, 'D', outHeadFlag (s.link c)⟩ with lastContentMPtr := none }
  | none => s

/-- 隣にかける -/
def attachNext (i : Nat) (s : MrphLoop) : MrphLoop :=
  (s.setLink i ⟨i + 1, 'D', false⟩).linkSemanticHead i MrphLink.outHeadFlag

/-- 基本句内の内容語(前側にある)にかける -/
def attachContent (i : Nat) (s : MrphLoop) : MrphLoop :=
  s.setLink i ⟨s.lastContentM, 'D', false⟩

/-- The root, or below the root there is (avoid multiple root). -/
def attachRoot (i : Nat) (type : Char) (s : MrphLoop) : MrphLoop :=
  if 0 ≤ s.rootM then s.setLink i ⟨s.rootM, type, true⟩
  else { s.setLink i ⟨-1, type, true⟩ with rootM := i }

/-- `for (j = i + 1; j < dpnd_head; j++)` -/
def coverProj (i head : Nat) (proj : Nat → Nat) : Nat → Nat := fun j =>
  if i < j ∧ j < head ∧ (proj j = 0 ∨ head < proj j) then head else proj j

/-- A morpheme of the head tag, or what the links so far allow (check projectivity). -/
def attachHead (i head : Nat) (type : Char) (s : MrphLoop) : MrphLoop :=
  if s.projTable i ≠ 0 ∧ s.projTable i < head then s.setLink i ⟨s.projTable i, type, true⟩
  else { s.setLink i ⟨head, type, true⟩ with projTable := coverProj i head s.projTable }

/-- 基本句内最後の形態素(inum == 0) もしくは semantic head -/
def attachOut (sp : SentenceData) (i : Nat) (linkSemantic : Bool) (s : MrphLoop) : MrphLoop :=
  let s := if linkSemantic then s.linkSemanticHead i fun _ => false else s
  let t := sp.tag s.lastT
  if i + 1 = sp.mrphNum then s.attachRoot i 'D'
  else if t.dpndHead = -1 then s.attachRoot i t.dpndType
  else s.attachHead i (findHeadMrphFromDpndBnst sp s.lastT t.dpndHead.toNat) t.dpndType

end MrphLoop

section Turn

variable (sp : SentenceData) (optSemanticHead : Bool)

/-- この形態素がsemantic headかどうかをチェック -/
def thisIsSemanticHead (i : Nat) (s : MrphLoop) : Bool :=
  optSemanticHead && !s.appearSemanticHead && checkSemanticHead sp i s.lastT

/-- この形態素がsyntactic headかどうかをチェック -/
def thisIsSyntacticHead (i : Nat) (s : MrphLoop) : Bool :=
  !s.appearSyntacticHead && checkSyntacticHead sp i

/-- この形態素が句間要素なら、これ以降は常に親にする -/
def thisIsOuterWord (i : Nat) (s : MrphLoop) : Bool :=
  !s.appearOuterWord && (sp.tag s.lastT).dpndHead != -1 && hasFeature (sp.mrph i).f "Ｔ句間要素"

/-- Ｔ句内要素 -/
def isInnerWord (i : Nat) : Bool := hasFeature (sp.mrph i).f "Ｔ句内要素"

/-- The flags with morpheme `i`. The content morpheme is the semantic head, or
the syntactic one without `OptSemanticHead`. -/
def noteHeads (i : Nat) (s : MrphLoop) : MrphLoop :=
  let semantic := thisIsSemanticHead sp optSemanticHead i s
  let syntactic := thisIsSyntacticHead sp i s
  { s with
    appearSemanticHead := s.appearSemanticHead || semantic
    appearSyntacticHead := s.appearSyntacticHead || syntactic
    appearOuterWord := s.appearOuterWord || thisIsOuterWord sp i s
    lastContentM := if semantic || (syntactic && !optSemanticHead) then i else s.lastContentM
    lastContentMPtr := if semantic then some i else s.lastContentMPtr }

/-- The link of morpheme `i`, which is or is not the semantic or the syntactic
head of its tag. -/
def attachMrph (i : Nat) (semantic syntactic : Bool) (s : MrphLoop) : MrphLoop :=
  let behindSyntacticHead := s.appearSyntacticHead && !syntactic
  if !s.appearSyntacticHead && !semantic &&
      (optSemanticHead && (!s.appearSemanticHead || s.appearOuterWord) ||
        !optSemanticHead && !isInnerWord sp i) then
    s.attachNext i
  else if !s.appearOuterWord && !semantic &&
      (optSemanticHead && s.appearSemanticHead && !behindSyntacticHead || isInnerWord sp i ||
        (sp.tag s.lastT).dpndHead == -1 && behindSyntacticHead) then
    s.attachContent i
  else s.attachOut sp i (!semantic && !behindSyntacticHead)

/-- One turn of `dpnd_info_to_mrph`. -/
def mrphTurn (i : Nat) (s : MrphLoop) : MrphLoop :=
  let s := s.enterTag sp i
  attachMrph sp optSemanticHead i (thisIsSemanticHead sp optSemanticHead i s)
    (thisIsSyntacticHead sp i s) (noteHeads sp optSemanticHead i s)

/-- `dpnd_info_to_mrph`, from what its variables and the links hold at first. -/
def dpndInfoToMrph (lastContentM : Int) (link : Nat → MrphLink) : MrphLoop :=
  Loop.upTo 0 sp.mrphNum (mrphTurn sp optSemanticHead) (MrphLoop.init lastContentM link)

end Turn

end Knp
