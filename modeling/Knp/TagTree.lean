import Knp.Attach
import Knp.TagRaw

/-!
# The tree of the tags (`tree_conv.c`)

`bnst_to_tag_tree` turns the tree of the bunsetsu into one of their tags. The
nodes of the coordinations come first; each gets a copy of a tag of its
bunsetsu. Then the tags of every bunsetsu are linked to the next one, and the
last of them to a tag of the parent, which `find_head_tag_from_dpnd_bnst` reads
off the features タグ単位受 and 直前タグ受.

> Without coordination and merged units the run makes one link for each tag with
> a governor, if the child arrays have room.
-/

namespace Knp

open TreeData

/-- `init_tag_tree_property` -/
def initTagTreeProperty (d : TreeData) : TreeData :=
  { d with
    parent := fun i => if i < TAG_MAX then none else d.parent i
    child := fun i k => if i < TAG_MAX ∧ k = 0 then none else d.child i k
    paraTopP := fun i => if i < TAG_MAX then false else d.paraTopP i
    paraType := fun i => if i < TAG_MAX then .nil else d.paraType i
    toParaP := fun i => if i < TAG_MAX then false else d.toParaP i }

/-- `para_info_to_tag`, of what the tree has. -/
def paraInfoToTag (bnst : TreeData) (b t : Nat) (d : TreeData) : TreeData :=
  { d with
    paraTopP := Function.update d.paraTopP t (bnst.paraTopP b)
    paraType := Function.update d.paraType t (bnst.paraType b)
    toParaP := Function.update d.toParaP t (bnst.toParaP b) }

/-! ## Head tags -/

/-- The offset behind the colon, or 0 if it is not one of a tag. -/
def tagOffset (tagNum : Nat) (cp : String) : Int :=
  match cp.toList.dropWhile (· != ':') with
  | _ :: cs =>
      let offset := atoi (String.ofList cs)
      if 0 < offset ∨ (tagNum : Int) ≤ -1 * offset then 0 else offset
  | [] => 0

/-- By タグ単位受, or else by 直前タグ受. -/
def headTagOffset (bp : BunsetsuData) : Int :=
  match (checkFeature bp.f "タグ単位受").or (checkFeature bp.f "直前タグ受") with
  | some cp => tagOffset bp.tagNum cp
  | none => 0

/-- The tags of a bunsetsu that are left, backwards from tag `gov`. -/
def leftTags (d : TreeData) (bp : BunsetsuData) (gov : Int) : List Nat :=
  (List.range (gov + 1).toNat).reverse.filter fun g => !d.merged (bp.tagPtr + g)

/-- `find_head_tag_from_bnst`; `none` for -1. -/
def findHeadTagFromBnst (d : TreeData) (bp : BunsetsuData) (targetOffset : Nat) : Option Nat :=
  (leftTags d bp (bp.tagNum - 1 + headTagOffset bp))[targetOffset]?

/-- `find_head_tag_from_dpnd_bnst`, for `bp` with the parent `parent`. -/
def findHeadTagFromDpndBnst (d : TreeData) (bp parent : BunsetsuData) : Option Nat :=
  let offset := if hasFeature bp.f "タグ単位受無視" then 0 else headTagOffset parent
  (leftTags d parent (parent.tagNum - 1 + offset)).head?

/-- `tag_ptr + gov`; -1 is the tag in front. -/
def tagAt (tagPtr : Nat) : Option Nat → Option Nat
  | some gov => some (tagPtr + gov)
  | none => if tagPtr = 0 then none else some (tagPtr - 1)

/-- 文節内: the tags below `last` are linked to the next one that is left. -/
def linkInside (tagPtr last : Nat) (d : TreeData) : Option TreeData :=
  Loop.upTo? 0 last (fun j d =>
    match (List.range' (j + 1) (last - j)).find? fun gov => !d.merged (tagPtr + gov) with
    | some gov =>
        if d.merged (tagPtr + j) then some d else tAttachNode (tagPtr + gov) (tagPtr + j) none d
    | none => some d) d

/-! ## The nodes of the coordinations -/

/-- The tree of the tags, the bunsetsu with their tags, and `New_Tag_num`. -/
structure TagTreeState where
  tags : TreeData
  bnst : Nat → BunsetsuData
  newTagNum : Nat

/-- 文節内の主辞基本句より前側: the tags before the head, below its copy `tp`. -/
def linkBefore (bp : BunsetsuData) (head tp : Nat) (d : TreeData) : Option TreeData :=
  if 0 < head then
    match findHeadTagFromBnst d bp 1 with
    | some pre => (tAttachNode tp (bp.tagPtr + pre) none d).bind (linkInside bp.tagPtr pre)
    | none => some d
  else some d

/-- 文節内の主辞基本句より後: a chain from tag `tp` through the tags behind the head. -/
def linkBehind (bp : BunsetsuData) (head tp : Nat) (d : TreeData) : Option TreeData :=
  (Loop.upTo? (head + 1) bp.tagNum (fun j (tp, d) =>
    if d.merged (bp.tagPtr + j) then some (tp, d)
    else (tAttachNode (bp.tagPtr + j) tp none d).map (bp.tagPtr + j, ·)) (tp, d)).map fun (tp, d) =>
      { d with parent := Function.update d.parent tp none }

section Tree

variable (sp : SentenceData) (bnst : TreeData)

/-- new bnst -> tag, for the node `b`. -/
def linkNew (b : Nat) (s : TagTreeState) : Option TagTreeState :=
  let bp := s.bnst b
  let head := (findHeadTagFromBnst s.tags bp 0).getD (bp.tagNum - 1)
  let tp := sp.tagNum + s.newTagNum
  if TAG_MAX ≤ tp then none
  else
    ((paraInfoToTag bnst b tp (copyNode tp (bp.tagPtr + head) s.tags)).setChild tp 0 none).bind fun d =>
    (if bnst.paraTopP b then some d else linkBefore bp head tp d).bind fun d =>
    (bnst.parent b).bind fun p =>
    (tagAt (s.bnst p).tagPtr (findHeadTagFromDpndBnst d bp (s.bnst p))).bind fun t =>
    (tAttachNode t tp none d).bind fun d =>
    (if p < sp.bnstNum then linkBehind bp head t d else some d).map fun d =>
      { tags := d
        bnst := Function.update s.bnst b { bp with tagPtr := tp, tagNum := 1 }
        newTagNum := s.newTagNum + 1 }

/-- The new nodes below `n`, the last one first. -/
def linkNews : Nat → TagTreeState → Option TagTreeState
  | 0, s => some s
  | i + 1, s => (linkNew sp bnst (sp.bnstNum + i) s).bind (linkNews i)

/-! ## The bunsetsu -/

/-- `while (tp->parent) tp = tp->parent;` -/
def climb (parent : Nat → Option Nat) : Nat → Nat → Option Nat
  | 0, _ => none
  | fuel + 1, tp => match parent tp with
    | some p => climb parent fuel p
    | none => some tp

/-- 文節内 -/
def linkTags (bps : Nat → BunsetsuData) (b : Nat) (d : TreeData) : Option TreeData :=
  let bp := bps b
  let head := (findHeadTagFromBnst d bp 0).getD (bp.tagNum - 1)
  let d := paraInfoToTag bnst b (bp.tagPtr + head) d
  if bnst.paraTopP b then some d else linkInside bp.tagPtr (bp.tagNum - 1) d

/-- 親と子: the last tag of `b` to a tag of the parent. -/
def linkOut (bps : Nat → BunsetsuData) (b : Nat) (d : TreeData) : Option TreeData :=
  match bnst.parent b with
  | none => some d
  | some p =>
      (tagAt (bps b).tagPtr (leftTags d (bps b) ((bps b).tagNum - 1)).head?).bind fun tp =>
      (if bnst.paraTopP b then climb d.parent TAG_MAX tp else some tp).bind fun tp =>
      (tagAt (bps p).tagPtr (findHeadTagFromDpndBnst d (bps b) (bps p))).bind fun t =>
        tAttachNode t tp none d

/-- The bunsetsu below `n`, the last one first; `last` is `last_b_flag`. -/
def linkBnsts (bps : Nat → BunsetsuData) : Nat → Bool → TreeData → Option TreeData
  | 0, _, d => some d
  | b + 1, last, d =>
      if bnst.merged b then linkBnsts bps b last d
      else (linkTags bnst bps b d).bind fun d =>
        if last then linkBnsts bps b false d
        else (linkOut bnst bps b d).bind (linkBnsts bps b false)

/-- A node of a coordination has the tags and the features of its bunsetsu at first. -/
def nodeData (b : Nat) : BunsetsuData :=
  if b < sp.bnstNum then sp.bnst b else sp.bnst (bnst.num b).toNat

/-- `bnst_to_tag_tree` -/
def bnstToTagTree (newBnstNum : Nat) (tags : TreeData) : Option TagTreeState :=
  (linkNews sp bnst newBnstNum ⟨initTagTreeProperty tags, nodeData sp bnst, 0⟩).bind fun s =>
    (linkBnsts bnst s.bnst sp.bnstNum true s.tags).map fun d => { s with tags := d }

end Tree

/-! ## The links without coordination -/

/-- 文節内 -/
def insideLinks (tagPtr last : Nat) : List (Nat × Nat) :=
  (List.range last).flatMap fun j => [(tagPtr + j, tagPtr + (j + 1))]

/-- The tag of `parent` that the features give for `bp`. -/
def dpndTag (bp parent : BunsetsuData) : Nat :=
  let offset := if hasFeature bp.f "タグ単位受無視" then 0 else headTagOffset parent
  parent.tagPtr + ((parent.tagNum : Int) - 1 + offset).toNat

/-- 親と子 -/
def outLinks (bnst : TreeData) (bps : Nat → BunsetsuData) (b : Nat) : List (Nat × Nat) :=
  match bnst.parent b with
  | some p => [((bps b).tagPtr + ((bps b).tagNum - 1), dpndTag (bps b) (bps p))]
  | none => []

/-- The links of the bunsetsu below `n`. -/
def linksBelow (bnst : TreeData) (bps : Nat → BunsetsuData) : Nat → List (Nat × Nat)
  | 0 => []
  | b + 1 => insideLinks (bps b).tagPtr ((bps b).tagNum - 1) ++
      (outLinks bnst bps b ++ linksBelow bnst bps b)

/-- The links of all bunsetsu, of which the last one has no parent. -/
def tagLinks (bnst : TreeData) (bps : Nat → BunsetsuData) (n : Nat) : List (Nat × Nat) :=
  insideLinks (bps (n - 1)).tagPtr ((bps (n - 1)).tagNum - 1) ++ linksBelow bnst bps (n - 1)

/-- No coordination, and nothing merged. -/
structure PlainTree (bnst : TreeData) (bps : Nat → BunsetsuData) (num : Nat → Int)
    (n tagNum : Nat) : Prop where
  left : ∀ b < n, bnst.merged b = false
  noPara : ∀ b < n, bnst.paraTopP b = false
  parent_lt : ∀ b < n, ∀ p, bnst.parent b = some p → p < n
  tags : ∀ b < n, 0 < (bps b).tagNum ∧ (bps b).tagPtr + (bps b).tagNum ≤ tagNum
  tag_left : ∀ t < tagNum, num t ≠ -1

section Plain

variable {bnst d : TreeData} {bps : Nat → BunsetsuData} {num : Nat → Int} {n tagNum : Nat}
  {bp parent : BunsetsuData} {b last gov : Nat}

theorem tagOffset_bounds {cp : String} (hpos : 0 < n) :
    -(n : Int) < tagOffset n cp ∧ tagOffset n cp ≤ 0 := by
  unfold tagOffset
  split
  · dsimp only
    split <;> omega
  · omega

theorem headTagOffset_bounds (hpos : 0 < bp.tagNum) :
    -(bp.tagNum : Int) < headTagOffset bp ∧ headTagOffset bp ≤ 0 := by
  unfold headTagOffset
  split
  · exact tagOffset_bounds hpos
  · omega

variable (bp) in
theorem dpndOffset_bounds (hpos : 0 < parent.tagNum) :
    -(parent.tagNum : Int) < (if hasFeature bp.f "タグ単位受無視" then 0 else headTagOffset parent) ∧
      (if hasFeature bp.f "タグ単位受無視" then 0 else headTagOffset parent) ≤ 0 := by
  split
  · omega
  · exact headTagOffset_bounds hpos

theorem merged_of_num (hd : d.num = num) {t : Nat} (ht : num t ≠ -1) : d.merged t = false := by
  rw [merged_eq_false_iff, hd]
  exact ht

/-- If no tag is merged, the search for one that is left ends at once. -/
theorem leftTags_head (hleft : ∀ g ≤ gov, d.merged (bp.tagPtr + g) = false) :
    (leftTags d bp gov).head? = some gov := by
  unfold leftTags
  have hrange : ((gov : Int) + 1).toNat = gov + 1 := by omega
  rw [hrange, List.range_succ, List.reverse_append, List.reverse_singleton, List.singleton_append,
    List.filter_cons_of_pos (by simp [hleft gov le_rfl])]
  rfl

theorem linkInside_attaches (hleft : ∀ j ≤ last, num (bp.tagPtr + j) ≠ -1) :
    Attaches num (linkInside bp.tagPtr last) (insideLinks bp.tagPtr last) := by
  unfold linkInside Loop.upTo? insideLinks
  rw [List.range_eq_range', Nat.sub_zero]
  refine Attaches.foldlM fun j hj => ?_
  have hlt : j < last := by simpa using hj
  refine Attaches.congr (fun d hd => ?_) (Attaches.attach (bp.tagPtr + (j + 1)) (bp.tagPtr + j))
  have hrange : List.range' (j + 1) (last - j) = (j + 1) :: List.range' (j + 2) (last - j - 1) := by
    rw [show last - j = last - j - 1 + 1 by omega, List.range'_succ, Nat.add_sub_cancel]
  dsimp only
  rw [hrange, List.find?_cons_of_pos (by simp [merged_of_num hd (hleft (j + 1) hlt)])]
  dsimp only
  rw [if_neg (by simp [merged_of_num hd (hleft j hlt.le)])]

namespace PlainTree

variable (h : PlainTree bnst bps num n tagNum)
include h

theorem linkTags_attaches (hb : b < n) : Attaches num (linkTags bnst bps b)
    (insideLinks (bps b).tagPtr ((bps b).tagNum - 1)) := by
  obtain ⟨hpos, hfit⟩ := h.tags b hb
  have hinside : Attaches num (linkInside (bps b).tagPtr ((bps b).tagNum - 1))
      (insideLinks (bps b).tagPtr ((bps b).tagNum - 1)) :=
    linkInside_attaches fun j hj => h.tag_left _ (by omega)
  have hpara : Attaches num (fun d => some (paraInfoToTag bnst b
      ((bps b).tagPtr + (findHeadTagFromBnst d (bps b) 0).getD ((bps b).tagNum - 1)) d)) [] :=
    Attaches.keep (fun _ => rfl) (fun _ => rfl) fun _ => rfl
  refine Attaches.congr (fun d _ => ?_) (hpara.bind hinside)
  unfold linkTags
  dsimp only
  rw [h.noPara b hb]
  rfl

theorem linkOut_attaches (hb : b < n) :
    Attaches num (linkOut bnst bps b) (outLinks bnst bps b) := by
  unfold outLinks
  cases hparent : bnst.parent b with
  | none =>
      refine Attaches.congr (fun d _ => ?_) Attaches.skip
      unfold linkOut
      rw [hparent]
  | some p =>
      obtain ⟨hpos, hfit⟩ := h.tags b hb
      obtain ⟨hpos', hfit'⟩ := h.tags p (h.parent_lt b hb p hparent)
      obtain ⟨hlo, hhi⟩ := dpndOffset_bounds (bps b) hpos'
      refine Attaches.congr (fun d hd => ?_) (Attaches.attach (dpndTag (bps b) (bps p))
        ((bps b).tagPtr + ((bps b).tagNum - 1)))
      have hlast : (leftTags d (bps b) ((bps b).tagNum - 1)).head? = some ((bps b).tagNum - 1) := by
        rw [show ((bps b).tagNum : Int) - 1 = ((bps b).tagNum - 1 : Nat) by omega]
        exact leftTags_head fun g hg => merged_of_num hd (h.tag_left _ (by omega))
      unfold linkOut findHeadTagFromDpndBnst dpndTag
      rw [hparent]
      dsimp only
      generalize (if hasFeature (bps b).f "タグ単位受無視" then 0 else headTagOffset (bps p)) =
        offset at hlo hhi ⊢
      have hgov : (leftTags d (bps p) ((bps p).tagNum - 1 + offset)).head? =
          some ((bps p).tagNum - 1 + offset : Int).toNat := by
        rw [show ((bps p).tagNum : Int) - 1 + offset =
          (((bps p).tagNum - 1 + offset : Int).toNat : Nat) by omega, Int.toNat_natCast]
        exact leftTags_head fun g hg => merged_of_num hd (h.tag_left _ (by omega))
      rw [hlast, hgov, h.noPara b hb]
      rfl

theorem linkBnsts_attaches : ∀ m ≤ n,
    Attaches num (linkBnsts bnst bps m false) (linksBelow bnst bps m)
  | 0, _ => Attaches.skip
  | b + 1, hb => by
      have hrest := linkBnsts_attaches b (Nat.le_of_succ_le hb)
      refine Attaches.congr (fun d _ => ?_)
        ((h.linkTags_attaches hb).bind ((h.linkOut_attaches hb).bind hrest))
      rw [linkBnsts, h.left b hb]
      rfl

/-- Without coordination `bnst_to_tag_tree` makes these links. -/
theorem attaches (hn : 0 < n) :
    Attaches num (linkBnsts bnst bps n true) (tagLinks bnst bps n) := by
  obtain ⟨m, rfl⟩ : ∃ m, n = m + 1 := ⟨n - 1, by omega⟩
  refine Attaches.congr (fun d _ => ?_)
    ((h.linkTags_attaches (Nat.lt_succ_self m)).bind (h.linkBnsts_attaches m (Nat.le_succ m)))
  rw [linkBnsts, h.left m (Nat.lt_succ_self m)]
  rfl

end PlainTree

end Plain

end Knp
