import Mathlib.Algebra.Ring.Int.Defs
import Knp.CaseMatch
import Knp.FirstMark
import Knp.TreeConv

/-!
# Location classes (`context.c`)

`mark_location_classes` gives each tag of the current and the previous sentences a class. Nine
passes mark what they reach from the predicate, and then all other tags get a class, each with
what it reaches. What is marked keeps its class.

> What a tag in front of the predicate reaches may lie behind it, and what a tag behind the
> predicate reaches may lie in a sentence before.

So `LOC_PRE_OTHERS` does not tell that a tag is in front of the predicate, as `CheckLocation` would
have it. The class for the sentences from the third one before on is 0, as if they had none.
-/

namespace Knp

open FirstMark

def LOC_PARENTV : Int := 0x000002

def LOC_PARENTV_MC : Int := 0x000003

def LOC_CHILDPV : Int := 0x000200

def LOC_CHILDV : Int := 0x000400

def LOC_PARENTNPARENTV : Int := 0x000004

def LOC_PARENTNPARENTV_MC : Int := 0x000005

def LOC_PV : Int := 0x000008

def LOC_PV_MC : Int := 0x000009

def LOC_PARENTVPARENTV : Int := 0x000010

def LOC_PARENTVPARENTV_MC : Int := 0x000011

def LOC_MC : Int := 0x002001

def LOC_SC : Int := 0x004000

def LOC_PRE_OTHERS : Int := 0x008000

def LOC_POST_OTHERS : Int := 0x009000

def LOC_S1_MC : Int := 0x012001

def LOC_S1_SC : Int := 0x014000

def LOC_S1_OTHERS : Int := 0x010000

def LOC_S2_MC : Int := 0x022001

def LOC_S2_SC : Int := 0x024000

def LOC_S2_OTHERS : Int := 0x020000

def LOC_OTHERS : Int := 0x000000

/-- A filled slot of the frame of a predicate: `elem_b_ptr`, whether `elem_b_num` is at most -2
(省略), and how many sentences `elem_s_ptr` is before the sentence of the predicate. -/
structure LcArg where
  elemBPtr : Option Nat
  elided : Bool
  back : Nat

/-- What is read of `CF_PRED_MGR`; a slot is `none` if it is `UNASSIGNED`. -/
structure LcCpm where
  predBPtr : Nat
  /-- `cmm[0].score == -2` -/
  failed : Bool
  slots : List (Option LcArg)

/-- What is read of `TAG_DATA`; pointers are addresses. -/
structure LcTag where
  num : Nat
  parent : Option Nat
  child : List Nat
  paraTopP : Bool
  paraType : ParaType
  checkFeature : String → Bool
  /-- `subordinate_level_check("B", f)` -/
  subordinateLevelB : Bool
  cpmPtr : Option LcCpm

/-- A place that is marked: a cell of `LC`, or `ExtraLC`. -/
inductive LcPlace
  | extra
  | tag (sent num : Nat)
deriving DecidableEq

/-- The sentences so far, the current one being 0, and their tags. -/
structure LcDoc where
  senNum : Nat
  tagNum : Nat → Nat
  /-- `(cs - sent)->tag_data + i` -/
  tagData : Nat → Nat → Nat
  node : Nat → LcTag
  prevSentenceLimit : Nat
  /-- the sentence that a tag or `<PARA>` belongs to -/
  sent : Nat → Nat
  /-- how far a tag is from the root, and from the end of the `<PARA>` in it -/
  depth : Nat → Nat
  paraDepth : Nat → Nat
  senNum_pos : 0 < senNum
  tagNum_pos : ∀ s < senNum, 0 < tagNum s
  tagNum_le : ∀ s < senNum, tagNum s ≤ TAG_MAX
  sent_tagData : ∀ s < senNum, ∀ i < tagNum s, sent (tagData s i) = s
  num_tagData : ∀ s < senNum, ∀ i < tagNum s, (node (tagData s i)).num = i
  num_lt : ∀ a, sent a < senNum → (node a).num < tagNum (sent a)
  parent_sent : ∀ a, ∀ b ∈ (node a).parent, sent b = sent a
  parent_depth : ∀ a, ∀ b ∈ (node a).parent, depth b < depth a
  child_sent : ∀ a, ∀ b ∈ (node a).child, sent b = sent a
  para_child : ∀ a, (node a).paraTopP = true → ∃ b ∈ (node a).child.head?, paraDepth b < paraDepth a
  pred_sent : ∀ a, ∀ cpm ∈ (node a).cpmPtr, sent cpm.predBPtr = sent a
  arg_sent : ∀ a, ∀ cpm ∈ (node a).cpmPtr, ∀ arg, some arg ∈ cpm.slots → ∀ b ∈ arg.elemBPtr,
    sent b = (if arg.elided then sent a + arg.back else sent a) ∧
      (sent a < senNum → sent b < senNum)

namespace LcDoc

variable (doc : LcDoc)

/-! ## Walking in the tree -/

/-- 並列を吸収: `while (tp->para_top_p) tp = tp->child[0]` -/
def absorbPara : Nat → Nat → Nat
  | 0, tp => tp
  | fuel + 1, tp =>
      if (doc.node tp).paraTopP then
        match (doc.node tp).child.head? with
        | some child => absorbPara fuel child
        | none => tp
      else tp

def skipPara (tp : Nat) : Nat := doc.absorbPara (doc.paraDepth tp) tp

/-- <PARA>に係る要素: the loop over the `<PARA>` above. -/
def paraElements : Nat → Option Nat → List Nat
  | fuel + 1, some tmp =>
      if (doc.node tmp).paraTopP then
        -- 並列の用言(自分を含む)を除く
        ((doc.node tmp).child.filter fun c =>
          (doc.node c).paraType ≠ .normal && (doc.node c).checkFeature "格要素") ++
          paraElements fuel (doc.node tmp).parent
      else []
  | _, _ => []

/-- `ListPredChildren` -/
def listPredChildren (tp : Nat) : List Nat :=
  ((doc.node tp).child.filter fun c => (doc.node c).checkFeature "格要素") ++
    if (doc.node tp).paraType = .normal then doc.paraElements (doc.depth tp) (doc.node tp).parent
    else []

/-- `check_mc` -/
def checkMc (tp : Nat) : Bool := (doc.node tp).checkFeature "主節"

/-! ## What is reached

Each function of the source marks one place after the other, and the marks depend on nothing that
has been marked; so they are listed. -/

/-- `_SearchCompoundChild`: ノ格, 連体の(直接の)子供 -/
def searchCompoundChild (tp sent : Nat) : List LcPlace :=
  ((doc.node (doc.skipPara tp)).child.filter fun c =>
      (doc.node c).checkFeature "係:ノ格" || (doc.node c).checkFeature "係:連体" ||
        (doc.node c).checkFeature "係:隣").map
    fun c => .tag sent (doc.node c).num

/-- 用言の格要素: one slot. -/
def searchSlot (dist : Nat) : Option LcArg → List LcPlace
  | none => []
  | some arg =>
      match arg.elemBPtr with
      | none => [.extra]
      | some elem =>
          let sent := if arg.elided then dist + arg.back else dist
          .tag sent (doc.node elem).num :: doc.searchCompoundChild elem sent

/-- `_SearchCaseComponent` -/
def searchCaseComponent (bp dist : Nat) : List LcPlace :=
  match (doc.node bp).cpmPtr with
  | none => []
  | some cpm =>
      (if cpm.failed then [] else cpm.slots.flatMap (doc.searchSlot dist)) ++
        -- 格要素になっていない子供もチェック
        (doc.listPredChildren cpm.predBPtr).flatMap fun c =>
          .tag dist (doc.node c).num :: doc.searchCompoundChild c dist

/-- `mark_all_children` -/
def markAllChildren (tp : Nat) (lcNum : Int) (sent : Nat) : List (LcPlace × Int) :=
  (.tag sent (doc.node tp).num :: doc.searchCaseComponent tp sent).map fun p => (p, lcNum)

/-! ## The passes -/

/-- A class for the tag itself: `mc` in the main clause. -/
def mcClass (tp : Nat) (mc other : Int) : Int := if doc.checkMc tp then mc else other

/-- `_SearchPV`: 親側 -/
def searchPV (tp : Nat) : List (LcPlace × Int) :=
  if (doc.node tp).paraType = .normal then
    match (doc.node tp).parent with
    | some parent =>
        ((doc.node parent).child.filter fun c =>
            (doc.node tp).num < (doc.node c).num && (doc.node c).paraType = .normal).flatMap
          fun c => doc.markAllChildren c (doc.mcClass c LOC_PV_MC LOC_PV) 0
    | none => []
  else []

/-- A governor `gov`: 親が<PARA>なら<P>の子供を全部チェック. -/
def markGovernor (gov num : Nat) (mc other : Int) : List (LcPlace × Int) :=
  if (doc.node gov).paraTopP then
    ((doc.node gov).child.filter fun c =>
        (doc.node c).paraType = .normal && num < (doc.node c).num).flatMap
      fun c => doc.markAllChildren (doc.skipPara c) (doc.mcClass (doc.skipPara c) mc other) 0
  else doc.markAllChildren gov (doc.mcClass gov mc other) 0

/-- `_SearchParentV` -/
def searchParentV (tp : Nat) : List (LcPlace × Int) :=
  match (doc.node tp).parent with
  | some parent =>
      if (doc.node parent).checkFeature "用言" then
        doc.markGovernor parent (doc.node tp).num LOC_PARENTV_MC LOC_PARENTV
      else []
  | none => []

/-- The parent of the parent, where `yogen` says whether the parent is a 用言. -/
def searchGrandparent (tp : Nat) (yogen : Bool) (mc other : Int) : List (LcPlace × Int) :=
  match (doc.node tp).parent with
  | some parent =>
      match (doc.node parent).parent with
      | some gov =>
          if (doc.node tp).paraType = .nil && (doc.node parent).checkFeature "用言" = yogen &&
              (doc.node gov).checkFeature "用言" then
            doc.markGovernor gov (doc.node parent).num mc other
          else []
      | none => []
  | none => []

/-- `_SearchParentNParentV` -/
def searchParentNParentV (tp : Nat) : List (LcPlace × Int) :=
  doc.searchGrandparent tp false LOC_PARENTNPARENTV_MC LOC_PARENTNPARENTV

/-- `_SearchParentVParentV` -/
def searchParentVParentV (tp : Nat) : List (LcPlace × Int) :=
  doc.searchGrandparent tp true LOC_PARENTVPARENTV_MC LOC_PARENTVPARENTV

/-- `_SearchChildPV`, with `_GoUpParaChild`: 子供側 -/
def searchChildPV (tp : Nat) : List (LcPlace × Int) :=
  match (doc.node tp).parent with
  | some parent =>
      if (doc.node tp).paraType = .normal && (doc.node parent).paraTopP then
        ((doc.node parent).child.filter fun c =>
            (doc.node c).num < (doc.node tp).num && (doc.node c).paraType = .normal).flatMap
          fun c => doc.markAllChildren (doc.skipPara c) LOC_CHILDPV 0
      else []
  | none => []

/-- `_SearchChildV`: 自分は<PARA>でないので並列ではない -/
def searchChildV (tp : Nat) : List (LcPlace × Int) :=
  if (doc.node tp).paraType = .nil then
    ((doc.node tp).child.filter fun c => (doc.node c).checkFeature "用言").flatMap
      fun c => doc.markAllChildren c LOC_CHILDV 0
  else []

/-- A class for the sentence `dist`. -/
def distClass (dist : Nat) (s2 s1 current : Int) : Int :=
  if dist = 2 then s2 else if dist = 1 then s1 else current

/-- `ctp == NULL || tp->num != ctp->num`: 対象ではない -/
def notTarget (ctp : Option Nat) (tp : Nat) : Bool :=
  ctp.all fun ctp => (doc.node tp).num ≠ (doc.node ctp).num

/-- The tag of the main clause: the last one, <PARA> absorbed, with 主節, or the last one of all. -/
def mainClause (sent : Nat) : Nat :=
  let tags := ((List.range (doc.tagNum sent)).reverse.map fun i =>
    doc.skipPara (doc.tagData sent i))
  (tags.find? doc.checkMc).getD (doc.skipPara (doc.tagData sent (doc.tagNum sent - 1)))

/-- `_SearchMC` -/
def searchMC (ctp : Option Nat) (dist : Nat) : List (LcPlace × Int) :=
  if doc.notTarget ctp (doc.mainClause dist) then
    doc.markAllChildren (doc.mainClause dist) (distClass dist LOC_S2_MC LOC_S1_MC LOC_MC) dist
  else []

/-- `_SearchSC`: レベルがBより強い従属節 -/
def searchSC (ctp : Option Nat) (dist : Nat) : List (LcPlace × Int) :=
  let tags := (List.range (doc.tagNum dist)).reverse.map (doc.tagData dist)
  match tags.find? doc.checkMc with
  | some tp =>
      -- 主節をチェックしないように
      let start := if (doc.node tp).paraTopP then 1 else 0
      ((((doc.node tp).child.drop start).map doc.skipPara).filter fun c =>
          doc.notTarget ctp c && (doc.node c).checkFeature "係:連用" &&
            (doc.node c).subordinateLevelB).flatMap
        fun c => doc.markAllChildren c (distClass dist LOC_S2_SC LOC_S1_SC LOC_SC) dist
  | none => []

/-! ## All tags -/

/-- `LC` with `ExtraLC`, and the places that were looked at or written to. -/
structure LcState where
  lc : LcPlace → Int
  touched : List LcPlace

/-- `if (!lc[p]) lc[p] = lc_num`, for each mark. -/
def LcState.marks (st : LcState) (ms : List (LcPlace × Int)) : LcState :=
  ⟨FirstMark.marks st.lc ms, st.touched ++ ms.map Prod.fst⟩

/-- `lc[p] = lc_num` -/
def LcState.set (st : LcState) (p : LcPlace) (lcNum : Int) : LcState :=
  ⟨Function.update st.lc p lcNum, st.touched ++ [p]⟩

/-- A tag of the loops over all tags of a sentence. -/
def othersStep (sent : Nat) (lcNum : Nat → Int) (st : LcState) (i : Nat) : LcState :=
  if st.lc (.tag sent i) ≠ 0 then st
  else
    (st.set (.tag sent i) (lcNum i)).marks
      (doc.markAllChildren (doc.tagData sent i) (lcNum i) sent)

/-- The nine passes, the first one being that for the predicate itself. -/
def passes (tp : Nat) : List (LcPlace × Int) :=
  -- 自分の子供は対象外
  (doc.searchCaseComponent tp 0).map (fun p => (p, END_M)) ++ doc.searchPV tp ++
    doc.searchParentV tp ++ doc.searchParentNParentV tp ++ doc.searchParentVParentV tp ++
    doc.searchChildPV tp ++ doc.searchChildV tp ++ doc.searchMC (some tp) 0 ++
    doc.searchSC (some tp) 0

/-- The class of the other tags of the current sentence. -/
def othersClass (tp i : Nat) : Int :=
  if i < (doc.node tp).num then LOC_PRE_OTHERS else LOC_POST_OTHERS

/-- The current sentence. -/
def markCurrent (tp : Nat) : LcState :=
  (List.range (doc.tagNum 0)).foldl (doc.othersStep 0 (doc.othersClass tp))
    (((LcState.mk (fun _ => 0) []).set (.tag 0 (doc.node tp).num) END_M).marks (doc.passes tp))

/-- One of the two sentences before. -/
def markPrevious (sent : Nat) (others : Int) (st : LcState) : LcState :=
  if sent < doc.senNum then
    (List.range (doc.tagNum sent)).foldl (doc.othersStep sent fun _ => others)
      (st.marks (doc.searchMC none sent ++ doc.searchSC none sent))
  else st

/-- 2文以前 -/
def farTags : List LcPlace :=
  ((List.range' 3 (doc.prevSentenceLimit + 1 - 3)).takeWhile (· < doc.senNum)).flatMap fun j =>
    (List.range (doc.tagNum j)).map (.tag j)

/-- `mark_location_classes` -/
def markLocationClasses (tp : Nat) : LcState :=
  doc.farTags.foldl (fun st p => st.set p LOC_OTHERS)
    (doc.markPrevious 2 LOC_S2_OTHERS (doc.markPrevious 1 LOC_S1_OTHERS (doc.markCurrent tp)))

/-! ## The law -/

/-- 用言の格要素: the places of the elements in the slots of the predicate. -/
def caseElements (tp : Nat) : List LcPlace :=
  match (doc.node tp).cpmPtr with
  | none => []
  | some cpm =>
      if cpm.failed then []
      else cpm.slots.filterMap fun slot => slot.bind fun arg => arg.elemBPtr.map fun elem =>
        .tag (if arg.elided then arg.back else 0) (doc.node elem).num

/-- The classes of the sentences before. -/
def previousClasses : List Int :=
  [LOC_S1_MC, LOC_S1_SC, LOC_S1_OTHERS, LOC_S2_MC, LOC_S2_SC, LOC_S2_OTHERS]

/-- The law for a class that tells where a tag lies. -/
structure ClassLaw (tp : Nat) (st : LcState) : Prop where
  own : st.lc (.tag 0 (doc.node tp).num) = END_M
  elements : ∀ s i, .tag s i ∈ doc.caseElements tp → st.lc (.tag s i) = END_M
  classified : ∀ s < doc.senNum, s = 0 ∨ s ≤ doc.prevSentenceLimit →
    ∀ i < doc.tagNum s, st.lc (.tag s i) ≠ 0
  pre : ∀ s i, st.lc (.tag s i) = LOC_PRE_OTHERS → 0 < s ∨ i < (doc.node tp).num
  post : ∀ s i, st.lc (.tag s i) = LOC_POST_OTHERS → s = 0 ∧ (doc.node tp).num < i
  previous : ∀ s i, st.lc (.tag s i) ∈ previousClasses → 0 < s
  inside : ∀ s i, .tag s i ∈ st.touched → s < doc.senNum ∧ i < TAG_MAX

/-- What a tag of the current sentence reaches. -/
def reach (i : Nat) : List LcPlace := doc.searchCaseComponent (doc.tagData 0 i) 0

/-- What the classes say: `LOC_PRE_OTHERS` and `LOC_POST_OTHERS` are for a tag on that side of the
predicate and all that it reaches, and the sentences from the third one before on have
`LOC_OTHERS`. -/
structure ReachLaw (tp : Nat) (st : LcState) : Prop where
  own : st.lc (.tag 0 (doc.node tp).num) = END_M
  elements : ∀ s i, .tag s i ∈ doc.caseElements tp → s ≤ 2 ∨ doc.prevSentenceLimit < s →
    st.lc (.tag s i) = END_M
  classified : ∀ s < doc.senNum, s ≤ 2 → ∀ i < doc.tagNum s, st.lc (.tag s i) ≠ 0
  far : ∀ s < doc.senNum, 3 ≤ s → s ≤ doc.prevSentenceLimit → ∀ i < doc.tagNum s,
    st.lc (.tag s i) = LOC_OTHERS
  pre : ∀ s i, st.lc (.tag s i) = LOC_PRE_OTHERS →
    ∃ e < (doc.node tp).num, .tag s i ∈ LcPlace.tag 0 e :: doc.reach e
  post : ∀ s i, st.lc (.tag s i) = LOC_POST_OTHERS →
    ∃ e, (doc.node tp).num < e ∧ e < doc.tagNum 0 ∧ .tag s i ∈ LcPlace.tag 0 e :: doc.reach e
  previous : ∀ s i, st.lc (.tag s i) ∈ previousClasses → 0 < s
  inside : ∀ s i, .tag s i ∈ st.touched → s < doc.senNum ∧ i < TAG_MAX

/-- The places that the passes mark. -/
def passed (tp : Nat) (p : LcPlace) : Bool :=
  p = .tag 0 (doc.node tp).num || p ∈ (doc.passes tp).map Prod.fst

/-- The tags of the current sentence below `n` that no pass reaches, nor one of these tags that
comes before. -/
def otherTags (tp n : Nat) : List Nat := expanded (.tag 0) doc.reach (doc.passed tp) n

/-- Where each class tells where its tags lie. -/
structure Classable (tp : Nat) : Prop where
  near : doc.prevSentenceLimit ≤ 2 ∨ doc.senNum ≤ 3
  front : ∀ e ∈ doc.otherTags tp (doc.node tp).num, ∀ i, (doc.node tp).num < i →
    .tag 0 i ∈ doc.reach e → doc.passed tp (.tag 0 i) = true
  behind : ∀ e ∈ doc.otherTags tp (doc.tagNum 0), (doc.node tp).num < e → ∀ s i, 0 < s →
    .tag s i ∈ doc.reach e → doc.passed tp (.tag s i) = true ∨
      ∃ e' ∈ doc.otherTags tp (doc.node tp).num, .tag s i ∈ doc.reach e'

/-! ## Where it is marked -/

/-- The place is in the table, in the sentence `dist` or in one before. -/
def Within (dist : Nat) (p : LcPlace) : Prop :=
  ∀ s i, p = .tag s i → dist ≤ s ∧ s < doc.senNum ∧ i < doc.tagNum s

variable {doc} {tp dist : Nat}

theorem sent_absorbPara (fuel tp : Nat) : doc.sent (doc.absorbPara fuel tp) = doc.sent tp := by
  induction fuel generalizing tp with
  | zero => rfl
  | succ fuel ih =>
      rw [absorbPara]
      split
      · split
        next child hchild =>
          rw [ih]
          exact doc.child_sent tp child (List.mem_of_head? hchild)
        next => rfl
      · rfl

theorem sent_skipPara (tp : Nat) : doc.sent (doc.skipPara tp) = doc.sent tp :=
  sent_absorbPara _ _

/-- The loop over `child[0]` ends. -/
theorem skipPara_not_para (tp : Nat) : (doc.node (doc.skipPara tp)).paraTopP = false := by
  have hloop : ∀ fuel tp, doc.paraDepth tp ≤ fuel →
      (doc.node (doc.absorbPara fuel tp)).paraTopP = false := by
    intro fuel
    induction fuel with
    | zero =>
        intro tp hle
        by_contra hpara
        obtain ⟨b, -, hlt⟩ := doc.para_child tp (Bool.not_eq_false _ ▸ hpara)
        omega
    | succ fuel ih =>
        intro tp hle
        rw [absorbPara]
        split
        next hpara =>
          obtain ⟨b, hb, hlt⟩ := doc.para_child tp hpara
          rw [Option.mem_def.mp hb]
          exact ih b (by omega)
        next hpara => exact Bool.eq_false_iff.mpr hpara
  exact hloop _ _ (Nat.le_refl _)

theorem sent_paraElements {fuel : Nat} {tmp : Option Nat} {s c : Nat}
    (htmp : ∀ b ∈ tmp, doc.sent b = s) (hc : c ∈ doc.paraElements fuel tmp) : doc.sent c = s := by
  induction fuel generalizing tmp with
  | zero =>
      unfold paraElements at hc
      cases hc
  | succ fuel ih =>
      cases tmp with
      | none =>
          unfold paraElements at hc
          cases hc
      | some b =>
          have hb := htmp b rfl
          rw [paraElements] at hc
          split at hc
          · rcases List.mem_append.mp hc with hc | hc
            · exact (doc.child_sent b c (List.mem_filter.mp hc).1).trans hb
            · exact ih (fun b' hb' => (doc.parent_sent b b' hb').trans hb) hc
          · cases hc

theorem sent_listPredChildren {c : Nat} (hc : c ∈ doc.listPredChildren tp) :
    doc.sent c = doc.sent tp := by
  rcases List.mem_append.mp hc with hc | hc
  · exact doc.child_sent tp c (List.mem_filter.mp hc).1
  · split at hc
    · exact sent_paraElements (doc.parent_sent tp) hc
    · cases hc

theorem within_tag {a : Nat} (ha : doc.sent a < doc.senNum) (hdist : dist ≤ doc.sent a) :
    doc.Within dist (.tag (doc.sent a) (doc.node a).num) := by
  intro s i heq
  cases heq
  exact ⟨hdist, ha, doc.num_lt a ha⟩

theorem within_compoundChild {a : Nat} (ha : doc.sent a < doc.senNum) (hdist : dist ≤ doc.sent a) :
    ∀ p ∈ doc.searchCompoundChild a (doc.sent a), doc.Within dist p := by
  intro p hp
  obtain ⟨c, hc, rfl⟩ := List.mem_map.mp hp
  have hsent : doc.sent c = doc.sent a :=
    (doc.child_sent _ c (List.mem_filter.mp hc).1).trans (sent_skipPara a)
  rw [← hsent]
  exact within_tag (by omega) (by omega)

theorem within_searchCaseComponent {bp : Nat} (hbp : doc.sent bp < doc.senNum) :
    ∀ p ∈ doc.searchCaseComponent bp (doc.sent bp), doc.Within (doc.sent bp) p := by
  intro p hp
  unfold searchCaseComponent at hp
  split at hp
  next => cases hp
  next cpm hcpm =>
    rcases List.mem_append.mp hp with hp | hp
    · split at hp
      next => cases hp
      next =>
        obtain ⟨slot, hslot, hp⟩ := List.mem_flatMap.mp hp
        unfold searchSlot at hp
        split at hp
        next => cases hp
        next arg =>
          split at hp
          next =>
            rw [List.mem_singleton.mp hp]
            intro s i heq
            cases heq
          next elem helem =>
            obtain ⟨hsent, hlt⟩ := doc.arg_sent bp cpm hcpm arg hslot elem helem
            dsimp only at hp
            rw [← hsent] at hp
            have hle : doc.sent bp ≤ doc.sent elem := by
              rw [hsent]
              split <;> omega
            rcases List.mem_cons.mp hp with rfl | hp
            · exact within_tag (hlt hbp) hle
            · exact within_compoundChild (hlt hbp) hle p hp
    · obtain ⟨c, hc, hp⟩ := List.mem_flatMap.mp hp
      have hsent : doc.sent c = doc.sent bp :=
        (sent_listPredChildren hc).trans (doc.pred_sent bp cpm hcpm)
      rw [← hsent] at hp ⊢
      rcases List.mem_cons.mp hp with rfl | hp
      · exact within_tag (by omega) le_rfl
      · exact within_compoundChild (by omega) le_rfl p hp

/-! ## What the passes mark -/

variable (doc) in
/-- All marks are in the table and of some of the classes. -/
def MarksOf (dist : Nat) (classes : List Int) (ms : List (LcPlace × Int)) : Prop :=
  ∀ m ∈ ms, doc.Within dist m.1 ∧ m.2 ∈ classes

variable {classes : List Int} {ms ms' : List (LcPlace × Int)} {mc other : Int} {a : Nat}

theorem MarksOf.nil : doc.MarksOf dist classes [] := List.forall_mem_nil _

theorem MarksOf.append (h : doc.MarksOf dist classes ms) (h' : doc.MarksOf dist classes ms') :
    doc.MarksOf dist classes (ms ++ ms') := List.forall_mem_append.mpr ⟨h, h'⟩

theorem MarksOf.flatMap {l : List Nat} {f : Nat → List (LcPlace × Int)}
    (h : ∀ c ∈ l, doc.MarksOf dist classes (f c)) : doc.MarksOf dist classes (l.flatMap f) := by
  intro m hm
  obtain ⟨c, hc, hm⟩ := List.mem_flatMap.mp hm
  exact h c hc m hm

theorem marksOf_markAllChildren {lcNum : Int} (ha : doc.sent a = dist) (hdist : dist < doc.senNum)
    (hclass : lcNum ∈ classes) : doc.MarksOf dist classes (doc.markAllChildren a lcNum dist) := by
  subst ha
  intro m hm
  obtain ⟨p, hp, rfl⟩ := List.mem_map.mp hm
  refine ⟨?_, hclass⟩
  rcases List.mem_cons.mp hp with rfl | hp
  · exact within_tag hdist le_rfl
  · exact within_searchCaseComponent hdist p hp

theorem mcClass_mem (a : Nat) (hmc : mc ∈ classes) (hother : other ∈ classes) :
    doc.mcClass a mc other ∈ classes := by
  unfold mcClass
  split
  · exact hmc
  · exact hother

section Passes

variable (htp : doc.sent tp = 0)

include htp

theorem marksOf_searchPV (hmc : LOC_PV_MC ∈ classes) (hother : LOC_PV ∈ classes) :
    doc.MarksOf 0 classes (doc.searchPV tp) := by
  unfold searchPV
  split
  · split
    next parent hparent =>
      refine .flatMap fun c hc => ?_
      have hsent := doc.child_sent parent c (List.mem_filter.mp hc).1
      exact marksOf_markAllChildren (hsent.trans ((doc.parent_sent tp parent hparent).trans htp))
        doc.senNum_pos (mcClass_mem c hmc hother)
    next => exact .nil
  · exact .nil

omit htp in
theorem marksOf_markGovernor {gov num : Nat} (hgov : doc.sent gov = 0) (hmc : mc ∈ classes)
    (hother : other ∈ classes) : doc.MarksOf 0 classes (doc.markGovernor gov num mc other) := by
  unfold markGovernor
  split
  · refine .flatMap fun c hc => ?_
    have hsent := doc.child_sent gov c (List.mem_filter.mp hc).1
    exact marksOf_markAllChildren ((sent_skipPara c).trans (hsent.trans hgov)) doc.senNum_pos
      (mcClass_mem _ hmc hother)
  · exact marksOf_markAllChildren hgov doc.senNum_pos (mcClass_mem _ hmc hother)

theorem marksOf_searchParentV (hmc : LOC_PARENTV_MC ∈ classes) (hother : LOC_PARENTV ∈ classes) :
    doc.MarksOf 0 classes (doc.searchParentV tp) := by
  unfold searchParentV
  split
  next parent hparent =>
    split
    · exact marksOf_markGovernor ((doc.parent_sent tp parent hparent).trans htp) hmc hother
    · exact .nil
  next => exact .nil

theorem marksOf_searchGrandparent (yogen : Bool) (hmc : mc ∈ classes) (hother : other ∈ classes) :
    doc.MarksOf 0 classes (doc.searchGrandparent tp yogen mc other) := by
  unfold searchGrandparent
  split
  next parent hparent =>
    split
    next gov hgov =>
      split
      · have hsent := (doc.parent_sent tp parent hparent).trans htp
        exact marksOf_markGovernor ((doc.parent_sent parent gov hgov).trans hsent) hmc hother
      · exact .nil
    next => exact .nil
  next => exact .nil

theorem marksOf_searchChildPV (hclass : LOC_CHILDPV ∈ classes) :
    doc.MarksOf 0 classes (doc.searchChildPV tp) := by
  unfold searchChildPV
  split
  next parent hparent =>
    split
    · refine .flatMap fun c hc => ?_
      have hsent := doc.child_sent parent c (List.mem_filter.mp hc).1
      have hparent' := (doc.parent_sent tp parent hparent).trans htp
      exact marksOf_markAllChildren ((sent_skipPara c).trans (hsent.trans hparent'))
        doc.senNum_pos hclass
    · exact .nil
  next => exact .nil

theorem marksOf_searchChildV (hclass : LOC_CHILDV ∈ classes) :
    doc.MarksOf 0 classes (doc.searchChildV tp) := by
  unfold searchChildV
  split
  · refine .flatMap fun c hc => ?_
    have hsent := doc.child_sent tp c (List.mem_filter.mp hc).1
    exact marksOf_markAllChildren (hsent.trans htp) doc.senNum_pos hclass
  · exact .nil

end Passes

theorem sent_mainClause (hdist : dist < doc.senNum) : doc.sent (doc.mainClause dist) = dist := by
  have hlast : doc.tagNum dist - 1 < doc.tagNum dist := Nat.sub_lt (doc.tagNum_pos dist hdist)
    Nat.one_pos
  unfold mainClause
  dsimp only
  cases hfind : ((List.range (doc.tagNum dist)).reverse.map fun i =>
      doc.skipPara (doc.tagData dist i)).find? doc.checkMc with
  | none => exact (sent_skipPara _).trans (doc.sent_tagData dist hdist _ hlast)
  | some a =>
      obtain ⟨i, hi, rfl⟩ := List.mem_map.mp (List.mem_of_find?_eq_some hfind)
      exact (sent_skipPara _).trans
        (doc.sent_tagData dist hdist i (List.mem_range.mp (List.mem_reverse.mp hi)))

theorem marksOf_searchMC {ctp : Option Nat} (hdist : dist < doc.senNum)
    (hclass : distClass dist LOC_S2_MC LOC_S1_MC LOC_MC ∈ classes) :
    doc.MarksOf dist classes (doc.searchMC ctp dist) := by
  unfold searchMC
  split
  · exact marksOf_markAllChildren (sent_mainClause hdist) hdist hclass
  · exact .nil

theorem marksOf_searchSC {ctp : Option Nat} (hdist : dist < doc.senNum)
    (hclass : distClass dist LOC_S2_SC LOC_S1_SC LOC_SC ∈ classes) :
    doc.MarksOf dist classes (doc.searchSC ctp dist) := by
  unfold searchSC
  dsimp only
  split
  next tp htp =>
    refine .flatMap fun c hc => ?_
    obtain ⟨c', hc', rfl⟩ := List.mem_map.mp (List.mem_filter.mp hc).1
    obtain ⟨i, hi, rfl⟩ := List.mem_map.mp (List.mem_of_find?_eq_some htp)
    have hsent := doc.sent_tagData dist hdist i (List.mem_range.mp (List.mem_reverse.mp hi))
    have hchild := doc.child_sent _ c' (List.mem_of_mem_drop hc')
    exact marksOf_markAllChildren ((sent_skipPara c').trans (hchild.trans hsent)) hdist hclass
  next => exact .nil

/-- The classes of the passes. -/
def passClasses : List Int :=
  [END_M, LOC_PV_MC, LOC_PV, LOC_PARENTV_MC, LOC_PARENTV, LOC_PARENTNPARENTV_MC,
    LOC_PARENTNPARENTV, LOC_PARENTVPARENTV_MC, LOC_PARENTVPARENTV, LOC_CHILDPV, LOC_CHILDV, LOC_MC,
    LOC_SC]

theorem marksOf_passes (htp : doc.sent tp = 0) : doc.MarksOf 0 passClasses (doc.passes tp) := by
  have hown : doc.MarksOf 0 passClasses
      ((doc.searchCaseComponent tp 0).map fun p => (p, END_M)) := by
    intro m hm
    obtain ⟨p, hp, rfl⟩ := List.mem_map.mp hm
    refine ⟨?_, List.mem_cons_self⟩
    have hwithin : ∀ p ∈ doc.searchCaseComponent tp (doc.sent tp), doc.Within (doc.sent tp) p :=
      within_searchCaseComponent (by rw [htp]; exact doc.senNum_pos)
    rw [htp] at hwithin
    exact hwithin p hp
  unfold passes
  exact (((((((hown.append (marksOf_searchPV htp (by decide) (by decide))).append
    (marksOf_searchParentV htp (by decide) (by decide))).append
    (marksOf_searchGrandparent htp false (by decide) (by decide))).append
    (marksOf_searchGrandparent htp true (by decide) (by decide))).append
    (marksOf_searchChildPV htp (by decide))).append
    (marksOf_searchChildV htp (by decide))).append
    (marksOf_searchMC doc.senNum_pos (by decide))).append
    (marksOf_searchSC doc.senNum_pos (by decide))

/-! ## One part of the marking after the other -/

variable (doc) in
/-- What has a class keeps it; what gets one is in the sentence `dist` or before and gets one of
`classes`; all that is looked at is in the table. -/
structure Marked (dist : Nat) (classes : List Int) (st st' : LcState) : Prop where
  stays : ∀ p, st.lc p ≠ 0 → st'.lc p = st.lc p
  added : ∀ p, st.lc p = 0 → st'.lc p ≠ 0 → doc.Within dist p ∧ st'.lc p ∈ classes
  touched : (∀ p ∈ st.touched, doc.Within 0 p) → ∀ p ∈ st'.touched, doc.Within 0 p

variable {st st' st'' : LcState} {lcNum : Nat → Int}

theorem Within.mono {dist' : Nat} {p : LcPlace} (h : doc.Within dist p) (hle : dist' ≤ dist) :
    doc.Within dist' p := fun s i heq =>
  ⟨hle.trans (h s i heq).1, (h s i heq).2⟩

theorem Marked.refl (st : LcState) : doc.Marked dist classes st st :=
  ⟨fun _ _ => rfl, fun _ hzero hne => absurd hzero hne, id⟩

theorem Marked.trans (h : doc.Marked dist classes st st') (h' : doc.Marked dist classes st' st'') :
    doc.Marked dist classes st st'' := by
  refine ⟨fun p hp => ?_, fun p hzero hne => ?_, fun htouched => h'.touched (h.touched htouched)⟩
  · have hstay := h.stays p hp
    rw [h'.stays p (by rw [hstay]; exact hp), hstay]
  · by_cases hmid : st'.lc p = 0
    · exact h'.added p hmid hne
    · rw [h'.stays p hmid]
      exact h.added p hzero hmid

theorem Marked.mono {dist' : Nat} {classes' : List Int} (h : doc.Marked dist classes st st')
    (hle : dist' ≤ dist) (hsub : classes ⊆ classes') : doc.Marked dist' classes' st st' :=
  ⟨h.stays, fun p hzero hne => (h.added p hzero hne).imp (Within.mono · hle) (@hsub _), h.touched⟩

theorem MarksOf.marked (h : doc.MarksOf dist classes ms) :
    doc.Marked dist classes st (st.marks ms) := by
  refine ⟨fun p hp => marks_of_ne_zero hp, fun p hzero hne => ?_, fun htouched p hp => ?_⟩
  · obtain ⟨m, hm, rfl, hval⟩ := exists_of_marks hzero hne
    refine ⟨(h m hm).1, ?_⟩
    rw [show (st.marks ms).lc m.1 = m.2 from hval]
    exact (h m hm).2
  · rcases List.mem_append.mp hp with hp | hp
    · exact htouched p hp
    · obtain ⟨m, hm, rfl⟩ := List.mem_map.mp hp
      exact (h m hm).1.mono (Nat.zero_le dist)

theorem marked_set {q : LcPlace} {c : Int} (hq : doc.Within dist q) (hzero : st.lc q = 0)
    (hc : c ∈ classes) : doc.Marked dist classes st (st.set q c) := by
  refine ⟨fun p hp => ?_, fun p hz hne => ?_, fun htouched p hp => ?_⟩
  · refine Function.update_of_ne (fun heq => hp ?_) ..
    rw [heq]
    exact hzero
  · by_cases hp : p = q
    · subst hp
      refine ⟨hq, ?_⟩
      rw [show (st.set p c).lc p = c from Function.update_self ..]
      exact hc
    · exact absurd ((Function.update_of_ne hp ..).trans hz) hne
  · rcases List.mem_append.mp hp with hp | hp
    · exact htouched p hp
    · rw [List.mem_singleton.mp hp]
      exact hq.mono (Nat.zero_le dist)

/-- One tag that had no class, and what it reaches. -/
theorem marked_othersStep {i : Nat} (hdist : dist < doc.senNum) (hi : i < doc.tagNum dist)
    (hclass : lcNum i ∈ classes) :
    doc.Marked dist classes st (doc.othersStep dist lcNum st i) := by
  unfold othersStep
  split
  next => exact .refl st
  next hzero =>
    have hsent := doc.sent_tagData dist hdist i hi
    have hwithin : doc.Within dist (.tag dist i) := by
      intro s i' heq
      cases heq
      exact ⟨le_rfl, hdist, hi⟩
    exact (marked_set hwithin (not_not.mp hzero) hclass).trans
      (marksOf_markAllChildren hsent hdist hclass).marked

theorem marked_foldl_othersStep {l : List Nat} (hdist : dist < doc.senNum)
    (hl : ∀ i ∈ l, i < doc.tagNum dist) (hclass : ∀ i, lcNum i ∈ classes) :
    doc.Marked dist classes st (l.foldl (doc.othersStep dist lcNum) st) := by
  induction l generalizing st with
  | nil => exact .refl st
  | cons i l ih =>
      obtain ⟨hi, hl⟩ := List.forall_mem_cons.mp hl
      exact (marked_othersStep hdist hi (hclass i)).trans (ih hl)

/-- The loop over all tags as the loop of the library. -/
theorem lc_foldl_othersStep {n : Nat} (hdist : dist < doc.senNum) (hn : n ≤ doc.tagNum dist)
    (hclass : ∀ i, lcNum i ≠ 0) :
    ((List.range n).foldl (doc.othersStep dist lcNum) st).lc =
      (List.range n).foldl (expandStep (.tag dist) lcNum fun i =>
        doc.searchCaseComponent (doc.tagData dist i) dist) st.lc := by
  induction n with
  | zero => rfl
  | succ n ih =>
      rw [List.range_succ, List.foldl_append, List.foldl_append, ← ih (by omega), List.foldl_cons,
        List.foldl_cons, List.foldl_nil, List.foldl_nil]
      generalize (List.range n).foldl (doc.othersStep dist lcNum) st = st'
      unfold othersStep expandStep
      split
      next => rfl
      next hzero =>
        have hzero' : st'.lc (.tag dist n) = 0 := not_not.mp hzero
        have hset : (st'.set (.tag dist n) (lcNum n)).lc =
            FirstMark.mark st'.lc (.tag dist n, lcNum n) := by
          rw [FirstMark.mark, if_pos hzero']
          rfl
        have hagain : FirstMark.mark (FirstMark.mark st'.lc (.tag dist n, lcNum n))
            (.tag dist n, lcNum n) = FirstMark.mark st'.lc (.tag dist n, lcNum n) := by
          have hself : FirstMark.mark st'.lc (.tag dist n, lcNum n) (.tag dist n) = lcNum n :=
            mark_self hzero'
          have hne : FirstMark.mark st'.lc (.tag dist n, lcNum n) (.tag dist n) ≠ 0 := by
            rw [hself]
            exact hclass n
          rw [FirstMark.mark, if_neg hne]
        rw [LcState.marks, markAllChildren, hset, doc.num_tagData dist hdist n (by omega),
          List.map_cons, marks_cons, hagain, spread]
        rfl

/-! ## The current sentence -/

section Current

variable (htp : doc.sent tp = 0)

include htp

/-- `LC` after the passes. -/
theorem ne_zero_iff_passed (p : LcPlace) :
    FirstMark.marks (Function.update (fun _ => 0) (.tag 0 (doc.node tp).num) END_M)
        (doc.passes tp) p ≠ 0 ↔ doc.passed tp p = true := by
  have hmarks : ∀ m ∈ doc.passes tp, m.2 ≠ 0 := by
    intro m hm heq
    have hmem := (marksOf_passes htp m hm).2
    rw [heq] at hmem
    exact absurd hmem (by decide)
  rw [marks_ne_zero_iff hmarks, passed, Bool.or_eq_true, decide_eq_true_iff, decide_eq_true_iff]
  refine or_congr_left ?_
  by_cases hp : p = .tag 0 (doc.node tp).num
  · rw [hp, Function.update_self]
    exact iff_of_true (by decide) rfl
  · rw [Function.update_of_ne hp]
    exact iff_of_false (fun h => h rfl) hp

theorem class_of_passed {p : LcPlace} (hp : doc.passed tp p = true) :
    FirstMark.marks (Function.update (fun _ => 0) (.tag 0 (doc.node tp).num) END_M)
        (doc.passes tp) p ∈ passClasses := by
  have hne := (ne_zero_iff_passed htp p).mpr hp
  by_cases hown : p = .tag 0 (doc.node tp).num
  · have hset : Function.update (fun _ => (0 : Int)) (LcPlace.tag 0 (doc.node tp).num) END_M p =
        END_M := by
      rw [hown, Function.update_self]
    rw [marks_of_ne_zero (by rw [hset]; decide), hset]
    exact List.mem_cons_self
  · have hzero : Function.update (fun _ => (0 : Int)) (LcPlace.tag 0 (doc.node tp).num) END_M p =
        0 := Function.update_of_ne hown ..
    obtain ⟨m, hm, -, hval⟩ := exists_of_marks hzero hne
    rw [hval]
    exact (marksOf_passes htp m hm).2

omit htp in
theorem othersClass_ne_zero (i : Nat) : doc.othersClass tp i ≠ 0 := by
  unfold othersClass
  split <;> decide

/-- What the loop over the current sentence marks. -/
theorem lc_markCurrent : (doc.markCurrent tp).lc =
    FirstMark.marks (FirstMark.marks
        (Function.update (fun _ => 0) (.tag 0 (doc.node tp).num) END_M) (doc.passes tp))
      ((doc.otherTags tp (doc.tagNum 0)).flatMap
        (spread (.tag 0) (doc.othersClass tp) doc.reach)) := by
  have hpassed : (fun p => decide (FirstMark.marks
      (Function.update (fun _ => 0) (.tag 0 (doc.node tp).num) END_M) (doc.passes tp) p ≠ 0)) =
      doc.passed tp := by
    funext p
    rw [Bool.eq_iff_iff, decide_eq_true_iff]
    exact ne_zero_iff_passed htp p
  have hinj : Function.Injective (LcPlace.tag 0) := fun i j h => (LcPlace.tag.inj h).2
  rw [markCurrent, lc_foldl_othersStep doc.senNum_pos le_rfl othersClass_ne_zero]
  refine (foldl_expandStep hinj othersClass_ne_zero).trans ?_
  rw [otherTags, ← hpassed]
  rfl

/-- The tags in front of the predicate come first, and the predicate is not one of them. -/
theorem otherTags_split : ∃ rest, doc.otherTags tp (doc.tagNum 0) =
    doc.otherTags tp (doc.node tp).num ++ rest ∧ ∀ e ∈ rest, (doc.node tp).num < e := by
  have hnum := doc.num_lt tp (by rw [htp]; exact doc.senNum_pos)
  rw [htp] at hnum
  obtain ⟨rest, heq, hrest⟩ : ∃ rest, doc.otherTags tp (doc.tagNum 0) =
      doc.otherTags tp (doc.node tp).num ++ rest ∧ ∀ e ∈ rest, (doc.node tp).num ≤ e :=
    expanded_append hnum.le
  refine ⟨rest, heq, fun e he => lt_of_le_of_ne (hrest e he) ?_⟩
  rintro rfl
  have hmem : (doc.node tp).num ∈ doc.otherTags tp (doc.tagNum 0) := by
    rw [heq]
    exact List.mem_append_right _ he
  have hnot := not_marked_of_mem_expanded hmem
  rw [passed, decide_eq_true rfl, Bool.true_or] at hnot
  cases hnot

section Classes

variable {p : LcPlace}

theorem markCurrent_of_passed (hp : doc.passed tp p = true) :
    (doc.markCurrent tp).lc p ∈ passClasses := by
  rw [lc_markCurrent htp, marks_of_ne_zero ((ne_zero_iff_passed htp p).mpr hp)]
  exact class_of_passed htp hp

theorem lc_markCurrent_of_not_passed (hp : doc.passed tp p = false) :
    FirstMark.marks (Function.update (fun _ => 0) (.tag 0 (doc.node tp).num) END_M)
      (doc.passes tp) p = 0 := by
  by_contra hne
  rw [(ne_zero_iff_passed htp p).mp hne] at hp
  cases hp

theorem markCurrent_pre (hp : doc.passed tp p = false)
    (h : ∃ e ∈ doc.otherTags tp (doc.node tp).num, p ∈ LcPlace.tag 0 e :: doc.reach e) :
    (doc.markCurrent tp).lc p = LOC_PRE_OTHERS := by
  obtain ⟨rest, heq, -⟩ := otherTags_split htp
  have hpre : ∀ e ∈ doc.otherTags tp (doc.node tp).num,
      doc.othersClass tp e = LOC_PRE_OTHERS := fun e he => if_pos (lt_of_mem_expanded he)
  have hclass : FirstMark.marks _ ((doc.otherTags tp (doc.node tp).num).flatMap
      (spread (.tag 0) (doc.othersClass tp) doc.reach)) p = LOC_PRE_OTHERS :=
    marks_spreads_eq othersClass_ne_zero hpre (lc_markCurrent_of_not_passed htp hp) h
  rw [lc_markCurrent htp, heq, List.flatMap_append, marks_append, marks_of_ne_zero, hclass]
  rw [hclass]
  decide

theorem markCurrent_post (hp : doc.passed tp p = false)
    (hpre : ¬∃ e ∈ doc.otherTags tp (doc.node tp).num, p ∈ LcPlace.tag 0 e :: doc.reach e)
    (h : ∃ e ∈ doc.otherTags tp (doc.tagNum 0), p ∈ LcPlace.tag 0 e :: doc.reach e) :
    (doc.markCurrent tp).lc p = LOC_POST_OTHERS := by
  obtain ⟨rest, heq, hrest⟩ := otherTags_split htp
  have hpost : ∀ e ∈ rest, doc.othersClass tp e = LOC_POST_OTHERS := fun e he =>
    if_neg (Nat.lt_asymm (hrest e he))
  have hzero : FirstMark.marks (FirstMark.marks
      (Function.update (fun _ => 0) (.tag 0 (doc.node tp).num) END_M) (doc.passes tp))
      ((doc.otherTags tp (doc.node tp).num).flatMap
        (spread (.tag 0) (doc.othersClass tp) doc.reach)) p = 0 := by
    by_contra hne
    rcases (marks_spreads_ne_zero_iff othersClass_ne_zero).mp hne with hne | hreach
    · exact hne (lc_markCurrent_of_not_passed htp hp)
    · exact hpre hreach
  have hbehind : ∃ e ∈ rest, p ∈ LcPlace.tag 0 e :: doc.reach e := by
    obtain ⟨e, he, hreach⟩ := h
    rw [heq] at he
    rcases List.mem_append.mp he with he | he
    · exact absurd ⟨e, he, hreach⟩ hpre
    · exact ⟨e, he, hreach⟩
  rw [lc_markCurrent htp, heq, List.flatMap_append, marks_append]
  exact marks_spreads_eq othersClass_ne_zero hpost hzero hbehind

theorem markCurrent_zero (hp : doc.passed tp p = false)
    (h : ¬∃ e ∈ doc.otherTags tp (doc.tagNum 0), p ∈ LcPlace.tag 0 e :: doc.reach e) :
    (doc.markCurrent tp).lc p = 0 := by
  by_contra hne
  rw [lc_markCurrent htp] at hne
  rcases (marks_spreads_ne_zero_iff othersClass_ne_zero).mp hne with hne | hreach
  · exact hne (lc_markCurrent_of_not_passed htp hp)
  · exact h hreach

theorem not_passed_of_class (hlc : (doc.markCurrent tp).lc p ∉ passClasses) :
    doc.passed tp p = false :=
  Bool.eq_false_iff.mpr fun hp => hlc (markCurrent_of_passed htp hp)

theorem exists_of_pre (hlc : (doc.markCurrent tp).lc p = LOC_PRE_OTHERS) :
    ∃ e ∈ doc.otherTags tp (doc.node tp).num, p ∈ LcPlace.tag 0 e :: doc.reach e := by
  have hp : doc.passed tp p = false := not_passed_of_class htp (by rw [hlc]; decide)
  by_contra hpre
  by_cases hall : ∃ e ∈ doc.otherTags tp (doc.tagNum 0), p ∈ LcPlace.tag 0 e :: doc.reach e
  · rw [markCurrent_post htp hp hpre hall] at hlc
    exact absurd hlc (by decide)
  · rw [markCurrent_zero htp hp hall] at hlc
    exact absurd hlc (by decide)

theorem exists_of_post (hlc : (doc.markCurrent tp).lc p = LOC_POST_OTHERS) :
    (¬∃ e ∈ doc.otherTags tp (doc.node tp).num, p ∈ LcPlace.tag 0 e :: doc.reach e) ∧
      ∃ e ∈ doc.otherTags tp (doc.tagNum 0), (doc.node tp).num < e ∧
        p ∈ LcPlace.tag 0 e :: doc.reach e := by
  have hp : doc.passed tp p = false := not_passed_of_class htp (by rw [hlc]; decide)
  have hpre : ¬∃ e ∈ doc.otherTags tp (doc.node tp).num, p ∈ LcPlace.tag 0 e :: doc.reach e := by
    intro hpre
    rw [markCurrent_pre htp hp hpre] at hlc
    exact absurd hlc (by decide)
  refine ⟨hpre, ?_⟩
  have hall : ∃ e ∈ doc.otherTags tp (doc.tagNum 0), p ∈ LcPlace.tag 0 e :: doc.reach e := by
    by_contra hall
    rw [markCurrent_zero htp hp hall] at hlc
    exact absurd hlc (by decide)
  obtain ⟨e, he, hmem⟩ := hall
  refine ⟨e, he, ?_, hmem⟩
  obtain ⟨rest, heq, hrest⟩ := otherTags_split htp
  rw [heq] at he
  rcases List.mem_append.mp he with he | he
  · exact absurd ⟨e, he, hmem⟩ hpre
  · exact hrest e he

/-- The class of the predicate and of what it reaches. -/
theorem markCurrent_own (hp : p = .tag 0 (doc.node tp).num ∨ p ∈ doc.searchCaseComponent tp 0) :
    (doc.markCurrent tp).lc p = END_M := by
  have hpasses : ∃ ms, doc.passes tp = (doc.searchCaseComponent tp 0).map (fun p => (p, END_M)) ++
      ms := by
    simp only [passes, List.append_assoc]
    exact ⟨_, rfl⟩
  obtain ⟨ms, hms⟩ := hpasses
  have hfirst : FirstMark.marks
      (Function.update (fun _ => 0) (.tag 0 (doc.node tp).num) END_M)
      ((doc.searchCaseComponent tp 0).map fun p => (p, END_M)) p = END_M := by
    by_cases hown : p = .tag 0 (doc.node tp).num
    · subst hown
      have hset : Function.update (fun _ => (0 : Int)) (LcPlace.tag 0 (doc.node tp).num) END_M
          (.tag 0 (doc.node tp).num) = END_M := Function.update_self ..
      rw [marks_of_ne_zero (by rw [hset]; decide), hset]
    · have hmem : p ∈ doc.searchCaseComponent tp 0 := hp.resolve_left hown
      refine marks_eq_of_forall (Function.update_of_ne hown ..) ?_ ?_ ?_
      · exact List.mem_map.mpr ⟨(p, END_M), List.mem_map_of_mem hmem, rfl⟩
      · rintro m hm
        obtain ⟨q, -, rfl⟩ := List.mem_map.mp hm
        exact show END_M ≠ 0 by decide
      · rintro m hm -
        obtain ⟨q, -, rfl⟩ := List.mem_map.mp hm
        rfl
  have hne : END_M ≠ 0 := by decide
  rw [← hfirst] at hne
  rw [lc_markCurrent htp, hms, marks_append, marks_of_ne_zero, marks_of_ne_zero hne, hfirst]
  rw [marks_of_ne_zero hne]
  exact hne

end Classes

omit htp in
/-- All tags of the current sentence have a class. -/
theorem markCurrent_ne_zero {i : Nat} (hi : i < doc.tagNum 0) :
    (doc.markCurrent tp).lc (.tag 0 i) ≠ 0 := by
  have hinj : Function.Injective (LcPlace.tag 0) := fun i j h => (LcPlace.tag.inj h).2
  rw [markCurrent, lc_foldl_othersStep doc.senNum_pos le_rfl othersClass_ne_zero]
  exact foldl_expandStep_ne_zero hinj othersClass_ne_zero hi

theorem marked_markCurrent :
    doc.Marked 0 (LOC_PRE_OTHERS :: LOC_POST_OTHERS :: passClasses) ⟨fun _ => 0, []⟩
      (doc.markCurrent tp) := by
  have hnum := doc.num_lt tp (by rw [htp]; exact doc.senNum_pos)
  rw [htp] at hnum
  have hown : doc.Within 0 (.tag 0 (doc.node tp).num) := by
    intro s i heq
    cases heq
    exact ⟨le_rfl, doc.senNum_pos, hnum⟩
  have hset : doc.Marked 0 passClasses ⟨fun _ => 0, []⟩
      ((LcState.mk (fun _ => 0) []).set (.tag 0 (doc.node tp).num) END_M) :=
    marked_set hown rfl List.mem_cons_self
  have hsub : passClasses ⊆ LOC_PRE_OTHERS :: LOC_POST_OTHERS :: passClasses := fun c hc =>
    List.mem_cons_of_mem _ (List.mem_cons_of_mem _ hc)
  refine ((hset.trans (marksOf_passes htp).marked).mono le_rfl hsub).trans ?_
  refine marked_foldl_othersStep doc.senNum_pos (fun i hi => List.mem_range.mp hi) fun i => ?_
  unfold othersClass
  split
  · exact List.mem_cons_self
  · exact List.mem_cons_of_mem _ List.mem_cons_self

end Current

/-! ## The sentences before -/

section Previous

variable {others : Int}

theorem marked_markPrevious (hothers : others ∈ classes)
    (hmc : distClass dist LOC_S2_MC LOC_S1_MC LOC_MC ∈ classes)
    (hsc : distClass dist LOC_S2_SC LOC_S1_SC LOC_SC ∈ classes) :
    doc.Marked dist classes st (doc.markPrevious dist others st) := by
  unfold markPrevious
  split
  next hdist =>
    have hpasses : doc.MarksOf dist classes (doc.searchMC none dist ++ doc.searchSC none dist) :=
      (marksOf_searchMC hdist hmc).append (marksOf_searchSC hdist hsc)
    exact hpasses.marked.trans
      (marked_foldl_othersStep hdist (fun i hi => List.mem_range.mp hi) fun _ => hothers)
  next => exact .refl st

theorem markPrevious_ne_zero {i : Nat} (hothers : others ≠ 0) (hdist : dist < doc.senNum)
    (hi : i < doc.tagNum dist) : (doc.markPrevious dist others st).lc (.tag dist i) ≠ 0 := by
  have hinj : Function.Injective (LcPlace.tag dist) := fun i j h => (LcPlace.tag.inj h).2
  rw [markPrevious, if_pos hdist, lc_foldl_othersStep hdist le_rfl fun _ => hothers]
  exact foldl_expandStep_ne_zero hinj (fun _ => hothers) hi

/-- What is marked in the two sentences before. -/
theorem marked_previous :
    doc.Marked 1 previousClasses st
      (doc.markPrevious 2 LOC_S2_OTHERS (doc.markPrevious 1 LOC_S1_OTHERS st)) :=
  (marked_markPrevious (by decide) (by decide) (by decide)).trans
    ((marked_markPrevious (by decide) (by decide) (by decide)).mono (by decide) fun _ => id)

theorem mem_takeWhile_range' {a n m k : Nat} :
    k ∈ (List.range' a n).takeWhile (· < m) ↔ a ≤ k ∧ k < a + n ∧ k < m := by
  induction n generalizing a with
  | zero =>
      rw [List.range'_zero, List.takeWhile_nil]
      exact iff_of_false List.not_mem_nil (by omega)
  | succ n ih =>
      rw [List.range'_succ]
      by_cases ha : a < m
      · rw [List.takeWhile_cons_of_pos (by simpa using ha), List.mem_cons, ih]
        omega
      · rw [List.takeWhile_cons_of_neg (by simpa using ha)]
        exact iff_of_false List.not_mem_nil (by omega)

/-- 2文以前 -/
theorem mem_farTags {s i : Nat} : .tag s i ∈ doc.farTags ↔
    3 ≤ s ∧ s ≤ doc.prevSentenceLimit ∧ s < doc.senNum ∧ i < doc.tagNum s := by
  unfold farTags
  simp only [List.mem_flatMap, List.mem_map, List.mem_range, mem_takeWhile_range']
  constructor
  · rintro ⟨s', hs, i', hi, heq⟩
    cases heq
    omega
  · rintro ⟨hle, hlimit, hs, hi⟩
    exact ⟨s, by omega, i, hi, rfl⟩

/-- A place that is set to 0 has no class, whatever is set after it. -/
theorem foldl_set_others {l : List LcPlace} {p : LcPlace} (hp : p ∈ l ∨ st.lc p = LOC_OTHERS) :
    (l.foldl (fun st p => st.set p LOC_OTHERS) st).lc p = LOC_OTHERS := by
  induction l generalizing st with
  | nil => exact hp.resolve_left List.not_mem_nil
  | cons q l ih =>
      refine ih ?_
      by_cases hq : p = q
      · subst hq
        exact .inr (Function.update_self ..)
      · refine hp.imp (fun hp => (List.mem_cons.mp hp).resolve_left hq) fun hp => ?_
        exact (Function.update_of_ne hq ..).trans hp

theorem foldl_set_of_not_mem {l : List LcPlace} {p : LcPlace} (hp : p ∉ l) :
    (l.foldl (fun st p => st.set p LOC_OTHERS) st).lc p = st.lc p := by
  induction l generalizing st with
  | nil => rfl
  | cons q l ih =>
      rw [List.mem_cons, not_or] at hp
      exact (ih hp.2).trans (Function.update_of_ne hp.1 ..)

theorem touched_foldl_set {l : List LcPlace} :
    (l.foldl (fun st p => st.set p LOC_OTHERS) st).touched = st.touched ++ l := by
  induction l generalizing st with
  | nil => exact (List.append_nil _).symm
  | cons q l ih =>
      rw [List.foldl_cons, ih, LcState.set, List.append_assoc]
      rfl

end Previous

/-! ## The case elements -/

theorem mem_searchCaseComponent {p : LcPlace} (hp : p ∈ doc.caseElements tp) :
    p ∈ doc.searchCaseComponent tp 0 := by
  unfold caseElements at hp
  unfold searchCaseComponent
  split at hp
  next => cases hp
  next cpm hcpm =>
    refine List.mem_append_left _ ?_
    split at hp
    next => cases hp
    next hfailed =>
      rw [if_neg hfailed]
      obtain ⟨slot, hslot, hp⟩ := List.mem_filterMap.mp hp
      obtain ⟨arg, rfl, hp⟩ := Option.bind_eq_some_iff.mp hp
      obtain ⟨elem, helem, rfl⟩ := Option.map_eq_some_iff.mp hp
      refine List.mem_flatMap.mpr ⟨some arg, hslot, ?_⟩
      rw [searchSlot, helem]
      dsimp only
      rw [Nat.zero_add]
      exact List.mem_cons_self

/-! ## The result -/

section Result

variable {p : LcPlace} {s i : Nat}

/-- What the current sentence has got stays. -/
theorem markLocationClasses_of_ne_zero (hfar : p ∉ doc.farTags)
    (hp : (doc.markCurrent tp).lc p ≠ 0) :
    (doc.markLocationClasses tp).lc p = (doc.markCurrent tp).lc p := by
  rw [markLocationClasses, foldl_set_of_not_mem hfar]
  exact marked_previous.stays p hp

/-- What has no class when the current sentence is through gets one in a sentence before. -/
theorem markLocationClasses_of_zero (hfar : p ∉ doc.farTags)
    (hzero : (doc.markCurrent tp).lc p = 0) (hp : (doc.markLocationClasses tp).lc p ≠ 0) :
    doc.Within 1 p ∧ (doc.markLocationClasses tp).lc p ∈ previousClasses := by
  rw [markLocationClasses, foldl_set_of_not_mem hfar] at hp ⊢
  exact marked_previous.added p hzero hp

theorem markLocationClasses_far (hfar : p ∈ doc.farTags) :
    (doc.markLocationClasses tp).lc p = LOC_OTHERS :=
  foldl_set_others (.inl hfar)

/-- A class of the current sentence comes from its loop. -/
theorem markCurrent_of_class {c : Int} (hlc : (doc.markLocationClasses tp).lc p = c) (hne : c ≠ 0)
    (hclass : c ∉ previousClasses) : (doc.markCurrent tp).lc p = c := by
  have hfar : p ∉ doc.farTags := by
    intro hfar
    rw [markLocationClasses_far hfar] at hlc
    exact hne hlc.symm
  by_cases hzero : (doc.markCurrent tp).lc p = 0
  · have hadded := markLocationClasses_of_zero hfar hzero (by rw [hlc]; exact hne)
    rw [hlc] at hadded
    exact absurd hadded.2 hclass
  · rw [← hlc, markLocationClasses_of_ne_zero hfar hzero]

/-- All tags of the current sentence and the two before have a class. -/
theorem markLocationClasses_ne_zero (hs : s < doc.senNum) (hle : s ≤ 2) (hi : i < doc.tagNum s) :
    (doc.markLocationClasses tp).lc (.tag s i) ≠ 0 := by
  have hfar : LcPlace.tag s i ∉ doc.farTags := fun hfar => by
    have hthree := (mem_farTags.mp hfar).1
    omega
  rw [markLocationClasses, foldl_set_of_not_mem hfar]
  obtain rfl | rfl | rfl : s = 0 ∨ s = 1 ∨ s = 2 := by omega
  · have hcurrent : (doc.markCurrent tp).lc (.tag 0 i) ≠ 0 := markCurrent_ne_zero hi
    rw [marked_previous.stays _ hcurrent]
    exact hcurrent
  · have hprevious : (doc.markPrevious 1 LOC_S1_OTHERS (doc.markCurrent tp)).lc (.tag 1 i) ≠ 0 :=
      markPrevious_ne_zero (by decide) hs hi
    have hsecond : doc.Marked 2 previousClasses _ (doc.markPrevious 2 LOC_S2_OTHERS
        (doc.markPrevious 1 LOC_S1_OTHERS (doc.markCurrent tp))) :=
      marked_markPrevious (by decide) (by decide) (by decide)
    rw [hsecond.stays _ hprevious]
    exact hprevious
  · exact markPrevious_ne_zero (by decide) hs hi

end Result

section Law

variable (htp : doc.sent tp = 0)

include htp

theorem markLocationClasses_own {p : LcPlace} (hfar : p ∉ doc.farTags)
    (hp : p = .tag 0 (doc.node tp).num ∨ p ∈ doc.searchCaseComponent tp 0) :
    (doc.markLocationClasses tp).lc p = END_M := by
  have hown : (doc.markCurrent tp).lc p = END_M := markCurrent_own htp hp
  rw [markLocationClasses_of_ne_zero hfar (by rw [hown]; decide), hown]

/-- A class of the sentences before is given there. -/
theorem previous_of_class {s i : Nat}
    (hclass : (doc.markLocationClasses tp).lc (.tag s i) ∈ previousClasses) : 0 < s := by
  have hne : (doc.markLocationClasses tp).lc (.tag s i) ≠ 0 := by
    intro heq
    rw [heq] at hclass
    exact absurd hclass (by decide)
  have hfar : .tag s i ∉ doc.farTags := fun hfar => hne (markLocationClasses_far hfar)
  by_cases hzero : (doc.markCurrent tp).lc (.tag s i) = 0
  · exact ((markLocationClasses_of_zero hfar hzero hne).1 s i rfl).1
  · rw [markLocationClasses_of_ne_zero hfar hzero] at hclass
    have hmem := ((marked_markCurrent htp).added _ rfl hzero).2
    have hapart : ∀ c ∈ previousClasses, c ∉ LOC_PRE_OTHERS :: LOC_POST_OTHERS :: passClasses := by
      decide
    exact absurd hmem (hapart _ hclass)

theorem inside_of_touched {s i : Nat} (hmem : .tag s i ∈ (doc.markLocationClasses tp).touched) :
    s < doc.senNum ∧ i < TAG_MAX := by
  have hplace : s < doc.senNum ∧ i < doc.tagNum s := by
    rw [markLocationClasses, touched_foldl_set] at hmem
    rcases List.mem_append.mp hmem with hmem | hmem
    · have hcurrent := (marked_markCurrent htp).touched (List.forall_mem_nil _)
      exact ((marked_previous.touched hcurrent _ hmem) s i rfl).2
    · exact (mem_farTags.mp hmem).2.2
  exact ⟨hplace.1, lt_of_lt_of_le hplace.2 (doc.tagNum_le s hplace.1)⟩

/-- The classes of all tags. -/
theorem reachLaw : doc.ReachLaw tp (doc.markLocationClasses tp) where
  own := by
    refine markLocationClasses_own htp (fun hfar => ?_) (.inl rfl)
    have hthree := (mem_farTags.mp hfar).1
    omega
  elements s i hp hs := by
    refine markLocationClasses_own htp (fun hfar => ?_) (.inr (mem_searchCaseComponent hp))
    have hplace := mem_farTags.mp hfar
    omega
  classified s hs hle i hi := markLocationClasses_ne_zero hs hle hi
  far s hs hle hlimit i hi := markLocationClasses_far (mem_farTags.mpr ⟨hle, hlimit, hs, hi⟩)
  pre s i hlc := by
    have hcurrent := markCurrent_of_class hlc (by decide) (by decide)
    obtain ⟨e, he, hmem⟩ := exists_of_pre htp hcurrent
    exact ⟨e, lt_of_mem_expanded he, hmem⟩
  post s i hlc := by
    have hcurrent := markCurrent_of_class hlc (by decide) (by decide)
    obtain ⟨-, e, he, hlt, hmem⟩ := exists_of_post htp hcurrent
    exact ⟨e, hlt, lt_of_mem_expanded he, hmem⟩
  previous s i hclass := previous_of_class htp hclass
  inside s i hmem := inside_of_touched htp hmem

/-! ## Classes that tell where a tag lies -/

omit htp in
theorem ClassLaw.near (h : doc.ClassLaw tp (doc.markLocationClasses tp)) :
    doc.prevSentenceLimit ≤ 2 ∨ doc.senNum ≤ 3 := by
  by_contra hfar
  obtain ⟨hlimit, hsen⟩ : 3 ≤ doc.prevSentenceLimit ∧ 3 < doc.senNum := by omega
  have hpos := doc.tagNum_pos 3 hsen
  exact h.classified 3 hsen (.inr hlimit) 0 hpos
    (markLocationClasses_far (mem_farTags.mpr ⟨le_rfl, hlimit, hsen, hpos⟩))

omit htp in
theorem not_mem_farTags (hnear : doc.prevSentenceLimit ≤ 2 ∨ doc.senNum ≤ 3) {s i : Nat} :
    LcPlace.tag s i ∉ doc.farTags := by
  intro hfar
  have hplace := mem_farTags.mp hfar
  omega

theorem ClassLaw.classable (h : doc.ClassLaw tp (doc.markLocationClasses tp)) :
    doc.Classable tp := by
  refine ⟨h.near, fun e he i hi hreach => ?_, fun e he _ s i hs hreach => ?_⟩
  · by_contra hpassed
    have hpre : (doc.markCurrent tp).lc (.tag 0 i) = LOC_PRE_OTHERS :=
      markCurrent_pre htp (Bool.eq_false_iff.mpr hpassed) ⟨e, he, List.mem_cons_of_mem _ hreach⟩
    have hlc : (doc.markLocationClasses tp).lc (.tag 0 i) = LOC_PRE_OTHERS := by
      rw [markLocationClasses_of_ne_zero (not_mem_farTags h.near) (by rw [hpre]; decide), hpre]
    have hside := h.pre 0 i hlc
    omega
  · by_contra hnot
    obtain ⟨hpassed, hfront⟩ := not_or.mp hnot
    have hpre : ¬∃ e ∈ doc.otherTags tp (doc.node tp).num,
        .tag s i ∈ LcPlace.tag 0 e :: doc.reach e := by
      rintro ⟨e', he', hmem⟩
      rcases List.mem_cons.mp hmem with heq | hmem
      · cases heq
        exact absurd hs (Nat.lt_irrefl 0)
      · exact hfront ⟨e', he', hmem⟩
    have hpost : (doc.markCurrent tp).lc (.tag s i) = LOC_POST_OTHERS :=
      markCurrent_post htp (Bool.eq_false_iff.mpr hpassed) hpre
        ⟨e, he, List.mem_cons_of_mem _ hreach⟩
    have hlc : (doc.markLocationClasses tp).lc (.tag s i) = LOC_POST_OTHERS := by
      rw [markLocationClasses_of_ne_zero (not_mem_farTags h.near) (by rw [hpost]; decide), hpost]
    have hside := h.post s i hlc
    omega

section Classable

variable (h : doc.Classable tp) {s i : Nat}

include h

theorem Classable.pre_side (hlc : (doc.markCurrent tp).lc (.tag s i) = LOC_PRE_OTHERS) :
    0 < s ∨ i < (doc.node tp).num := by
  have hpassed : doc.passed tp (.tag s i) = false :=
    not_passed_of_class htp (by rw [hlc]; decide)
  obtain ⟨e, he, hmem⟩ := exists_of_pre htp hlc
  rcases List.mem_cons.mp hmem with heq | hmem
  · cases heq
    exact .inr (lt_of_mem_expanded he)
  · by_contra hside
    obtain ⟨rfl, hle⟩ : s = 0 ∧ (doc.node tp).num ≤ i := by omega
    rcases lt_or_eq_of_le hle with hlt | rfl
    · rw [h.front e he i hlt hmem] at hpassed
      cases hpassed
    · rw [passed, decide_eq_true rfl, Bool.true_or] at hpassed
      cases hpassed

theorem Classable.post_side (hlc : (doc.markCurrent tp).lc (.tag s i) = LOC_POST_OTHERS) :
    s = 0 ∧ (doc.node tp).num < i := by
  have hpassed : doc.passed tp (.tag s i) = false :=
    not_passed_of_class htp (by rw [hlc]; decide)
  obtain ⟨hpre, e, he, hbehind, hmem⟩ := exists_of_post htp hlc
  have hzero : s = 0 := by
    by_contra hs
    rcases List.mem_cons.mp hmem with heq | hmem
    · cases heq
      exact hs rfl
    · rcases h.behind e he hbehind s i (Nat.pos_of_ne_zero hs) hmem with htrue | ⟨e', he', hmem'⟩
      · rw [htrue] at hpassed
        cases hpassed
      · exact hpre ⟨e', he', List.mem_cons_of_mem _ hmem'⟩
  subst hzero
  refine ⟨rfl, lt_of_not_ge fun hle => ?_⟩
  rcases lt_or_eq_of_le hle with hlt | rfl
  · rcases covered_of_lt (LcPlace.tag 0) doc.reach (doc.passed tp) hlt with htrue | hcovered
    · rw [htrue] at hpassed
      cases hpassed
    · exact hpre hcovered
  · rw [passed, decide_eq_true rfl, Bool.true_or] at hpassed
    cases hpassed

theorem Classable.classLaw : doc.ClassLaw tp (doc.markLocationClasses tp) where
  own := markLocationClasses_own htp (not_mem_farTags h.near) (.inl rfl)
  elements s i hp :=
    markLocationClasses_own htp (not_mem_farTags h.near) (.inr (mem_searchCaseComponent hp))
  classified s hs hlimit i hi := by
    refine markLocationClasses_ne_zero hs ?_ hi
    have hnear := h.near
    omega
  pre s i hlc := by
    have hcurrent := markCurrent_of_class hlc (by decide) (by decide)
    exact h.pre_side htp hcurrent
  post s i hlc := by
    have hcurrent := markCurrent_of_class hlc (by decide) (by decide)
    exact h.post_side htp hcurrent
  previous s i hclass := previous_of_class htp hclass
  inside s i hmem := inside_of_touched htp hmem

end Classable

/-- **The classes tell where the tags lie exactly where no tag reaches the other side.** -/
theorem classLaw_iff :
    doc.ClassLaw tp (doc.markLocationClasses tp) ↔ doc.Classable tp :=
  ⟨ClassLaw.classable htp, Classable.classLaw htp⟩

end Law

/-! ## A noun behind the predicate -/

/-- A tag that is no `<PARA>` and in no parallel. -/
def plainTag (num : Nat) (parent : Option Nat) (child : List Nat) (features : List String)
    (cpmPtr : Option LcCpm) : LcTag where
  num := num
  parent := parent
  child := child
  paraTopP := false
  paraType := .nil
  checkFeature f := f ∈ features
  subordinateLevelB := false
  cpmPtr := cpmPtr

/-- A predicate with one slot. -/
def oneSlot (predBPtr : Nat) (arg : LcArg) : Option LcCpm := some ⟨predBPtr, false, [some arg]⟩

/-- Two predicates for the noun 2, of which the second one has an element three sentences before,
and a predicate behind them with an element in the sentence before. -/
def crossTags : List LcTag :=
  [plainTag 0 (some 2) [] ["用言"] (oneSlot 0 ⟨some 2, false, 0⟩),
    plainTag 1 (some 2) [] ["用言"] (oneSlot 1 ⟨some 7, true, 3⟩),
    plainTag 2 (some 4) [0, 1] [] none,
    plainTag 3 (some 4) [] ["用言"] (oneSlot 3 ⟨some 5, true, 1⟩),
    plainTag 4 none [2, 3] ["主節"] none]

def crossNode (a : Nat) : LcTag := crossTags.getD a (plainTag 0 none [] [] none)

theorem crossNode_of_le {a : Nat} (h : 5 ≤ a) : crossNode a = plainTag 0 none [] [] none :=
  List.getD_eq_default _ _ h

/-- What is to be shown of all tags is shown of the five, and of one that is alone. -/
theorem forall_crossNode {P : Nat → LcTag → Prop} (h : ∀ a < 5, P a (crossNode a))
    (halone : ∀ a, 5 ≤ a → P a (plainTag 0 none [] [] none)) (a : Nat) : P a (crossNode a) := by
  rcases Nat.lt_or_ge a 5 with ha | ha
  · exact h a ha
  · rw [crossNode_of_le ha]
    exact halone a ha

def crossDoc : LcDoc where
  senNum := 4
  tagNum s := if s = 0 then 5 else 1
  tagData s i := if s = 0 then i else s + 4
  node := crossNode
  prevSentenceLimit := 3
  sent a := a - 4
  depth a := 4 - a
  paraDepth _ := 0
  senNum_pos := by decide
  tagNum_pos := by decide
  tagNum_le := by decide
  sent_tagData := by decide
  num_tagData := by decide
  num_lt := by
    refine forall_crossNode (P := fun a tag => a - 4 < 4 → tag.num < if a - 4 = 0 then 5 else 1)
      (by decide) fun a ha _ => ?_
    rw [if_neg (by omega)]
    exact Nat.one_pos
  parent_sent :=
    forall_crossNode (P := fun a tag => ∀ b ∈ tag.parent, b - 4 = a - 4) (by decide)
      fun _ _ b hb => absurd hb (Option.not_mem_none b)
  parent_depth :=
    forall_crossNode (P := fun a tag => ∀ b ∈ tag.parent, 4 - b < 4 - a) (by decide)
      fun _ _ b hb => absurd hb (Option.not_mem_none b)
  child_sent :=
    forall_crossNode (P := fun a tag => ∀ b ∈ tag.child, b - 4 = a - 4) (by decide)
      fun _ _ b hb => absurd hb List.not_mem_nil
  para_child :=
    forall_crossNode (P := fun _ tag => tag.paraTopP = true → ∃ b ∈ tag.child.head?, 0 < 0)
      (by decide) fun _ _ hb => absurd hb Bool.false_ne_true
  pred_sent :=
    forall_crossNode (P := fun a tag => ∀ cpm ∈ tag.cpmPtr, cpm.predBPtr - 4 = a - 4) (by decide)
      fun _ _ cpm hcpm => absurd hcpm (Option.not_mem_none cpm)
  arg_sent a cpm hcpm arg hslot b hb :=
    forall_crossNode (P := fun a tag => ∀ cpm ∈ tag.cpmPtr, ∀ slot ∈ cpm.slots, ∀ arg ∈ slot,
        ∀ b ∈ arg.elemBPtr, b - 4 = (if arg.elided then a - 4 + arg.back else a - 4) ∧
          (a - 4 < 4 → b - 4 < 4))
      (by decide) (fun _ _ cpm hcpm => absurd hcpm (Option.not_mem_none cpm))
      a cpm hcpm (some arg) hslot arg rfl b hb

theorem crossDoc_reachLaw : crossDoc.ReachLaw 1 (crossDoc.markLocationClasses 1) :=
  reachLaw rfl

/-- The noun is behind the predicate and has the class of the tags in front of it, an element of the
sentence before has that of the tags behind, and the tag three sentences before, an element of the
predicate, has 0. -/
theorem crossDoc_not_lawful :
    ¬crossDoc.ClassLaw 1 (crossDoc.markLocationClasses 1) ∧
      (crossDoc.markLocationClasses 1).lc (.tag 0 2) = LOC_PRE_OTHERS ∧
      (crossDoc.markLocationClasses 1).lc (.tag 1 0) = LOC_POST_OTHERS ∧
      .tag 3 0 ∈ crossDoc.caseElements 1 ∧
      (crossDoc.markLocationClasses 1).lc (.tag 3 0) = 0 := by
  have hpre : (crossDoc.markLocationClasses 1).lc (.tag 0 2) = LOC_PRE_OTHERS := by decide
  have hpost : (crossDoc.markLocationClasses 1).lc (.tag 1 0) = LOC_POST_OTHERS := by decide
  have hfar : (crossDoc.markLocationClasses 1).lc (.tag 3 0) = 0 := by decide
  refine ⟨fun h => ?_, hpre, hpost, by decide, hfar⟩
  exact absurd (h.pre 0 2 hpre) (by decide)

theorem crossDoc_not_classable : ¬crossDoc.Classable 1 := fun h =>
  have hpre : (crossDoc.markLocationClasses 1).lc (.tag 0 2) = LOC_PRE_OTHERS := by decide
  absurd (((@classLaw_iff crossDoc 1 rfl).mpr h).pre 0 2 hpre) (by decide)

end LcDoc

end Knp
