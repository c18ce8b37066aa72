import Knp.CaseMatch
import Knp.CfFrame
import Knp.MrphDpnd

/-!
# The case structure of a predicate with its functional tags (`set_tag_case_frame`)

A tag that is a main verb (本動詞的基本句) is analysed together with the functional
tags it depends on: the arguments of each are appended to its own. For an appended
argument two maps name the functional tag and the argument there. The frame `cf` of the
whole has the rows of the main verb only, under the number of all arguments.

> The rows of `cf` are those the two maps lead to if and only if its memory
> behind the main verb's arguments happens to list the others' cases. Nothing
> keeps the arguments and the tags within the arrays.

The frames come from `malloc` and are filled by `make_data_cframe` for as many rows as
there are arguments; `spare` is what the memory of a frame held before.
-/

namespace Knp

def FUNCTIONAL_TAG_MAX : Nat := 5

/-- `TAG_DATA` -/
structure PredTag where
  num : Nat
  f : List String
  voice : Int

/-- What `set_tag_case_frame` writes to a frame before it is filled. -/
structure FrameHead where
  type : CfType
  predType : String
  voice : Int

/-- An argument that `make_data_cframe` finds. The row of one that comes with neither
a case marker nor a rule is not written. -/
structure DataElement where
  bPtr : Nat
  bNum : Int
  pp : Option (List Int)

/-- `CASE_FRAME` of the sentence; a row lists the codes in front of `END_M`. -/
structure DataFrame where
  head : FrameHead
  elementNum : Nat
  pp : Nat → List Int

namespace DataFrame

/-- The frame that holds the arguments `es`, in memory that held `spare`. -/
def fill (head : FrameHead) (spare : Nat → List Int) (es : List DataElement) : DataFrame where
  head := head
  elementNum := es.length
  pp i := ((es[i]?).bind DataElement.pp).getD (spare i)

@[simp] theorem fill_elementNum (head : FrameHead) (spare : Nat → List Int)
    (es : List DataElement) : (fill head spare es).elementNum = es.length := rfl

theorem fill_pp_of_le (head : FrameHead) (spare : Nat → List Int) {es : List DataElement} {i : Nat}
    (h : es.length ≤ i) : (fill head spare es).pp i = spare i := by
  simp [fill, List.getElem?_eq_none h]

/-- The rows of the arguments. -/
def rows (cf : DataFrame) : List (List Int) := (List.range cf.elementNum).map cf.pp

@[simp] theorem length_rows (cf : DataFrame) : cf.rows.length = cf.elementNum := by
  simp [rows]

end DataFrame

/-- An index of the parallel arrays `elem_b_ptr`, `elem_b_num`, `map_tcf_elem_to_cf` and
`map_tcf_elem_to_cf_elem`. -/
structure TcfElement where
  bPtr : Nat
  bNum : Int
  toCf : Nat
  toCfElem : Nat

/-- `TAG_CASE_FRAME`: the cells of its arrays that are written. -/
structure TagCaseFrame where
  cf : DataFrame
  cfWithFunctionalTag : List DataFrame
  predBPtr : Nat
  elems : List TcfElement

namespace TagCaseFrame

/-- The cases of an argument, through the maps. -/
def readMapped (t : TagCaseFrame) (e : TcfElement) : Option (List Int) :=
  (t.cfWithFunctionalTag[e.toCf]?).map fun cf => cf.pp e.toCfElem

/-- The indices are within the arrays, and both ways to an argument's cases agree. -/
structure Agrees (t : TagCaseFrame) : Prop where
  elem_lt : ∀ i < t.elems.length, i < CF_ELEMENT_MAX
  frame_lt : ∀ k < t.cfWithFunctionalTag.length, k < FUNCTIONAL_TAG_MAX
  elementNum_eq : t.cf.elementNum = t.elems.length
  pp_eq : ∀ (i : Nat) (h : i < t.elems.length), t.readMapped t.elems[i] = some (t.cf.pp i)

/-! ## The function -/

section Set

variable (checkAnalyzeTag : PredTag → Option CfType) (substanceTagPtr : Nat → Nat)
variable (makeDataCframe : FrameHead → PredTag → List DataElement)
variable (spare : Nat → Nat → List Int)

/-- 表層の用言: what follows `用言:`. -/
def vtype (tag : PredTag) : String :=
  String.ofList (((checkFeature tag.f "用言").getD "").toList.drop "用言:".length)

/-- The head of the frames, which the functional tags share but for the voice. -/
def frameHead (tag p : PredTag) : FrameHead :=
  if checkAnalyzeTag tag = some .pred then ⟨.pred, vtype tag, p.voice⟩ else ⟨.noun, "名", p.voice⟩

/-- The frame of a tag `p` of the chain, the `k`th. -/
def frameOf (tag : PredTag) (k : Nat) (p : PredTag) : DataFrame :=
  DataFrame.fill (frameHead checkAnalyzeTag tag p) (spare k)
    (makeDataCframe (frameHead checkAnalyzeTag tag p) p)

/-- The arguments of the frame that is stored next, and the frame. -/
def add (t : TagCaseFrame) (cf : DataFrame) (es : List DataElement) : TagCaseFrame :=
  { t with
    elems := t.elems ++ es.mapIdx fun i e =>
      ⟨substanceTagPtr e.bPtr, e.bNum, t.cfWithFunctionalTag.length, i⟩
    cfWithFunctionalTag := t.cfWithFunctionalTag ++ [cf] }

/-- One tag of the chain. -/
def addTag (tag : PredTag) (t : TagCaseFrame) (p : PredTag) : TagCaseFrame :=
  t.add substanceTagPtr (frameOf checkAnalyzeTag makeDataCframe spare tag
      t.cfWithFunctionalTag.length p)
    (makeDataCframe (frameHead checkAnalyzeTag tag p) p)

/-- `while (parent_ptr && check_feature(parent_ptr->f, "機能的基本句"))` -/
def addFunctional (tag : PredTag) : List PredTag → TagCaseFrame → TagCaseFrame
  | [], t => t
  | p :: ps, t =>
    if hasFeature p.f "機能的基本句" then
      addFunctional tag ps (t.addTag checkAnalyzeTag substanceTagPtr makeDataCframe spare tag p)
    else t

/-- `tcf_ptr->cf.element_num = tcf_element_num` -/
def setElementNum (t : TagCaseFrame) : TagCaseFrame :=
  { t with cf := { t.cf with elementNum := t.elems.length } }

/-- `set_tag_case_frame`, for a tag and the tags above it. -/
def setTagCaseFrame (tag : PredTag) (parents : List PredTag) : TagCaseFrame :=
  let t := addTag checkAnalyzeTag substanceTagPtr makeDataCframe spare tag
    ⟨frameOf checkAnalyzeTag makeDataCframe spare tag 0 tag, [], tag.num, []⟩ tag
  if hasFeature tag.f "本動詞的基本句" then
    (addFunctional checkAnalyzeTag substanceTagPtr makeDataCframe spare tag parents t).setElementNum
  else t.setElementNum

/-- The functional tags whose arguments are taken. -/
def functionalTags (tag : PredTag) (parents : List PredTag) : List PredTag :=
  if hasFeature tag.f "本動詞的基本句" then
    parents.takeWhile fun p => hasFeature p.f "機能的基本句"
  else []

end Set

/-! ## What the maps lead to -/

/-- The arguments are, through the maps, those with the cases `rows`. -/
def Reads (t : TagCaseFrame) (rows : List (List Int)) : Prop :=
  t.elems.map t.readMapped = rows.map some

namespace Reads

variable {t : TagCaseFrame} {rows : List (List Int)}

theorem length_eq (h : t.Reads rows) : t.elems.length = rows.length := by
  simpa using congrArg List.length h

theorem readMapped_eq (h : t.Reads rows) (i : Nat) (hi : i < t.elems.length) :
    t.readMapped t.elems[i] = rows[i]? := by
  have hrow : i < rows.length := h.length_eq ▸ hi
  have hget := congrArg (fun l => l[i]?) h
  simpa [hi, hrow] using hget

theorem toCf_lt (h : t.Reads rows) {e : TcfElement} (he : e ∈ t.elems) :
    e.toCf < t.cfWithFunctionalTag.length := by
  obtain ⟨i, hi, rfl⟩ := List.getElem_of_mem he
  by_contra hge
  have hread := h.readMapped_eq i hi
  rw [readMapped, List.getElem?_eq_none (not_lt.mp hge),
    List.getElem?_eq_getElem (h.length_eq ▸ hi)] at hread
  exact nomatch hread

/-- The arguments of the next frame come behind those that are there. -/
theorem add (h : t.Reads rows) (substanceTagPtr : Nat → Nat) {cf : DataFrame}
    {es : List DataElement} (hes : cf.elementNum = es.length) :
    (t.add substanceTagPtr cf es).Reads (rows ++ cf.rows) := by
  have hold : t.elems.map (t.add substanceTagPtr cf es).readMapped = t.elems.map t.readMapped :=
    List.map_congr_left fun e he => by
      simp [readMapped, TagCaseFrame.add, List.getElem?_append_left (h.toCf_lt he)]
  have hnew : (es.mapIdx fun i e => TcfElement.mk (substanceTagPtr e.bPtr) e.bNum
      t.cfWithFunctionalTag.length i).map (t.add substanceTagPtr cf es).readMapped =
      cf.rows.map some := by
    apply List.ext_getElem
    · simp [hes]
    · intro i h₁ h₂
      simp [readMapped, TagCaseFrame.add, DataFrame.rows]
  rw [Reads, List.map_append, ← h, ← hnew, ← hold, ← List.map_append]
  rfl

end Reads

section Run

variable (checkAnalyzeTag : PredTag → Option CfType) (substanceTagPtr : Nat → Nat)
variable (makeDataCframe : FrameHead → PredTag → List DataElement)
variable (spare : Nat → Nat → List Int)

theorem addFunctional_eq_foldl (tag : PredTag) (ps : List PredTag) (t : TagCaseFrame) :
    addFunctional checkAnalyzeTag substanceTagPtr makeDataCframe spare tag ps t =
      (ps.takeWhile fun p => hasFeature p.f "機能的基本句").foldl
        (addTag checkAnalyzeTag substanceTagPtr makeDataCframe spare tag) t := by
  induction ps generalizing t with
  | nil => rfl
  | cons p ps ih =>
    rw [addFunctional, List.takeWhile_cons]
    split
    · rw [ih]
      simp [*]
    · simp [*]

/-- The frames of the tags `qs` from the number `k` on. -/
def framesOf (tag : PredTag) (k : Nat) (qs : List PredTag) : List DataFrame :=
  qs.mapIdx fun j p => frameOf checkAnalyzeTag makeDataCframe spare tag (k + j) p

theorem framesOf_cons (tag : PredTag) (k : Nat) (p : PredTag) (qs : List PredTag) :
    framesOf checkAnalyzeTag makeDataCframe spare tag k (p :: qs) =
      frameOf checkAnalyzeTag makeDataCframe spare tag k p ::
        framesOf checkAnalyzeTag makeDataCframe spare tag (k + 1) qs := by
  simp [framesOf, List.mapIdx_cons, Nat.add_assoc, Nat.add_comm 1]

@[simp] theorem addTag_length (tag p : PredTag) (t : TagCaseFrame) :
    (addTag checkAnalyzeTag substanceTagPtr makeDataCframe spare tag t p).cfWithFunctionalTag.length =
      t.cfWithFunctionalTag.length + 1 := by
  simp [addTag, add]

theorem Reads.addTag {t : TagCaseFrame} {rows : List (List Int)} (h : t.Reads rows)
    (tag p : PredTag) :
    (t.addTag checkAnalyzeTag substanceTagPtr makeDataCframe spare tag p).Reads
      (rows ++ (frameOf checkAnalyzeTag makeDataCframe spare tag
        t.cfWithFunctionalTag.length p).rows) :=
  h.add substanceTagPtr (DataFrame.fill_elementNum _ _ _)

theorem addTag_foldl (tag : PredTag) (qs : List PredTag) {t : TagCaseFrame}
    {rows : List (List Int)} (h : t.Reads rows) :
    let t' := qs.foldl (addTag checkAnalyzeTag substanceTagPtr makeDataCframe spare tag) t
    t'.Reads (rows ++ (framesOf checkAnalyzeTag makeDataCframe spare tag
        t.cfWithFunctionalTag.length qs).flatMap DataFrame.rows) ∧
      t'.cfWithFunctionalTag.length = t.cfWithFunctionalTag.length + qs.length ∧ t'.cf = t.cf := by
  induction qs generalizing t rows with
  | nil => simpa [framesOf] using h
  | cons p qs ih =>
    obtain ⟨hreads, hlen, hcf⟩ :=
      ih (h.addTag checkAnalyzeTag substanceTagPtr makeDataCframe spare tag p)
    rw [addTag_length] at hreads hlen
    refine ⟨?_, ?_, hcf⟩
    · rw [framesOf_cons, List.flatMap_cons, ← List.append_assoc]
      exact hreads
    · rw [List.foldl_cons, List.length_cons, hlen]
      omega

/-- The cases of the arguments of the functional tags, one tag after the other. -/
def functionalRows (tag : PredTag) (parents : List PredTag) : List (List Int) :=
  (framesOf checkAnalyzeTag makeDataCframe spare tag 1
    (functionalTags tag parents)).flatMap DataFrame.rows

/-- The arguments of a tag of the chain. -/
def argsOf (tag p : PredTag) : List DataElement :=
  makeDataCframe (frameHead checkAnalyzeTag tag p) p

theorem setTagCaseFrame_eq_foldl (tag : PredTag) (parents : List PredTag) :
    setTagCaseFrame checkAnalyzeTag substanceTagPtr makeDataCframe spare tag parents =
      ((tag :: functionalTags tag parents).foldl
        (addTag checkAnalyzeTag substanceTagPtr makeDataCframe spare tag)
        ⟨frameOf checkAnalyzeTag makeDataCframe spare tag 0 tag, [], tag.num, []⟩).setElementNum := by
  rw [setTagCaseFrame, functionalTags, addFunctional_eq_foldl, List.foldl_cons]
  split <;> rfl

/-- The frame of the whole is the main verb's, with the number of all arguments; the maps lead
to the cases of the main verb's and then of the functional tags' arguments. -/
theorem setTagCaseFrame_reads (tag : PredTag) (parents : List PredTag) :
    let t := setTagCaseFrame checkAnalyzeTag substanceTagPtr makeDataCframe spare tag parents
    let main := frameOf checkAnalyzeTag makeDataCframe spare tag 0 tag
    t.Reads (main.rows ++ functionalRows checkAnalyzeTag makeDataCframe spare tag parents) ∧
      t.cfWithFunctionalTag.length = (functionalTags tag parents).length + 1 ∧
      t.cf.pp = main.pp ∧ t.cf.elementNum = t.elems.length := by
  intro t main
  have hempty : (TagCaseFrame.mk main [] tag.num []).Reads [] := rfl
  obtain ⟨hreads, hlen, hcf⟩ := addTag_foldl checkAnalyzeTag substanceTagPtr makeDataCframe spare
    tag (tag :: functionalTags tag parents) hempty
  have heq : t = _ := setTagCaseFrame_eq_foldl checkAnalyzeTag substanceTagPtr makeDataCframe spare
    tag parents
  have hpp := congrArg DataFrame.pp hcf
  rw [framesOf_cons, List.flatMap_cons] at hreads
  rw [heq]
  refine ⟨hreads, ?_, hpp, rfl⟩
  rw [List.length_cons] at hlen
  exact hlen.trans (Nat.zero_add _)

/-! ## When both ways agree -/

theorem length_framesOf_rows (tag : PredTag) (qs : List PredTag) (k : Nat) :
    ((framesOf checkAnalyzeTag makeDataCframe spare tag k qs).flatMap DataFrame.rows).length =
      (qs.map fun p => (argsOf checkAnalyzeTag makeDataCframe tag p).length).sum := by
  induction qs generalizing k with
  | nil => rfl
  | cons p qs ih =>
    rw [framesOf_cons, List.flatMap_cons, List.length_append, ih, List.map_cons, List.sum_cons,
      DataFrame.length_rows]
    rfl

/-- The rows of the functional tags' arguments do not lie in the main verb's memory. -/
theorem functionalRows_congr {spare spare' : Nat → Nat → List Int}
    (h : ∀ k ≠ 0, spare k = spare' k) (tag : PredTag) (parents : List PredTag) :
    functionalRows checkAnalyzeTag makeDataCframe spare tag parents =
      functionalRows checkAnalyzeTag makeDataCframe spare' tag parents := by
  have hframe : ∀ j p, frameOf checkAnalyzeTag makeDataCframe spare tag (1 + j) p =
      frameOf checkAnalyzeTag makeDataCframe spare' tag (1 + j) p := fun j p => by
    rw [frameOf, frameOf, h (1 + j) (by omega)]
  simp [functionalRows, framesOf, hframe]

/-- An argument of the main verb is read alike both ways, one of a functional tag if the
main verb's memory holds its cases. -/
theorem setTagCaseFrame_agrees_iff (tag : PredTag) (parents : List PredTag) :
    (setTagCaseFrame checkAnalyzeTag substanceTagPtr makeDataCframe spare tag parents).Agrees ↔
      ((tag :: functionalTags tag parents).map fun p =>
        (argsOf checkAnalyzeTag makeDataCframe tag p).length).sum ≤ CF_ELEMENT_MAX ∧
      (functionalTags tag parents).length + 1 ≤ FUNCTIONAL_TAG_MAX ∧
      ∀ (i : Nat) (h : i < (functionalRows checkAnalyzeTag makeDataCframe spare tag parents).length),
        spare 0 ((argsOf checkAnalyzeTag makeDataCframe tag tag).length + i) =
          (functionalRows checkAnalyzeTag makeDataCframe spare tag parents)[i] := by
  obtain ⟨hreads, hframes, hpp, hnum⟩ := setTagCaseFrame_reads checkAnalyzeTag substanceTagPtr
    makeDataCframe spare tag parents
  set t := setTagCaseFrame checkAnalyzeTag substanceTagPtr makeDataCframe spare tag parents
  set main := frameOf checkAnalyzeTag makeDataCframe spare tag 0 tag
  set rows := functionalRows checkAnalyzeTag makeDataCframe spare tag parents
  have hmainlen : main.rows.length = (argsOf checkAnalyzeTag makeDataCframe tag tag).length :=
    DataFrame.length_rows main
  have hspare_pp : ∀ i, main.rows.length ≤ i → main.pp i = spare 0 i := fun i hi =>
    DataFrame.fill_pp_of_le _ _ (hmainlen ▸ hi)
  have htotal : t.elems.length = ((tag :: functionalTags tag parents).map fun p =>
      (argsOf checkAnalyzeTag makeDataCframe tag p).length).sum := by
    rw [hreads.length_eq, List.length_append, hmainlen, List.map_cons, List.sum_cons]
    exact congrArg _ (length_framesOf_rows _ _ _ _ _ _)
  rw [← htotal, ← hframes, ← hmainlen]
  constructor
  · intro h
    refine ⟨?_, ?_, ?_⟩
    · by_contra hlt
      exact absurd (h.elem_lt CF_ELEMENT_MAX (by omega)) (lt_irrefl _)
    · by_contra hlt
      exact absurd (h.frame_lt FUNCTIONAL_TAG_MAX (by omega)) (lt_irrefl _)
    · intro i hi
      have hlt : main.rows.length + i < t.elems.length := by
        rw [hreads.length_eq, List.length_append]
        omega
      have heq := (hreads.readMapped_eq _ hlt).symm.trans (h.pp_eq _ hlt)
      rw [hpp, List.getElem?_append_right (Nat.le_add_right _ _), Nat.add_sub_cancel_left,
        List.getElem?_eq_getElem hi, Option.some_inj, hspare_pp _ (Nat.le_add_right _ _)] at heq
      exact heq.symm
  · rintro ⟨helem, hframe, hspare⟩
    refine ⟨fun i hi => hi.trans_le helem, fun k hk => hk.trans_le hframe, hnum, ?_⟩
    intro i hi
    rw [hreads.readMapped_eq i hi, hpp]
    by_cases hown : i < main.rows.length
    · rw [List.getElem?_append_left hown, List.getElem?_eq_getElem hown]
      simp [DataFrame.rows]
    · have hrow : i - main.rows.length < rows.length := by
        rw [hreads.length_eq, List.length_append] at hi
        omega
      rw [List.getElem?_append_right (not_lt.mp hown), List.getElem?_eq_getElem hrow, ← hspare _ hrow,
        Nat.add_sub_cancel' (not_lt.mp hown), hspare_pp i (not_lt.mp hown)]

theorem sum_args_eq_zero (tag : PredTag) (qs : List PredTag)
    (h : ∀ p ∈ qs, argsOf checkAnalyzeTag makeDataCframe tag p = []) :
    (qs.map fun p => (argsOf checkAnalyzeTag makeDataCframe tag p).length).sum = 0 := by
  rw [List.sum_eq_zero_iff_forall_eq_nat]
  intro x hx
  obtain ⟨p, hp, rfl⟩ := List.mem_map.mp hx
  rw [h p hp, List.length_nil]

/-- What the main verb's memory holds decides nothing only if there is no argument to add. -/
theorem functionalRows_eq_spare_iff (tag : PredTag) (parents : List PredTag) (n : Nat) :
    (∀ (spare : Nat → Nat → List Int) (i : Nat)
        (h : i < (functionalRows checkAnalyzeTag makeDataCframe spare tag parents).length),
        spare 0 (n + i) = (functionalRows checkAnalyzeTag makeDataCframe spare tag parents)[i]) ↔
      ∀ p ∈ functionalTags tag parents, argsOf checkAnalyzeTag makeDataCframe tag p = [] := by
  have hlen : ∀ spare : Nat → Nat → List Int,
      (functionalRows checkAnalyzeTag makeDataCframe spare tag parents).length =
        ((functionalTags tag parents).map fun p =>
          (argsOf checkAnalyzeTag makeDataCframe tag p).length).sum := fun spare =>
    length_framesOf_rows _ _ _ _ _ _
  constructor
  · intro h p hp
    by_contra hne
    -- a row of the main verb that is longer than the first one behind its arguments
    let row := (functionalRows checkAnalyzeTag makeDataCframe (fun _ _ => []) tag parents)[0]?
    let spare : Nat → Nat → List Int := fun k _ => if k = 0 then 0 :: row.getD [] else []
    have hrows : functionalRows checkAnalyzeTag makeDataCframe spare tag parents =
        functionalRows checkAnalyzeTag makeDataCframe (fun _ _ => []) tag parents :=
      functionalRows_congr _ _ (fun k hk => by simp [spare, hk]) tag parents
    have hpos : 0 < (functionalRows checkAnalyzeTag makeDataCframe spare tag parents).length := by
      rw [hlen, List.sum_pos_iff_exists_pos_nat]
      exact ⟨_, List.mem_map_of_mem hp, List.length_pos_iff.mpr hne⟩
    have heq := h spare 0 hpos
    have hrow : row = some (functionalRows checkAnalyzeTag makeDataCframe spare tag parents)[0] := by
      rw [← List.getElem?_eq_getElem, hrows]
    rw [← Option.some_inj, ← hrow] at heq
    have hcons : some (0 :: row.getD []) = row := heq
    rw [hrow] at hcons
    simp at hcons
  · intro h spare i hi
    have hzero := sum_args_eq_zero checkAnalyzeTag makeDataCframe tag _ h
    rw [hlen] at hi
    omega

/-- Both ways to the arguments' cases agree, and the indices are within the arrays, as long as
the arrays hold all and the main verb's memory behind its own arguments holds those of the
functional tags. Whatever it holds, that is where no functional tag has arguments. -/
theorem setTagCaseFrame_iff (tag : PredTag) (parents : List PredTag) :
    (∀ spare : Nat → Nat → List Int,
      (setTagCaseFrame checkAnalyzeTag substanceTagPtr makeDataCframe spare tag parents).Agrees ↔
        ((tag :: functionalTags tag parents).map fun p =>
          (argsOf checkAnalyzeTag makeDataCframe tag p).length).sum ≤ CF_ELEMENT_MAX ∧
        (functionalTags tag parents).length + 1 ≤ FUNCTIONAL_TAG_MAX ∧
        ∀ (i : Nat)
          (h : i < (functionalRows checkAnalyzeTag makeDataCframe spare tag parents).length),
          spare 0 ((argsOf checkAnalyzeTag makeDataCframe tag tag).length + i) =
            (functionalRows checkAnalyzeTag makeDataCframe spare tag parents)[i]) ∧
    ((∀ spare : Nat → Nat → List Int,
      (setTagCaseFrame checkAnalyzeTag substanceTagPtr makeDataCframe spare tag parents).Agrees) ↔
        (argsOf checkAnalyzeTag makeDataCframe tag tag).length ≤ CF_ELEMENT_MAX ∧
        (functionalTags tag parents).length + 1 ≤ FUNCTIONAL_TAG_MAX ∧
        ∀ p ∈ functionalTags tag parents, argsOf checkAnalyzeTag makeDataCframe tag p = []) := by
  refine ⟨fun spare => setTagCaseFrame_agrees_iff _ _ _ spare tag parents, ?_⟩
  simp only [setTagCaseFrame_agrees_iff, forall_and, forall_const,
    functionalRows_eq_spare_iff]
  have hsum (h : ∀ p ∈ functionalTags tag parents, argsOf checkAnalyzeTag makeDataCframe tag p = []) :
      ((tag :: functionalTags tag parents).map fun p =>
        (argsOf checkAnalyzeTag makeDataCframe tag p).length).sum =
        (argsOf checkAnalyzeTag makeDataCframe tag tag).length := by
    rw [List.map_cons, List.sum_cons, sum_args_eq_zero checkAnalyzeTag makeDataCframe tag _ h,
      Nat.add_zero]
  constructor
  · rintro ⟨hlen, hframes, hargs⟩
    exact ⟨hsum hargs ▸ hlen, hframes, hargs⟩
  · rintro ⟨hlen, hframes, hargs⟩
    exact ⟨(hsum hargs).symm ▸ hlen, hframes, hargs⟩

end Run

/-- 勉強をする: the object を belongs to the functional tag する. -/
def benkyou : PredTag := ⟨0, ["体言", "本動詞的基本句", "用言:動詞"], 0⟩

def suru : PredTag := ⟨1, ["機能的基本句", "用言:動詞"], 0⟩

/-- 私は: an argument of する. -/
def watashi (p : PredTag) : List DataElement := if p.num = 1 then [⟨2, -1, some [1, 2]⟩] else []

/-- The case list that the whole frame has for the argument of する is not the argument's. -/
theorem benkyou_not_agrees :
    ¬∀ (checkAnalyzeTag : PredTag → Option CfType) (substanceTagPtr : Nat → Nat)
      (makeDataCframe : FrameHead → PredTag → List DataElement) (spare : Nat → Nat → List Int)
      (tag : PredTag) (parents : List PredTag),
      (setTagCaseFrame checkAnalyzeTag substanceTagPtr makeDataCframe spare tag parents).Agrees := by
  intro h
  have heq := (h (fun _ => some .pred) id (fun _ => watashi) (fun _ _ => []) benkyou [suru]).pp_eq 0
    (by decide)
  exact absurd heq (by decide)

end TagCaseFrame

end Knp
