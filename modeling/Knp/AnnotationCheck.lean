import Knp.Annotation
import Knp.Compaction

/-!
# Checking what was read back (`read_data.c`)

`store_one_annotation` checks the tags in earlier sentences, `check_annotation`
those in the sentence itself, when its tags are there. Both check the upper bound
only. `check_annotation` marks the elements of a tag in an array that is not
initialised and moves those with the mark to the front.

> Just the valid elements remain if no tag has a negative number and no element
> behind the last tag is without a mark and finds the mark of an earlier one.
-/

namespace Knp

/-- The elements of `c_cpm_ptr`. -/
structure CaseManager where
  elem : Nat → CcElement
  elementNum : Nat

def CaseManager.toList (cpm : CaseManager) : List CcElement :=
  (List.range cpm.elementNum).map cpm.elem

/-- The array holds the elements `es`, and `junk` behind them. -/
def CaseManager.ofList (junk : Nat → CcElement) (es : List CcElement) : CaseManager :=
  ⟨fun j => (es[j]?).getD (junk j), es.length⟩

/-- A sentence with the annotations of its tags: the text that `read_annotation` cuts at the
semicolons, for the tags that have one. `head` tells where behind the last tag there is a
`head_ptr` from before. -/
structure AnnotatedSentence where
  doc : AnnotationDoc
  tagNum : Nat
  head : Int → Bool
  annotation : Nat → Option (List UInt8)
  vars : List UInt8 → AnnotationVars
  junk : Nat → CcElement

namespace AnnotatedSentence

variable (sp : AnnotatedSentence)

/-- The elements of tag `i` that have been stored. -/
def stored (i : Nat) : List CcElement :=
  match sp.annotation i with
  | none => []
  | some cp => (readPieces sp.doc sp.vars cp cp []).1

def manager (i : Nat) : Option CaseManager :=
  (sp.annotation i).map fun _ => .ofList sp.junk (sp.stored i)

/-- What is written to `check` for an element; nothing for one behind the last tag at a place
that was never used. -/
def mark (e : CcElement) : Option Int :=
  match e.target with
  | none => some 1
  | some (sen, n) =>
      -- 対象文の場合に、異常なタグ単位が指定されているかチェック
      if sen = sp.doc.senNum ∧ (sp.tagNum : Int) ≤ n then if sp.head n then some 0 else none
      else some 1

def markElement (elem : Nat → CcElement) (check : Nat → Int) (j : Nat) : Nat → Int :=
  match sp.mark (elem j) with
  | some v => Function.update check j v
  | none => check

/-- One tag; 1つもなくなったらfree. -/
def checkTag (cpm : CaseManager) (check : Nat → Int) : Option CaseManager × (Nat → Int) :=
  let check := (List.range cpm.elementNum).foldl (sp.markElement cpm.elem) check
  let shifted := Compaction.shift (fun j => check j = 1) cpm.elementNum 0 0 cpm.elem
  (if shifted.1 ≠ 0 then some ⟨shifted.2, shifted.1⟩ else none, check)

/-- The tags before `i`, with `check` as the turn before has left it. -/
def checkTags : Nat → (Nat → Int) → (Nat → Option CaseManager) × (Nat → Int)
  | 0, check => (sp.manager, check)
  | i + 1, check =>
      let s := checkTags i check
      match s.1 i with
      | none => s
      | some cpm => (Function.update s.1 i (sp.checkTag cpm s.2).1, (sp.checkTag cpm s.2).2)

/-- `check_annotation`; `check` is what the array holds before. -/
def checkAnnotation (check : Nat → Int) : Nat → Option CaseManager := (sp.checkTags sp.tagNum check).1

end AnnotatedSentence

def remaining : Option CaseManager → List CcElement
  | none => []
  | some cpm => cpm.toList

/-! ## What should remain -/

namespace AnnotatedSentence

variable (sp : AnnotatedSentence)

/-- An element without a tag, or with one that is there. -/
def valid (e : CcElement) : Bool :=
  match e.target with
  | none => true
  | some (sen, n) =>
      0 ≤ n && if sen = sp.doc.senNum then n < sp.tagNum
        else 1 ≤ sen && sen < sp.doc.senNum && n < sp.doc.tagNum sen

/-- The law of the two checks. -/
structure Checked (check : Nat → Int) : Prop where
  exact : ∀ i < sp.tagNum,
    remaining ( sp.checkAnnotation check i) = (sp.stored i).filter sp.valid
  current : ∀ i < sp.tagNum, ∀ e ∈ remaining ( sp.checkAnnotation check i), ∀ n,
    e.target = some (sp.doc.senNum, n) → 0 ≤ n ∧ n < sp.tagNum
  earlier : ∀ i < sp.tagNum, ∀ e ∈ remaining ( sp.checkAnnotation check i), ∀ sen n,
    e.target = some (sen, n) → sen ≠ sp.doc.senNum →
    1 ≤ sen ∧ sen < sp.doc.senNum ∧ 0 ≤ n ∧ n < sp.doc.tagNum sen

/-- What is written to `check[j]` for tag `i`, which may have no such element. -/
def markAt (i j : Nat) : Option Int := ((sp.stored i)[j]?).bind sp.mark

/-- `check[j]` does not say TRUE before tag `i`: each TRUE has been followed by a FALSE. -/
structure Unmarked (check : Nat → Int) (i j : Nat) : Prop where
  initial : check j = 1 → ∃ i' < i, sp.markAt i' j = some 0
  later : ∀ i' < i, sp.markAt i' j = some 1 → ∃ i'' < i, i' < i'' ∧ sp.markAt i'' j = some 0

/-- The condition on the annotations. -/
structure Checkable (check : Nat → Int) : Prop where
  nonneg : ∀ i < sp.tagNum, ∀ e ∈ sp.stored i, ∀ sen n, e.target = some (sen, n) → 0 ≤ n
  unmarked : ∀ i < sp.tagNum, ∀ j e, (sp.stored i)[j]? = some e → sp.mark e = none →
    sp.Unmarked check i j

end AnnotatedSentence

/-! ## Storing -/

section Store

variable {doc : AnnotationDoc} {v : AnnotationVars} {vars : List UInt8 → AnnotationVars}
  {token start cp : List UInt8} {es : List CcElement}

/-- An element of an earlier sentence is below the last tag of that sentence. -/
def BelowEarlier (doc : AnnotationDoc) (e : CcElement) : Prop :=
  ∀ sen n, e.target = some (sen, n) → sen ≠ doc.senNum →
    1 ≤ sen ∧ sen < doc.senNum ∧ n < doc.tagNum sen

theorem storeOneAnnotation_below (hes : ∀ e ∈ es, BelowEarlier doc e) :
    ∀ e ∈ ( storeOneAnnotation doc v token es).1, BelowEarlier doc e := by
  have happend : ∀ pp b t, BelowEarlier doc ⟨pp, b, t⟩ →
      ∀ e ∈ es ++ [(⟨pp, b, t⟩ : CcElement)], BelowEarlier doc e := by
    intro pp b t ht e he
    rcases List.mem_append.mp he with he | he
    · exact hes e he
    · rw [List.mem_singleton.mp he]
      exact ht
  unfold storeOneAnnotation
  dsimp only
  split
  next => exact hes
  next pp _ =>
    split
    · refine happend _ _ _ ?_
      intro sen n htarget
      cases htarget
    · split
      next hsen =>
        split
        · exact hes
        next hbound =>
          refine happend _ _ _ ?_
          rintro sen n ⟨⟩ _
          omega
      next =>
        refine happend _ _ _ ?_
        rintro sen n ⟨⟩ hne
        exact absurd rfl hne

theorem readPieces_below (hes : ∀ e ∈ es, BelowEarlier doc e) :
    ∀ e ∈ (readPieces doc vars start cp es).1, BelowEarlier doc e := by
  induction cp generalizing start es with
  | nil => exact storeOneAnnotation_below hes
  | cons c cp ih =>
      rw [readPieces]
      split
      · have hstore : ∀ e ∈ ( storeOneAnnotation doc (vars start) start es).1, BelowEarlier doc e :=
          storeOneAnnotation_below hes
        split
        next es' heq =>
          rw [heq] at hstore
          exact hstore
        next es' heq =>
          rw [heq] at hstore
          exact ih hstore
      · exact ih hes

end Store

/-! ## Checking -/

namespace AnnotatedSentence

variable {sp : AnnotatedSentence} {check : Nat → Int} {i j n : Nat}

theorem stored_below : ∀ e ∈ sp.stored i, BelowEarlier sp.doc e := by
  unfold stored
  split
  · intro e he
    cases he
  · refine readPieces_below ?_
    intro e he
    cases he

theorem markElement_apply (elem : Nat → CcElement) (k : Nat) :
    sp.markElement elem check k j =
      if j = k then (sp.mark (elem j)).getD (check j) else check j := by
  by_cases hj : j = k
  · rw [if_pos hj, hj, markElement]
    cases sp.mark (elem k) with
    | none => rfl
    | some v => exact Function.update_self k v check
  · rw [if_neg hj, markElement]
    cases sp.mark (elem k) with
    | none => rfl
    | some v => exact Function.update_of_ne hj v check

/-- The marks of one tag. -/
theorem foldl_markElement (elem : Nat → CcElement) :
    (List.range n).foldl (sp.markElement elem) check j =
      if j < n then (sp.mark (elem j)).getD (check j) else check j := by
  induction n with
  | zero => rw [List.range_zero, List.foldl_nil, if_neg (Nat.not_lt_zero j)]
  | succ n ih =>
      rw [List.range_succ, List.foldl_append, List.foldl_cons, List.foldl_nil, markElement_apply,
        ih]
      rcases Nat.lt_trichotomy j n with hlt | heq | hgt
      · rw [if_neg (Nat.ne_of_lt hlt), if_pos hlt, if_pos (by omega)]
      · rw [if_pos heq, if_neg (by omega), if_pos (by omega)]
      · rw [if_neg (Nat.ne_of_gt hgt), if_neg (by omega), if_neg (by omega)]

/-- What remains of a tag says TRUE. -/
theorem remaining_checkTag (cpm : CaseManager) :
    remaining (sp.checkTag cpm check).1 =
      ((List.range cpm.elementNum).filter fun j => (sp.checkTag cpm check).2 j = 1).map
        cpm.elem := by
  unfold checkTag
  dsimp only
  split
  next => exact Compaction.shift_range _ _
  next hnone =>
    rw [← Compaction.shift_range, not_not.mp hnone]
    rfl

/-! ## The tags one after the other -/

/-- The element at `j` of tag `i`. -/
def elemAt (sp : AnnotatedSentence) (i j : Nat) : CcElement := ((sp.stored i)[j]?).getD (sp.junk j)

theorem elemAt_of_getElem? {e : CcElement} (he : (sp.stored i)[j]? = some e) :
    sp.elemAt i j = e := by
  rw [elemAt, he, Option.getD_some]

theorem map_elemAt : (List.range (sp.stored i).length).map (sp.elemAt i) = sp.stored i := by
  refine List.ext_getElem? ?_
  intro j
  rw [List.getElem?_map]
  by_cases hj : j < (sp.stored i).length
  · rw [List.getElem?_range hj, Option.map_some, elemAt, List.getElem?_eq_getElem hj,
      Option.getD_some]
  · rw [List.getElem?_eq_none (Nat.le_of_not_lt hj),
      List.getElem?_eq_none (by rw [List.length_range]; exact Nat.le_of_not_lt hj)]
    rfl

theorem checkTags_later (hi : n ≤ i) : (sp.checkTags n check).1 i = sp.manager i := by
  induction n with
  | zero => rfl
  | succ n ih =>
      have hbefore := ih (by omega)
      rw [checkTags]
      split
      next => exact hbefore
      next =>
        rw [← hbefore]
        exact Function.update_of_ne (by omega) _ _

theorem checkTags_succ_fst :
    (sp.checkTags (i + 1) check).1 i =
      (sp.manager i).bind fun cpm => (sp.checkTag cpm (sp.checkTags i check).2).1 := by
  have hbefore : (sp.checkTags i check).1 i = sp.manager i := checkTags_later (Nat.le_refl i)
  rw [checkTags, ← hbefore]
  split
  next hnone => rw [hnone, Option.bind_none]
  next cpm hsome =>
    rw [hsome, Option.bind_some]
    exact Function.update_self _ _ _

theorem checkTags_earlier (hi : i < n) :
    (sp.checkTags n check).1 i = (sp.checkTags (i + 1) check).1 i := by
  induction n with
  | zero => exact absurd hi (Nat.not_lt_zero i)
  | succ n ih =>
      rcases Nat.lt_succ_iff_lt_or_eq.mp hi with hlt | rfl
      · rw [← ih hlt, checkTags]
        split
        next => rfl
        next => exact Function.update_of_ne (Nat.ne_of_lt hlt) _ _
      · rfl

/-- What the array holds after tag `i`. -/
theorem checkTags_succ_snd :
    (sp.checkTags (i + 1) check).2 j = (sp.markAt i j).getD ((sp.checkTags i check).2 j) := by
  have hbefore : (sp.checkTags i check).1 i = sp.manager i := checkTags_later (Nat.le_refl i)
  rw [checkTags, hbefore, manager]
  cases hannotation : sp.annotation i with
  | none =>
      rw [markAt, stored, hannotation]
      rfl
  | some cp =>
      rw [Option.map_some]
      dsimp only
      rw [checkTag, markAt]
      dsimp only
      rw [foldl_markElement]
      cases hj : (sp.stored i)[j]? with
      | none => exact if_neg (Nat.not_lt.mpr (List.getElem?_eq_none_iff.mp hj))
      | some e =>
          refine (if_pos (List.getElem?_eq_some_iff.mp hj).1).trans ?_
          change (sp.mark (sp.elemAt i j)).getD _ = _
          rw [elemAt_of_getElem? hj, Option.bind_some]

/-- The elements of tag `i` that say TRUE remain. -/
theorem remaining_checkAnnotation (hi : i < sp.tagNum) :
    remaining ( sp.checkAnnotation check i) =
      ((List.range (sp.stored i).length).filter fun j =>
        (sp.checkTags (i + 1) check).2 j = 1).map (sp.elemAt i) := by
  have hbefore : (sp.checkTags i check).1 i = sp.manager i := checkTags_later (Nat.le_refl i)
  rw [ checkAnnotation, checkTags_earlier hi, checkTags_succ_fst, checkTags, hbefore, manager]
  cases hannotation : sp.annotation i with
  | none =>
      rw [stored, hannotation]
      rfl
  | some cp =>
      rw [Option.map_some, Option.bind_some]
      exact remaining_checkTag _

/-! ## The law -/

theorem mark_cases (e : CcElement) :
    sp.mark e = none ∨ sp.mark e = some 0 ∨ sp.mark e = some 1 := by
  unfold mark
  split
  · exact .inr (.inr rfl)
  · split
    · split
      · exact .inr (.inl rfl)
      · exact .inl rfl
    · exact .inr (.inr rfl)

/-- Only the lower bound is not looked at. -/
theorem valid_iff {e : CcElement} (he : BelowEarlier sp.doc e) :
    sp.valid e = true ↔
      sp.mark e = some 1 ∧ ∀ sen n, e.target = some (sen, n) → 0 ≤ n := by
  unfold valid mark
  split
  next htarget =>
    refine ⟨fun _ => ⟨rfl, ?_⟩, fun _ => rfl⟩
    intro sen n hsome
    rw [htarget] at hsome
    cases hsome
  next sen n htarget =>
    have hbelow := he sen n htarget
    have hall : (∀ sen' n', e.target = some (sen', n') → 0 ≤ n') ↔ 0 ≤ n := by
      refine ⟨fun h => h sen n htarget, ?_⟩
      intro h sen' n' hsome
      rw [htarget] at hsome
      cases hsome
      exact h
    rw [hall, Bool.and_eq_true, decide_eq_true_iff]
    by_cases hsen : sen = sp.doc.senNum
    · rw [if_pos hsen, decide_eq_true_iff]
      by_cases hn : (sp.tagNum : Int) ≤ n
      · rw [if_pos ⟨hsen, hn⟩]
        refine ⟨fun h => absurd h.2 (by omega), ?_⟩
        intro h
        split at h
        · cases h.1
        · cases h.1
      · rw [if_neg (fun h => hn h.2)]
        exact ⟨fun h => ⟨rfl, h.1⟩, fun h => ⟨h.2, by omega⟩⟩
    · rw [if_neg hsen, if_neg (fun h => hsen h.1)]
      have hbounds := hbelow hsen
      refine ⟨fun h => ⟨rfl, h.1⟩, ?_⟩
      intro h
      refine ⟨h.2, ?_⟩
      rw [Bool.and_eq_true, Bool.and_eq_true, decide_eq_true_iff, decide_eq_true_iff,
        decide_eq_true_iff]
      exact ⟨⟨hbounds.1, hbounds.2.1⟩, hbounds.2.2⟩

theorem markAt_cases (i j : Nat) :
    sp.markAt i j = none ∨ sp.markAt i j = some 0 ∨ sp.markAt i j = some 1 := by
  rw [markAt]
  cases (sp.stored i)[j]? with
  | none => exact .inl rfl
  | some e => exact mark_cases e

theorem lt_of_markAt_ne {i' : Nat} (hi : i' < i + 1) (hmark : sp.markAt i' j ≠ sp.markAt i j) :
    i' < i := by
  have hne : i' ≠ i := by
    rintro rfl
    exact hmark rfl
  omega

/-- A turn that does not write. -/
theorem unmarked_succ_of_none (hmark : sp.markAt i j = none) :
    sp.Unmarked check (i + 1) j ↔ sp.Unmarked check i j := by
  have hbefore : ∀ {i' v}, i' < i + 1 → sp.markAt i' j = some v → i' < i := by
    intro i' v hi' hsome
    have hne : sp.markAt i' j ≠ sp.markAt i j := by
      rw [hsome, hmark]
      exact Option.some_ne_none v
    exact lt_of_markAt_ne hi' hne
  constructor
  · intro h
    constructor
    · intro h1
      obtain ⟨i', hi', hzero⟩ := h.initial h1
      exact ⟨i', hbefore hi' hzero, hzero⟩
    · intro i' hi' hone
      obtain ⟨i'', hi'', hlt, hzero⟩ := h.later i' (by omega) hone
      exact ⟨i'', hbefore hi'' hzero, hlt, hzero⟩
  · intro h
    constructor
    · intro h1
      obtain ⟨i', hi', hzero⟩ := h.initial h1
      exact ⟨i', by omega, hzero⟩
    · intro i' hi' hone
      obtain ⟨i'', hi'', hlt, hzero⟩ := h.later i' (hbefore hi' hone) hone
      exact ⟨i'', by omega, hlt, hzero⟩

/-- A turn that writes FALSE. -/
theorem unmarked_succ_of_zero (hmark : sp.markAt i j = some 0) :
    sp.Unmarked check (i + 1) j := by
  constructor
  · intro _
    exact ⟨i, by omega, hmark⟩
  · intro i' hi' hone
    have hne : sp.markAt i' j ≠ sp.markAt i j := by
      rw [hone, hmark]
      intro h
      cases h
    exact ⟨i, by omega, lt_of_markAt_ne hi' hne, hmark⟩

/-- A turn that writes TRUE. -/
theorem not_unmarked_succ_of_one (hmark : sp.markAt i j = some 1) :
    ¬ sp.Unmarked check (i + 1) j := by
  intro h
  obtain ⟨i'', hi'', hlt, _⟩ := h.later i (by omega) hmark
  omega

/-- What the array says at a place, by the last turn that has written there. -/
theorem checkTags_snd_ne_one_iff :
    (sp.checkTags i check).2 j ≠ 1 ↔ sp.Unmarked check i j := by
  induction i with
  | zero =>
      constructor
      · intro h
        refine ⟨fun h1 => absurd h1 h, ?_⟩
        intro i' hi'
        exact absurd hi' (Nat.not_lt_zero i')
      · intro h h1
        obtain ⟨i', hi', _⟩ := h.initial h1
        exact Nat.not_lt_zero i' hi'
  | succ i ih =>
      rw [checkTags_succ_snd]
      rcases sp.markAt_cases i j with hmark | hmark | hmark
      · rw [hmark, Option.getD_none, ih, unmarked_succ_of_none hmark]
      · rw [hmark, Option.getD_some]
        refine ⟨fun _ => unmarked_succ_of_zero hmark, fun _ => ?_⟩
        intro h
        cases h
      · rw [hmark, Option.getD_some]
        exact ⟨fun h => absurd rfl h, fun h => absurd h (not_unmarked_succ_of_one hmark)⟩

/-- What is said of an element after its turn. -/
theorem checkTags_succ_of_getElem? {e : CcElement} (he : (sp.stored i)[j]? = some e) :
    (sp.checkTags (i + 1) check).2 j = (sp.mark e).getD ((sp.checkTags i check).2 j) := by
  rw [checkTags_succ_snd, markAt, he, Option.bind_some]

/-- Of one tag, just the valid elements remain if whatever says TRUE is valid. -/
theorem remaining_eq_filter_iff (hi : i < sp.tagNum) :
    remaining ( sp.checkAnnotation check i) = (sp.stored i).filter sp.valid ↔
      ∀ j e, (sp.stored i)[j]? = some e → (sp.checkTags (i + 1) check).2 j = 1 →
        sp.valid e = true := by
  have hfilter : (sp.stored i).filter sp.valid =
      ((List.range (sp.stored i).length).filter fun j => sp.valid (sp.elemAt i j)).map
        (sp.elemAt i) := by
    conv_lhs => rw [← sp.map_elemAt (i := i), List.filter_map]
    rfl
  have hget : ∀ j ∈ List.range (sp.stored i).length, (sp.stored i)[j]? = some (sp.elemAt i j) := by
    intro j hj
    have hlt := List.mem_range.mp hj
    rw [elemAt, List.getElem?_eq_getElem hlt, Option.getD_some]
  rw [ remaining_checkAnnotation hi, hfilter, Compaction.map_filter_eq_iff]
  · constructor
    · intro h j e he hone
      have hj := List.mem_range.mpr (List.getElem?_eq_some_iff.mp he).1
      rw [← elemAt_of_getElem? he]
      exact h j hj (decide_eq_true hone)
    · intro h j hj hone
      exact h j _ (hget j hj) (of_decide_eq_true hone)
  · intro j hj hvalid
    have hbelow := stored_below _ (List.mem_of_getElem? (hget j hj))
    rw [decide_eq_true_iff, checkTags_succ_of_getElem? (hget j hj),
      ((valid_iff hbelow).mp hvalid).1, Option.getD_some]

theorem exact_iff :
    (∀ i < sp.tagNum, remaining ( sp.checkAnnotation check i) = (sp.stored i).filter sp.valid) ↔
      sp.Checkable check := by
  constructor
  · intro h
    constructor
    · intro i hi e he sen n htarget
      obtain ⟨j, hj⟩ := List.mem_iff_getElem?.mp he
      have hvalid := (remaining_eq_filter_iff hi).mp (h i hi) j e hj
      rw [checkTags_succ_of_getElem? hj] at hvalid
      by_contra hneg
      have hone : sp.mark e = some 1 := by
        rw [mark, htarget]
        exact if_neg (fun hsen => hneg (by omega))
      rw [hone] at hvalid
      exact hneg (((valid_iff (stored_below e he)).mp (hvalid rfl)).2 sen n htarget)
    · intro i hi j e he hnone
      rw [← checkTags_snd_ne_one_iff]
      intro hone
      have hvalid := (remaining_eq_filter_iff hi).mp (h i hi) j e he
      rw [checkTags_succ_of_getElem? he, hnone, Option.getD_none] at hvalid
      have hmark := ((valid_iff (stored_below e (List.mem_of_getElem? he))).mp (hvalid hone)).1
      rw [hnone] at hmark
      cases hmark
  · intro h i hi
    rw [remaining_eq_filter_iff hi]
    intro j e he hone
    have hmem := List.mem_of_getElem? he
    rw [checkTags_succ_of_getElem? he] at hone
    rw [valid_iff (stored_below e hmem)]
    refine ⟨?_, h.nonneg i hi e hmem⟩
    rcases sp.mark_cases e with hmark | hmark | hmark
    · rw [hmark, Option.getD_none] at hone
      exact absurd hone (checkTags_snd_ne_one_iff.mpr (h.unmarked i hi j e he hmark))
    · rw [hmark, Option.getD_some] at hone
      cases hone
    · exact hmark

/-- The annotations are filtered as they should be just when no tag number is negative and no
element without a mark finds one. -/
theorem checkAnnotation_iff (sp : AnnotatedSentence) (check : Nat → Int) :
    sp.Checked check ↔ sp.Checkable check := by
  constructor
  · intro h
    exact exact_iff.mp h.exact
  · intro h
    have hexact := exact_iff.mpr h
    have hvalid : ∀ i < sp.tagNum, ∀ e ∈ remaining ( sp.checkAnnotation check i),
        sp.valid e = true := by
      intro i hi e he
      rw [hexact i hi] at he
      exact (List.mem_filter.mp he).2
    refine ⟨hexact, ?_, ?_⟩
    · intro i hi e he n htarget
      have h' := hvalid i hi e he
      rw [valid, htarget] at h'
      simpa using h'
    · intro i hi e he sen n htarget hsen
      have h' := hvalid i hi e he
      rw [valid, htarget] at h'
      simp only [hsen, if_false, Bool.and_eq_true, decide_eq_true_iff] at h'
      exact ⟨h'.2.1.1, h'.2.1.2, h'.1, h'.2.2⟩

/-- A sentence of one tag, whose annotation gives it the tag before the first. -/
def beforeFirst : AnnotatedSentence where
  doc := ⟨1, fun _ => 0⟩
  tagNum := 1
  head := fun _ => false
  annotation := fun i => if i = 0 then some (utf8 "ガ/C/犬/-1/0/1") else none
  vars := fun _ => ⟨[], 0, 0, 0⟩
  junk := fun _ => ⟨0, 0, none⟩

theorem beforeFirst_remains : ¬ beforeFirst.Checked fun _ => 0 := by
  intro h
  have hcurrent := h.current 0 (by decide) ⟨1, 0, some (1, -1)⟩ (by decide +kernel) (-1) rfl
  omega

end AnnotatedSentence

end Knp
