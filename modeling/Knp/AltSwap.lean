import Knp.AltMrph
import Knp.FeatureBytes
import Knp.StepRun
import Knp.Tokens

/-!
# Swapping in a homograph (`case_analysis.c`)

`decide_alt_mrph` and `verb_lexical_disambiguation_by_case_analysis` make one of
the `ALT` features the morpheme and the morpheme an `ALT` feature. All of this goes
through functions that look for a feature by its name, the part in front of the
first colon.

> No reading gets lost as long as the name of the feature that is stored finds no
> other homograph, no homograph in front of the chosen one continues its text, and
> the words of the semantic information are no homographs.
-/

namespace Knp.AltSwap

open FeatureBytes

/-- A list of features with the one that `fp` points at. -/
structure At where
  front : List (List UInt8)
  cp : List UInt8
  back : List (List UInt8)

def At.toList (z : At) : List (List UInt8) := z.front ++ z.cp :: z.back

/-- The search of `assign_cfeature` with `fp` kept. -/
def At.overwrite (p : List UInt8 → Bool) (fname : List UInt8) (z : At) : At :=
  if z.front.any p then { z with front := FeatureBytes.overwrite p fname z.front }
  else if p z.cp then { z with cp := fname }
  else { z with back := FeatureBytes.overwrite p fname z.back }

/-- `assign_cfeature`, with the buffer for the name. -/
def At.assignCfeature (found fname : List UInt8) (z : At) : List UInt8 × At :=
  (scanName found fname, z.overwrite (comp · (scanName found fname)) fname)

/-- `delete_cfeature`; undefined where it frees what `fp` points at. -/
def At.deleteCfeature (type : List UInt8) (z : At) : Option At :=
  if z.front.any (comp · type) then some { z with front := z.front.eraseP (comp · type) }
  else if comp z.cp type then none
  else some { z with back := z.back.eraseP (comp · type) }

def existingNames : List (List UInt8) :=
  [utf8 "カテゴリ", utf8 "ドメイン", utf8 "可能動詞", utf8 "漢字読み", utf8 "注釈", utf8 "謙譲動詞",
    utf8 "尊敬動詞", utf8 "丁寧動詞", utf8 "標準", utf8 "省略"]

def deleteExistingFeatures (z : At) : Option At :=
  existingNames.foldlM (fun z name => z.deleteCfeature name) z

/-- The words of `Imi` that `copy_mrph` passes to `imi2feature`. -/
def imiWords (imi : List UInt8) : List (List UInt8) :=
  Tokens.strtok 32 <|
    match imi with
    | [] => []
    | c :: imip => if c = 34 then imip.takeWhile (· ≠ 34) else c :: imip -- 通常 "" で括られている

def imi2feature (words : List (List UInt8)) (found : List UInt8) (z : At) : List UInt8 × At :=
  words.foldl (fun s token => s.2.assignCfeature s.1 token) (found, z)

/-- A morpheme and its features. -/
structure AltState where
  m : MrphFields
  f : List (List UInt8)
deriving DecidableEq

/-- 現在の形態素をALTに保存, このALTを最終結果の形態素にする: `m` is the morpheme, `r` what has
been read of the feature at `fp`, `found` what the buffer for names holds. -/
def swapAlt (found : List UInt8) (m : MrphFields) (z : At) (r : MrphFields) (fStr : List UInt8) :
    Option AltState :=
  let stored := z.assignCfeature found (altFeature m)
  (deleteExistingFeatures stored.2).map fun z =>
    let copied := imi2feature (imiWords r.imi) stored.1 z
    let fp := deleteCfeature copied.2.toList copied.2.cp
    ⟨r, (FeatureBytes.assignCfeature copied.1 fStr fp).2⟩

/-! ## The two functions -/

/-- The `ALT` feature with number `altNum`. -/
def nthAlt (altNum : Int) : List (List UInt8) → List (List UInt8) → Int → Option At
  | _, [], _ => none
  | front, cp :: back, altCount =>
      if isAlt cp then
        if altCount = altNum then some ⟨front, cp, back⟩
        else nthAlt altNum (front ++ [cp]) back (altCount + 1)
      else nthAlt altNum (front ++ [cp]) back altCount

/-- What has been read of an `ALT` feature; `junk` is in the record before. -/
def readAt (junk : MrphFields) (cp : List UInt8) : MrphFields := (readAlt junk cp).getD junk

def decideAltMrph (found : List UInt8) (junk : MrphFields) (altNum : Int) (fStr : List UInt8)
    (s : AltState) : Option AltState :=
  if altNum = 0 then some { s with f := (FeatureBytes.assignCfeature found fStr s.f).2 }
  else
    match nthAlt altNum [] s.f 1 with
    | none => some s
    | some z => swapAlt found s.m z (readAt junk z.cp) fStr

/-- `get_mrph_rep` begins with the entry of the case frame. -/
def hasEntry (entry : List UInt8) (m : MrphFields) : Bool :=
  match strstr m.imi (utf8 "代表表記:") with
  | none => false
  | some cp => entry.isPrefixOf (cp.drop (utf8 "代表表記:").length)

/-- The first `ALT` feature whose representation is that of the case frame. -/
def altWithEntry (entry : List UInt8) : List (List UInt8) → List (List UInt8) → MrphFields →
    Option (At × MrphFields)
  | _, [], _ => none
  | front, cp :: back, junk =>
      if isAlt cp then
        if hasEntry entry (readAt junk cp) then some (⟨front, cp, back⟩, readAt junk cp)
        else altWithEntry entry (front ++ [cp]) back (readAt junk cp)
      else altWithEntry entry (front ++ [cp]) back junk

/-- What the function reads of the predicate: whether an adjacent case is assigned, and the entry
of the case frame. -/
structure Predicate where
  assigned : Bool
  entry : List UInt8

section Verb

-- `check_str_type` with `TYPE_HIRAGANA`
variable (hiragana : List UInt8 → Bool)

/-- The conditions on the morpheme. -/
def ambiguous (s : AltState) : Bool :=
  (has s.f (utf8 "原形曖昧") || (hiragana s.m.goi && has s.f (utf8 "品曖"))) &&
    !has s.f (utf8 "音訓解消")

def verbLexicalDisambiguation (found : List UInt8) (junk : MrphFields) (pred : Predicate)
    (s : AltState) : Option AltState :=
  if pred.assigned && ambiguous hiragana s then
    if hasEntry pred.entry s.m then
      some { s with
        f := deleteCfeature (FeatureBytes.assignCfeature found (utf8 "用言曖昧性解消") s.f).2
          (utf8 "名詞曖昧性解消") }
    else
      match altWithEntry pred.entry [] s.f junk with
      | none => some s
      | some (z, r) =>
          (swapAlt found s.m z r (utf8 "用言曖昧性解消")).map fun t =>
            { t with f := deleteCfeature t.f (utf8 "名詞曖昧性解消") }
  else some s

/-- A call of one of the functions, with what is in the buffer and in the record. -/
inductive Swap
  | noun (found : List UInt8) (junk : MrphFields) (altNum : Int)
  | verb (found : List UInt8) (junk : MrphFields) (pred : Predicate)

/-- One call. `decide_alt_mrph` is called with 名詞曖昧性解消 only. -/
def swap (s : AltState) : Swap → Option AltState
  | .noun found junk altNum => decideAltMrph found junk altNum (utf8 "名詞曖昧性解消") s
  | .verb found junk pred => verbLexicalDisambiguation hiragana found junk pred s

/-- One call in a run. -/
def swapStep (s : Option AltState) (i : Swap) : Option AltState := s.bind (swap hiragana · i)

end Verb

/-! ## Readings -/

/-- What a line of the input gives, without a hyphen in the three words. -/
structure Plain (m : MrphFields) : Prop where
  readable : m.Readable
  goi2 : 45 ∉ m.goi2
  yomi : 45 ∉ m.yomi
  goi : 45 ∉ m.goi

/-- All homographs are readings of this kind. -/
structure AltState.WellFormed (s : AltState) : Prop where
  current : Plain s.m
  alts : ∀ cp ∈ s.f, isAlt cp = true → ∃ r, Plain r ∧ cp = altFeature r

/-- The reading of the morpheme and those of its `ALT` features. -/
def AltState.readings (s : AltState) : Set MrphFields :=
  {r | r = s.m ∨ ∃ cp ∈ s.f, readAlt emptyFields cp = some r}

/-- The homograph at `z`, which reads `r`, can be swapped in for `m` without a loss. -/
structure Keeps (found : List UInt8) (m : MrphFields) (z : At) (r : MrphFields) : Prop where
  /-- The name of the new feature finds no other one. -/
  stored : ∀ c, z.toList.find? (comp · (scanName found (altFeature m))) = some c →
    c = altFeature m
  /-- No feature in front of the chosen one is its text and a colon and more. -/
  removed : ∀ c ∈ z.front, ¬(z.cp ++ [58]).isPrefixOf c = true
  words : ∀ token ∈ imiWords r.imi, isAlt token = false
  /-- A first word that begins with a colon is not stored under the name of the new feature. -/
  first : ∀ token ∈ (imiWords r.imi).head?,
    isAlt (scanName (scanName found (altFeature m)) token) = false

/-- The condition on a call, in the state before it. -/
def KeepsAlts (hiragana : List UInt8 → Bool) (s : AltState) : Swap → Prop
  | .noun found junk altNum => altNum ≠ 0 → ∀ z, nthAlt altNum [] s.f 1 = some z →
      Keeps found s.m z (readAt junk z.cp)
  | .verb found junk pred => pred.assigned = true → ambiguous hiragana s = true →
      hasEntry pred.entry s.m = false → ∀ z r, altWithEntry pred.entry [] s.f junk = some (z, r) →
      Keeps found s.m z r

/-! ## Names of homographs -/

section Names

variable {cp name fname found x : List UInt8} {l : List (List UInt8)} {p : List UInt8 → Bool}

/-- What is found under the name of a homograph is one. -/
theorem isAlt_of_comp (h : comp cp name = true) (hname : isAlt name = true) :
    isAlt cp = true := by
  unfold comp at h
  rw [Bool.or_eq_true, decide_eq_true_eq] at h
  rcases h with rfl | hprefix
  · exact hname
  · unfold isAlt at hname ⊢
    rw [List.isPrefixOf_iff_prefix] at hname hprefix ⊢
    exact (hname.trans (List.prefix_append name [58])).trans hprefix

/-- A homograph is found under the name of one only: `ALT-` has no colon. -/
theorem isAlt_name_of_comp (h : comp cp name = true) (hcp : isAlt cp = true) :
    isAlt name = true := by
  have hcolon : 58 ∉ utf8 "ALT-" := by decide
  unfold comp at h
  rw [Bool.or_eq_true, decide_eq_true_eq] at h
  rcases h with rfl | hprefix
  · exact hcp
  · unfold isAlt at hcp ⊢
    rw [List.isPrefixOf_iff_prefix] at hcp hprefix ⊢
    rcases List.prefix_or_prefix_of_prefix hcp hprefix with hle | hle
    · rcases List.prefix_concat_iff.mp hle with heq | hle'
      · rw [heq] at hcolon
        exact absurd (List.mem_append_right name (List.mem_singleton.mpr rfl)) hcolon
      · exact hle'
    · exact absurd (hle.subset (List.mem_append_right name (List.mem_singleton.mpr rfl))) hcolon

theorem isAlt_takeWhile (hfname : isAlt fname = false) :
    isAlt (fname.takeWhile (· ≠ 58)) = false := by
  rw [← Bool.not_eq_true] at hfname ⊢
  intro halt
  apply hfname
  unfold isAlt at halt ⊢
  rw [List.isPrefixOf_iff_prefix] at halt ⊢
  exact halt.trans (List.takeWhile_prefix _)

/-- The name of another feature, unless it is what has been in the buffer. -/
theorem isAlt_scanName (hfname : isAlt fname = false)
    (hfound : fname.takeWhile (· ≠ 58) = [] → isAlt found = false) :
    isAlt (scanName found fname) = false := by
  unfold scanName
  dsimp only
  by_cases hnil : fname.takeWhile (· ≠ 58) = []
  · rw [if_pos hnil]
    split
    · exact hfname
    · exact hfound hnil
  · rw [if_neg hnil]
    split
    · exact hfname
    · exact isAlt_takeWhile hfname

theorem filter_overwrite (hx : isAlt x = false) (hp : ∀ c, p c = true → isAlt c = false) :
    (overwrite p x l).filter isAlt = l.filter isAlt := by
  induction l with
  | nil =>
      rw [overwrite, List.filter_cons_of_neg (by rw [hx]; exact Bool.false_ne_true)]
  | cons c l ih =>
      rw [overwrite]
      split
      next hc =>
        rw [List.filter_cons_of_neg (by rw [hx]; exact Bool.false_ne_true),
          List.filter_cons_of_neg (by rw [hp c hc]; exact Bool.false_ne_true)]
      next => rw [List.filter_cons, List.filter_cons, ih]

theorem filter_eraseP (hp : ∀ c, p c = true → isAlt c = false) :
    (l.eraseP p).filter isAlt = l.filter isAlt := by
  induction l with
  | nil => rfl
  | cons c l ih =>
      by_cases hc : p c = true
      · rw [List.eraseP_cons_of_pos hc,
          List.filter_cons_of_neg (by rw [hp c hc]; exact Bool.false_ne_true)]
      · rw [List.eraseP_cons_of_neg hc, List.filter_cons, List.filter_cons, ih]

/-- What is written where it stands already. -/
theorem overwrite_of_find (h : l.find? p = some x) : overwrite p x l = l := by
  induction l with
  | nil => cases h
  | cons c l ih =>
      rw [overwrite]
      cases hc : p c with
      | true =>
          rw [List.find?_cons_of_pos hc] at h
          rw [if_pos rfl, Option.some.inj h]
      | false =>
          rw [List.find?_cons_of_neg (by rw [hc]; exact Bool.false_ne_true)] at h
          rw [if_neg Bool.false_ne_true, ih h]

theorem overwrite_of_none (h : l.find? p = none) : overwrite p x l = l ++ [x] := by
  induction l with
  | nil => rfl
  | cons c l ih =>
      rw [List.find?_cons] at h
      rw [overwrite]
      cases hc : p c with
      | true =>
          rw [hc] at h
          cases h
      | false =>
          rw [hc] at h
          rw [if_neg Bool.false_ne_true, ih h]
          rfl

/-- Deleting what is found first. -/
theorem mem_eraseP_of_find {a c : List UInt8} (h : l.find? p = some a) :
    c ∈ l.eraseP p ∨ c = a ↔ c ∈ l := by
  induction l with
  | nil => cases h
  | cons b l ih =>
      rw [List.mem_cons]
      by_cases hb : p b = true
      · rw [List.find?_cons_of_pos hb] at h
        obtain rfl := Option.some.inj h
        rw [List.eraseP_cons_of_pos hb]
        exact or_comm
      · rw [List.find?_cons_of_neg hb] at h
        rw [List.eraseP_cons_of_neg hb, List.mem_cons, or_assoc, ih h]

end Names

/-! ## What the steps of a swap leave -/

/-- The homographs are the same, and so is the one that `fp` points at. -/
structure SameAlts (z z' : At) : Prop where
  cp : z'.cp = z.cp
  front : z'.front.filter isAlt = z.front.filter isAlt
  back : z'.back.filter isAlt = z.back.filter isAlt

section Steps

variable {z z' z'' : At} {found fname type : List UInt8} {p : List UInt8 → Bool}

theorem SameAlts.refl (z : At) : SameAlts z z := ⟨rfl, rfl, rfl⟩

theorem SameAlts.trans (h : SameAlts z z') (h' : SameAlts z' z'') : SameAlts z z'' :=
  ⟨h'.cp.trans h.cp, h'.front.trans h.front, h'.back.trans h.back⟩

theorem SameAlts.mem_toList (h : SameAlts z z') {c : List UInt8} (hc : isAlt c = true) :
    c ∈ z'.toList ↔ c ∈ z.toList := by
  have hmem : ∀ l : List (List UInt8), c ∈ l ↔ c ∈ l.filter isAlt := by
    intro l
    rw [List.mem_filter]
    exact (and_iff_left hc).symm
  unfold At.toList
  rw [List.mem_append, List.mem_append, List.mem_cons, List.mem_cons, hmem z'.front, hmem z'.back,
    hmem z.front, hmem z.back, h.cp, h.front, h.back]

theorem overwrite_same (hcp : isAlt z.cp = true) (hfname : isAlt fname = false)
    (hp : ∀ c, p c = true → isAlt c = false) : SameAlts z (z.overwrite p fname) := by
  unfold At.overwrite
  split
  · exact ⟨rfl, filter_overwrite hfname hp, rfl⟩
  · split
    next hpc =>
      rw [hp _ hpc] at hcp
      exact absurd hcp Bool.false_ne_true
    next => exact ⟨rfl, rfl, filter_overwrite hfname hp⟩

/-- Another name finds no homograph. -/
theorem not_isAlt_of_comp {name : List UInt8} (hname : isAlt name = false) :
    ∀ c, comp c name = true → isAlt c = false := by
  intro c hc
  rw [← Bool.not_eq_true]
  intro halt
  rw [isAlt_name_of_comp hc halt] at hname
  exact Bool.false_ne_true hname.symm

theorem assignCfeature_same (hcp : isAlt z.cp = true) (hfname : isAlt fname = false)
    (hname : isAlt (scanName found fname) = false) :
    SameAlts z (z.assignCfeature found fname).2 :=
  overwrite_same hcp hfname (not_isAlt_of_comp hname)

theorem deleteCfeature_same (hcp : isAlt z.cp = true) (htype : isAlt type = false) :
    ∃ z', z.deleteCfeature type = some z' ∧ SameAlts z z' := by
  have hnot := not_isAlt_of_comp htype
  unfold At.deleteCfeature
  split
  · exact ⟨_, rfl, rfl, filter_eraseP hnot, rfl⟩
  · split
    next hpc =>
      rw [hnot _ hpc] at hcp
      exact absurd hcp Bool.false_ne_true
    next => exact ⟨_, rfl, rfl, rfl, filter_eraseP hnot⟩

theorem deleteNames_same {names : List (List UInt8)} (hnames : ∀ name ∈ names, isAlt name = false)
    (hcp : isAlt z.cp = true) :
    ∃ z', names.foldlM (fun z name => z.deleteCfeature name) z = some z' ∧ SameAlts z z' := by
  induction names generalizing z with
  | nil => exact ⟨z, rfl, .refl z⟩
  | cons name names ih =>
      obtain ⟨z', hz', hsame⟩ := deleteCfeature_same hcp (hnames name List.mem_cons_self)
      obtain ⟨z'', hz'', hsame'⟩ := ih (z := z')
        (fun name' hname' => hnames name' (List.mem_cons_of_mem name hname'))
        (by rw [hsame.cp]; exact hcp)
      refine ⟨z'', ?_, hsame.trans hsame'⟩
      rw [List.foldlM_cons, hz']
      exact hz''

/-- The words of the semantic information leave the homographs alone. -/
theorem imi2feature_same {words : List (List UInt8)} (hwords : ∀ token ∈ words, isAlt token = false)
    (hfirst : ∀ token ∈ words.head?, isAlt (scanName found token) = false)
    (hcp : isAlt z.cp = true) : SameAlts z (imi2feature words found z).2 := by
  induction words generalizing z found with
  | nil => exact .refl z
  | cons token words ih =>
      have htoken := hwords token List.mem_cons_self
      have hname := hfirst token rfl
      have hsame : SameAlts z (z.assignCfeature found token).2 :=
        assignCfeature_same hcp htoken hname
      have hrest : SameAlts (z.assignCfeature found token).2 (imi2feature words
          (scanName found token) (z.assignCfeature found token).2).2 := ih
        (fun token' htoken' => hwords token' (List.mem_cons_of_mem token htoken'))
        (by
          intro token' htoken'
          have hmem := List.mem_of_mem_head? htoken'
          exact isAlt_scanName (hwords token' (List.mem_cons_of_mem token hmem)) (fun _ => hname))
        (by rw [hsame.cp]; exact hcp)
      exact hsame.trans hrest

/-- The morpheme becomes a homograph, behind all the others if it is none yet. -/
theorem store_spec {new : List UInt8}
    (hstored : ∀ c, z.toList.find? p = some c → c = new) :
    (z.overwrite p new).cp = z.cp ∧ (z.overwrite p new).front = z.front ∧
      ∀ c, c ∈ (z.overwrite p new).toList ↔ c ∈ z.toList ∨ c = new := by
  have hin : ∀ {c}, z.toList.find? p = some c → z.overwrite p new = z →
      ∀ d, d ∈ (z.overwrite p new).toList ↔ d ∈ z.toList ∨ d = new := by
    intro c hc hself d
    have hmem : new ∈ z.toList := hstored c hc ▸ List.mem_of_find?_eq_some hc
    rw [hself]
    constructor
    · exact Or.inl
    · rintro (hd | rfl)
      · exact hd
      · exact hmem
  have hlist : z.toList.find? p = (z.front.find? p).or ((z.cp :: z.back).find? p) :=
    List.find?_append
  cases hfront : z.front.find? p with
  | some c =>
      have hc : z.toList.find? p = some c := by
        rw [hlist, hfront]
        rfl
      have hself : z.overwrite p new = z := by
        have hany : z.front.any p = true :=
          List.any_eq_true.mpr ⟨c, List.mem_of_find?_eq_some hfront, List.find?_some hfront⟩
        unfold At.overwrite
        rw [if_pos hany, overwrite_of_find (hstored c hc ▸ hfront)]
      exact ⟨by rw [hself], by rw [hself], hin hc hself⟩
  | none =>
      have hany : ¬z.front.any p = true := by
        rw [List.any_eq_true]
        rintro ⟨c, hc, hpc⟩
        exact List.find?_eq_none.mp hfront c hc hpc
      rw [hfront, Option.none_or] at hlist
      by_cases hcp : p z.cp = true
      · have hc : z.toList.find? p = some z.cp := by
          rw [hlist, List.find?_cons_of_pos hcp]
        have hself : z.overwrite p new = z := by
          unfold At.overwrite
          rw [if_neg hany, if_pos hcp, ← hstored _ hc]
        exact ⟨by rw [hself], by rw [hself], hin hc hself⟩
      · rw [List.find?_cons_of_neg hcp] at hlist
        have hover : z.overwrite p new = { z with back := overwrite p new z.back } := by
          unfold At.overwrite
          rw [if_neg hany, if_neg hcp]
        cases hback : z.back.find? p with
        | some c =>
            have hc : z.toList.find? p = some c := hlist.trans hback
            have hself : z.overwrite p new = z := by
              rw [hover, overwrite_of_find (hstored c hc ▸ hback)]
            exact ⟨by rw [hself], by rw [hself], hin hc hself⟩
        | none =>
            rw [hover, overwrite_of_none hback]
            refine ⟨rfl, rfl, ?_⟩
            intro d
            simp only [At.toList, List.mem_append, List.mem_cons, List.not_mem_nil, or_false,
              or_assoc]

/-- The chosen homograph is taken out. -/
theorem remove_spec (hcp : isAlt z.cp = true)
    (hremoved : ∀ c ∈ z.front, isAlt c = true → comp c z.cp = true → c = z.cp) {c : List UInt8} :
    c ∈ deleteCfeature z.toList z.cp ∨ c = z.cp ↔ c ∈ z.toList := by
  have hself : comp z.cp z.cp = true := by
    unfold comp
    rw [decide_eq_true rfl, Bool.true_or]
  refine mem_eraseP_of_find ?_
  unfold At.toList
  rw [List.find?_append]
  cases hfront : z.front.find? (comp · z.cp) with
  | none =>
      rw [Option.none_or]
      exact List.find?_cons_of_pos hself
  | some d =>
      have hcomp := List.find?_some hfront
      rw [Option.some_or,
        hremoved d (List.mem_of_find?_eq_some hfront) (isAlt_of_comp hcomp hcp) hcomp]

end Steps

/-! ## A swap -/

section Swaps

variable {z : At} {found fStr : List UInt8} {m r junk : MrphFields} {s t : AltState}

/-- The chosen reading is that of the morpheme, the reading before is a homograph, and the other
homographs stay. -/
theorem swapAlt_spec (hcp : isAlt z.cp = true) (hkeeps : Keeps found m z r)
    (hfStr : isAlt fStr = false) (hname : fStr.takeWhile (· ≠ 58) ≠ []) :
    ∃ t, swapAlt found m z r fStr = some t ∧ t.m = r ∧ ∀ c, isAlt c = true →
      (c ∈ t.f ∨ c = z.cp ↔ c ∈ z.toList ∨ c = altFeature m) := by
  obtain ⟨hcp₁, hfront₁, hmem₁⟩ := store_spec hkeeps.stored
  generalize hz₁ : z.overwrite (comp · (scanName found (altFeature m))) (altFeature m) = z₁
    at hcp₁ hfront₁ hmem₁
  have halt₁ : isAlt z₁.cp = true := by
    rw [hcp₁]
    exact hcp
  obtain ⟨z₂, hz₂, hsame₂⟩ : ∃ z₂, existingNames.foldlM (fun z name => z.deleteCfeature name) z₁ =
      some z₂ ∧ SameAlts z₁ z₂ := deleteNames_same (by decide) halt₁
  have halt₂ : isAlt z₂.cp = true := by
    rw [hsame₂.cp]
    exact halt₁
  have hsame₃ := imi2feature_same hkeeps.words hkeeps.first halt₂
  generalize hz₃ :
    imi2feature (imiWords r.imi) (scanName found (altFeature m)) z₂ = z₃ at hsame₃
  have hsame := hsame₂.trans hsame₃
  have halt₃ : isAlt z₃.2.cp = true := by
    rw [hsame.cp]
    exact halt₁
  have hremove : ∀ c ∈ z₃.2.front, isAlt c = true → comp c z₃.2.cp = true → c = z₃.2.cp := by
    intro c hc halt hcomp
    rw [hsame.cp, hcp₁] at hcomp ⊢
    have hc' : c ∈ z.front := by
      have hfilter : c ∈ z₃.2.front.filter isAlt := List.mem_filter.mpr ⟨hc, halt⟩
      rw [hsame.front, hfront₁] at hfilter
      exact (List.mem_filter.mp hfilter).1
    unfold comp at hcomp
    rw [Bool.or_eq_true, decide_eq_true_eq] at hcomp
    exact hcomp.resolve_right (hkeeps.removed c hc')
  refine ⟨⟨r, (FeatureBytes.assignCfeature z₃.1 fStr (deleteCfeature z₃.2.toList z₃.2.cp)).2⟩, ?_,
    rfl, ?_⟩
  · unfold swapAlt At.assignCfeature deleteExistingFeatures
    dsimp only
    rw [hz₁, hz₂, Option.map_some, hz₃]
  · intro c hc
    have hfilter : (FeatureBytes.assignCfeature z₃.1 fStr
        (deleteCfeature z₃.2.toList z₃.2.cp)).2.filter isAlt =
        (deleteCfeature z₃.2.toList z₃.2.cp).filter isAlt :=
      filter_overwrite hfStr (not_isAlt_of_comp (isAlt_scanName hfStr (fun hnil => absurd hnil hname)))
    have hassign : c ∈ (FeatureBytes.assignCfeature z₃.1 fStr
        (deleteCfeature z₃.2.toList z₃.2.cp)).2 ↔
        c ∈ deleteCfeature z₃.2.toList z₃.2.cp := by
      have hboth := congrArg (c ∈ ·) hfilter
      simpa [List.mem_filter, hc] using hboth
    rw [hassign, ← hcp₁, ← hsame.cp, remove_spec halt₃ hremove, hsame.mem_toList hc, hmem₁]

/-! ## Readings -/

theorem Plain.readAlt_eq (h : Plain r) (old : MrphFields) : readAlt old (altFeature r) = some r :=
  (alt_roundTrip_iff r h.readable).mpr ⟨h.goi2, h.yomi, h.goi⟩ old

theorem isAlt_of_readAlt {old : MrphFields} {c : List UInt8} (h : readAlt old c = some r) :
    isAlt c = true := by
  unfold readAlt at h
  split at h
  next hc => exact hc
  next => cases h

/-- A swap without a loss keeps the readings. -/
theorem swapAlt_keeps (hs : s.WellFormed) (hz : z.toList = s.f) (hcp : isAlt z.cp = true)
    (hread : readAlt junk z.cp = some r) (hkeeps : Keeps found s.m z r)
    (hfStr : isAlt fStr = false) (hname : fStr.takeWhile (· ≠ 58) ≠ []) :
    ∃ t, swapAlt found s.m z r fStr = some t ∧ t.m = r ∧ t.WellFormed ∧
      t.readings = s.readings := by
  obtain ⟨t, ht, hm, hmem⟩ := swapAlt_spec hcp hkeeps hfStr hname
  obtain ⟨r', hr', heq⟩ := hs.alts z.cp (by rw [← hz]; simp [At.toList]) hcp
  obtain rfl : r' = r := by
    rw [heq, hr'.readAlt_eq junk] at hread
    exact Option.some.inj hread
  refine ⟨t, ht, hm, ⟨?_, ?_⟩, ?_⟩
  · rw [hm]
    exact hr'
  · intro c hc halt
    rcases (hmem c halt).mp (Or.inl hc) with hold | rfl
    · rw [hz] at hold
      exact hs.alts c hold halt
    · exact ⟨s.m, hs.current, rfl⟩
  · ext x
    change (x = t.m ∨ ∃ c ∈ t.f, readAlt emptyFields c = some x) ↔
      x = s.m ∨ ∃ c ∈ s.f, readAlt emptyFields c = some x
    rw [hm]
    constructor
    · rintro (rfl | ⟨c, hc, hx⟩)
      · refine Or.inr ⟨z.cp, ?_, ?_⟩
        · rw [← hz]
          simp [At.toList]
        · rw [heq]
          exact hr'.readAlt_eq emptyFields
      · rcases (hmem c (isAlt_of_readAlt hx)).mp (Or.inl hc) with hold | rfl
        · rw [hz] at hold
          exact Or.inr ⟨c, hold, hx⟩
        · rw [hs.current.readAlt_eq] at hx
          exact Or.inl (Option.some.inj hx).symm
    · have hback : ∀ c, readAlt emptyFields c = some x → (c ∈ z.toList ∨ c = altFeature s.m) →
          x = r' ∨ ∃ c ∈ t.f, readAlt emptyFields c = some x := by
        intro c hx hc
        rcases (hmem c (isAlt_of_readAlt hx)).mpr hc with hnew | rfl
        · exact Or.inr ⟨c, hnew, hx⟩
        · rw [heq, hr'.readAlt_eq] at hx
          exact Or.inl (Option.some.inj hx).symm
      rintro (rfl | ⟨c, hc, hx⟩)
      · exact hback _ (hs.current.readAlt_eq emptyFields) (Or.inr rfl)
      · exact hback c hx (Or.inl (by rw [hz]; exact hc))

/-- Other features make no difference. -/
theorem keeps_of_filter (hs : s.WellFormed) (hm : t.m = s.m)
    (hf : t.f.filter isAlt = s.f.filter isAlt) : t.WellFormed ∧ t.readings = s.readings := by
  have hmem : ∀ c, isAlt c = true → (c ∈ t.f ↔ c ∈ s.f) := by
    intro c hc
    have hboth := congrArg (c ∈ ·) hf
    simpa [List.mem_filter, hc] using hboth
  refine ⟨⟨?_, ?_⟩, ?_⟩
  · rw [hm]
    exact hs.current
  · intro c hc halt
    exact hs.alts c ((hmem c halt).mp hc) halt
  · ext x
    change (x = t.m ∨ ∃ c ∈ t.f, readAlt emptyFields c = some x) ↔
      x = s.m ∨ ∃ c ∈ s.f, readAlt emptyFields c = some x
    rw [hm]
    refine or_congr_right (exists_congr ?_)
    intro c
    refine and_congr_left ?_
    intro hx
    exact hmem c (isAlt_of_readAlt hx)

/-! ## The homograph that is swapped in -/

theorem nthAlt_spec {altNum altCount : Int} {front rest : List (List UInt8)}
    (h : nthAlt altNum front rest altCount = some z) :
    z.toList = front ++ rest ∧ isAlt z.cp = true := by
  induction rest generalizing front altCount with
  | nil => cases h
  | cons cp back ih =>
      have hstep : ∀ {n}, nthAlt altNum (front ++ [cp]) back n = some z →
          z.toList = front ++ cp :: back ∧ isAlt z.cp = true := by
        intro n hn
        have hlist := ih hn
        rwa [List.append_assoc] at hlist
      rw [nthAlt] at h
      cases halt : isAlt cp with
      | false =>
          rw [halt, if_neg Bool.false_ne_true] at h
          exact hstep h
      | true =>
          rw [halt, if_pos rfl] at h
          split at h
          · obtain rfl := Option.some.inj h
            exact ⟨rfl, halt⟩
          · exact hstep h

/-- The numbers count the homographs only. -/
theorem nthAlt_of_getElem? {altNum altCount : Int} {j : Nat} {front rest : List (List UInt8)}
    {cp : List UInt8} (hget : (rest.filter isAlt)[j]? = some cp) (hnum : altCount + j = altNum) :
    ∃ z, nthAlt altNum front rest altCount = some z ∧ z.cp = cp := by
  induction rest generalizing front altCount j with
  | nil => cases hget
  | cons d back ih =>
      rw [nthAlt]
      cases halt : isAlt d with
      | false =>
          rw [List.filter_cons_of_neg (by rw [halt]; exact Bool.false_ne_true)] at hget
          rw [if_neg Bool.false_ne_true]
          exact ih hget hnum
      | true =>
          rw [List.filter_cons_of_pos halt] at hget
          rw [if_pos rfl]
          cases j with
          | zero =>
              rw [if_pos (by omega)]
              exact ⟨_, rfl, Option.some.inj hget⟩
          | succ j =>
              rw [if_neg (by omega)]
              exact ih hget (by omega)

theorem altWithEntry_spec {entry : List UInt8} {front rest : List (List UInt8)}
    (h : altWithEntry entry front rest junk = some (z, r)) :
    z.toList = front ++ rest ∧ isAlt z.cp = true ∧ ∃ old, r = readAt old z.cp := by
  induction rest generalizing front junk with
  | nil => cases h
  | cons cp back ih =>
      have hstep : ∀ {old}, altWithEntry entry (front ++ [cp]) back old = some (z, r) →
          z.toList = front ++ cp :: back ∧ isAlt z.cp = true ∧ ∃ old, r = readAt old z.cp := by
        intro old hold
        have hlist := ih hold
        rwa [List.append_assoc] at hlist
      rw [altWithEntry] at h
      cases halt : isAlt cp with
      | false =>
          rw [halt, if_neg Bool.false_ne_true] at h
          exact hstep h
      | true =>
          rw [halt, if_pos rfl] at h
          split at h
          · obtain ⟨rfl, rfl⟩ := Prod.mk.inj (Option.some.inj h)
            exact ⟨rfl, halt, junk, rfl⟩
          · exact hstep h

theorem readAlt_readAt {cp : List UInt8} (hcp : isAlt cp = true) (old : MrphFields) :
    readAlt old cp = some (readAt old cp) := by
  have hprefix : (utf8 "ALT-").isPrefixOf cp = true := hcp
  unfold readAt readAlt
  rw [if_pos hprefix, Option.getD_some]

end Swaps

/-! ## Runs -/

section Runs

variable {hiragana : List UInt8 → Bool} {s : AltState}

/-- A call of `decide_alt_mrph` with number `k ≥ 1` makes the homograph `k` the morpheme. -/
def Decides (hiragana : List UInt8 → Bool) (s : AltState) : Swap → Prop
  | .noun found junk altNum => ∀ k : Nat, altNum = k + 1 → ∀ cp, (s.f.filter isAlt)[k]? = some cp →
      ∃ t, swap hiragana s (.noun found junk altNum) = some t ∧ readAlt emptyFields cp = some t.m
  | .verb _ _ _ => True

theorem mem_toList_self (z : At) : z.cp ∈ z.toList :=
  List.mem_append_right _ List.mem_cons_self

/-- What is read of a homograph does not depend on the record before. -/
theorem AltState.WellFormed.readAlt_eq (hs : s.WellFormed) {cp : List UInt8} (hmem : cp ∈ s.f)
    (hcp : isAlt cp = true) (old old' : MrphFields) : readAlt old cp = readAlt old' cp := by
  obtain ⟨r, hr, rfl⟩ := hs.alts cp hmem hcp
  rw [hr.readAlt_eq, hr.readAlt_eq]

theorem noun_keeps (hs : s.WellFormed) {found : List UInt8} {junk : MrphFields} {altNum : Int}
    (hkeeps : KeepsAlts hiragana s (.noun found junk altNum)) :
    (∃ t, swap hiragana s (.noun found junk altNum) = some t ∧ t.WellFormed ∧
      t.readings = s.readings) ∧ Decides hiragana s (.noun found junk altNum) := by
  have hfStr : isAlt (utf8 "名詞曖昧性解消") = false := by decide
  have hname : (utf8 "名詞曖昧性解消").takeWhile (· ≠ 58) ≠ [] := by decide
  by_cases hzero : altNum = 0
  · have hrun : swap hiragana s (.noun found junk altNum) =
        some { s with f := (FeatureBytes.assignCfeature found (utf8 "名詞曖昧性解消") s.f).2 } :=
      if_pos hzero
    have hkept := keeps_of_filter
      (t := { s with f := (FeatureBytes.assignCfeature found (utf8 "名詞曖昧性解消") s.f).2 }) hs rfl
      (filter_overwrite hfStr
        (not_isAlt_of_comp (isAlt_scanName hfStr (fun hnil => absurd hnil hname))))
    refine ⟨⟨_, hrun, hkept⟩, ?_⟩
    intro k hk
    omega
  · have hrun : swap hiragana s (.noun found junk altNum) =
        match nthAlt altNum [] s.f 1 with
        | none => some s
        | some z => swapAlt found s.m z (readAt junk z.cp) (utf8 "名詞曖昧性解消") :=
      if_neg hzero
    cases hz : nthAlt altNum [] s.f 1 with
    | none =>
        rw [hz] at hrun
        refine ⟨⟨s, hrun, hs, rfl⟩, ?_⟩
        intro k hk cp hget
        obtain ⟨z, hz', -⟩ := @nthAlt_of_getElem? altNum 1 k [] s.f cp hget (by omega)
        rw [hz] at hz'
        cases hz'
    | some z =>
        rw [hz] at hrun
        obtain ⟨hlist, hcp⟩ := nthAlt_spec hz
        obtain ⟨t, ht, hm, hwf, hread⟩ := swapAlt_keeps hs hlist hcp (readAlt_readAt hcp junk)
          (hkeeps hzero z hz) hfStr hname
        refine ⟨⟨t, hrun.trans ht, hwf, hread⟩, ?_⟩
        intro k hk cp hget
        obtain ⟨z', hz', hcp'⟩ := @nthAlt_of_getElem? altNum 1 k [] s.f cp hget (by omega)
        rw [hz] at hz'
        obtain rfl := Option.some.inj hz'
        have hmem : z.cp ∈ s.f := by
          have hself := mem_toList_self z
          rwa [hlist] at hself
        refine ⟨t, hrun.trans ht, ?_⟩
        rw [hm, ← hcp', hs.readAlt_eq hmem hcp emptyFields junk]
        exact readAlt_readAt hcp junk

theorem verb_keeps (hs : s.WellFormed) {found : List UInt8} {junk : MrphFields} {pred : Predicate}
    (hkeeps : KeepsAlts hiragana s (.verb found junk pred)) :
    ∃ t, swap hiragana s (.verb found junk pred) = some t ∧ t.WellFormed ∧
      t.readings = s.readings := by
  have hfStr : isAlt (utf8 "用言曖昧性解消") = false := by decide
  have hname : (utf8 "用言曖昧性解消").takeWhile (· ≠ 58) ≠ [] := by decide
  have hdelete : ∀ c, comp c (utf8 "名詞曖昧性解消") = true → isAlt c = false :=
    not_isAlt_of_comp (by decide)
  unfold swap verbLexicalDisambiguation
  dsimp only
  split
  next hguard =>
    rw [Bool.and_eq_true] at hguard
    split
    next hentry =>
      refine ⟨_, rfl, keeps_of_filter hs rfl ?_⟩
      refine (filter_eraseP hdelete).trans (filter_overwrite hfStr ?_)
      exact not_isAlt_of_comp (isAlt_scanName hfStr (fun hnil => absurd hnil hname))
    next hentry =>
      rw [Bool.not_eq_true] at hentry
      split
      next => exact ⟨s, rfl, hs, rfl⟩
      next z r hz =>
        obtain ⟨hlist, hcp, old, rfl⟩ := altWithEntry_spec hz
        obtain ⟨t, ht, -, hwf, hread⟩ := swapAlt_keeps hs hlist hcp (readAlt_readAt hcp old)
          (hkeeps hguard.1 hguard.2 hentry z _ hz) hfStr hname
        have hkept := keeps_of_filter
          (t := { t with f := deleteCfeature t.f (utf8 "名詞曖昧性解消") }) hwf rfl
          (filter_eraseP hdelete)
        refine ⟨_, by rw [ht, Option.map_some], hkept.1, hkept.2.trans hread⟩
  next => exact ⟨s, rfl, hs, rfl⟩

/-- The condition on a call in a run. -/
def KeepsStep (hiragana : List UInt8 → Bool) (o : Option AltState) (i : Swap) : Prop :=
  ∀ s ∈ o, KeepsAlts hiragana s i

/-- In a run in which every call meets the condition, all states have the readings of the first
one, and every call of `decide_alt_mrph` makes the homograph it is called for the morpheme. -/
theorem swaps_keep_readings (hs : s.WellFormed) {l : List Swap}
    (hl : StepRun.EachStep (swapStep hiragana) (KeepsStep hiragana) (some s) l) :
    StepRun.EachState (swapStep hiragana)
        (fun o => ∃ t, o = some t ∧ t.WellFormed ∧ t.readings = s.readings) (some s) l ∧
      StepRun.EachStep (swapStep hiragana) (fun o i => ∀ t ∈ o, Decides hiragana t i) (some s)
        l := by
  refine StepRun.eachState_of_eachStep ?_ ⟨s, rfl, hs, rfl⟩ hl
  rintro o i ⟨t, rfl, ht, hread⟩ hkeeps
  have hkeeps' : KeepsAlts hiragana t i := hkeeps t rfl
  have hstep : swapStep hiragana (some t) i = swap hiragana t i := rfl
  rw [hstep]
  cases i with
  | noun found junk altNum =>
      obtain ⟨⟨t', ht', hwf, hread'⟩, hdecides⟩ := noun_keeps ht hkeeps'
      refine ⟨⟨t', ht', hwf, hread'.trans hread⟩, ?_⟩
      rintro t'' ⟨⟩
      exact hdecides
  | verb found junk pred =>
      obtain ⟨t', ht', hwf, hread'⟩ := verb_keeps ht hkeeps'
      refine ⟨⟨t', ht', hwf, hread'.trans hread⟩, ?_⟩
      intro t'' _
      trivial

end Runs

/-- A word that is its own reading and base form. -/
def reading (goi2 : String) (hinshi : Int) : MrphFields :=
  ⟨utf8 goi2, utf8 goi2, utf8 goi2, hinshi, 1, 0, 0, utf8 "NIL"⟩

theorem plain_reading {goi2 : String} {hinshi : Int} (hword : Scanf.IsWord (utf8 goi2))
    (hdash : 45 ∉ utf8 goi2) : Plain (reading goi2 hinshi) :=
  ⟨⟨hword, hword, hword, (show utf8 "NIL" ≠ [] by decide), (show 10 ∉ utf8 "NIL" by decide)⟩,
    hdash, hdash, hdash⟩

/-- A morpheme with two homographs. -/
def homographsOf (goi2 : String) : AltState :=
  ⟨reading goi2 6, [altFeature (reading goi2 2), altFeature (reading goi2 15)]⟩

theorem homographsOf_wellFormed {goi2 : String} (hword : Scanf.IsWord (utf8 goi2))
    (hdash : 45 ∉ utf8 goi2) : (homographsOf goi2).WellFormed := by
  refine ⟨plain_reading hword hdash, ?_⟩
  intro cp hcp _
  rcases List.mem_cons.mp hcp with rfl | hcp
  · exact ⟨_, plain_reading hword hdash, rfl⟩
  · rcases List.mem_singleton.mp hcp with rfl
    exact ⟨_, plain_reading hword hdash, rfl⟩

theorem run_keeps_readings :
    StepRun.EachState (swapStep fun _ => false)
        (fun o => ∃ t, o = some t ∧ t.WellFormed ∧ t.readings = (homographsOf "Run").readings)
        (some (homographsOf "Run")) [.noun [] emptyFields 2] ∧
      StepRun.EachStep (swapStep fun _ => false)
        (fun o i => ∀ t ∈ o, Decides (fun _ => false) t i)
        (some (homographsOf "Run")) [.noun [] emptyFields 2] := by
  refine swaps_keep_readings
    (homographsOf_wellFormed ⟨by decide, by decide +kernel⟩ (by decide +kernel)) ⟨?_, trivial⟩
  rintro s ⟨⟩ _ z hz
  obtain rfl : (⟨[altFeature (reading "Run" 2)], altFeature (reading "Run" 15), []⟩ : At) = z :=
    Option.some.inj hz
  refine ⟨?_, ?_, ?_, ?_⟩
  · intro c hc
    have hnone : [altFeature (reading "Run" 2), altFeature (reading "Run" 15)].find?
        (comp · (scanName [] (altFeature (reading "Run" 6)))) = none := by decide +kernel
    exact absurd (hnone.symm.trans hc) (Option.some_ne_none c).symm
  · decide +kernel
  · decide +kernel
  · decide +kernel

/-- The name of the new feature ends in front of the colon of the word and finds the first
homograph, which is overwritten when the second one is swapped in. -/
theorem colon_loses_reading :
    (homographsOf "a:b").WellFormed ∧ ((homographsOf "a:b").f.filter isAlt).Nodup ∧
      reading "a:b" 2 ∈ (homographsOf "a:b").readings ∧
      ∃ t, swap (fun _ => false) (homographsOf "a:b") (.noun [] emptyFields 2) = some t ∧
        reading "a:b" 2 ∉ t.readings := by
  refine ⟨homographsOf_wellFormed ⟨by decide, by decide +kernel⟩ (by decide +kernel),
    by decide +kernel, ?_, ?_⟩
  · exact Or.inr ⟨altFeature (reading "a:b" 2), List.mem_cons_self, by decide +kernel⟩
  · refine ⟨⟨reading "a:b" 15, [altFeature (reading "a:b" 6), utf8 "NIL",
      utf8 "名詞曖昧性解消"]⟩, by decide +kernel, ?_⟩
    rintro (heq | ⟨cp, hcp, hread⟩)
    · exact absurd heq (by decide +kernel)
    · have hno : ∀ cp ∈ [altFeature (reading "a:b" 6), utf8 "NIL", utf8 "名詞曖昧性解消"],
          readAlt emptyFields cp ≠ some (reading "a:b" 2) := by decide +kernel
      exact hno cp hcp hread

end Knp.AltSwap
