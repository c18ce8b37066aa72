import Knp.CcString

/-!
# Reading a case analysis back (`read_data.c`)

`read_annotation` looks for the feature 格解析結果 of a tag, passes over the id
of the case frame, and stores an element for each piece up to a semicolon, or to
the end.

> An assigned piece comes back with its case, its tag and its sentence; any other
> one comes back as an element without a tag.

How far the id goes is a matter of colons: one is passed over, and one more for
the anaphora analysis.
-/

namespace Knp

open Scanf

/-! ## Reading -/

/-- An element of `c_cpm_ptr`: `pp[..][0]`, `elem_b_num`, and the sentence and the number of the tag
that `elem_b_ptr` points to. -/
structure CcElement where
  pp : Int
  bNum : Int
  target : Option (Int × Int)
deriving DecidableEq

/-- The number of the sentence, and of the tags of the ones before it. -/
structure AnnotationDoc where
  senNum : Int
  tagNum : Int → Int

/-- The variables of `store_one_annotation`, which are not initialised. -/
structure AnnotationVars where
  rel : List UInt8
  flag : UInt8
  tagN : Int
  sentN : Int

/-- `"%[^/]/%c/%[^/]/%d/%d/%*[^;]"` -/
def annotationPattern : List Directive :=
  [.until 47, .lit 47, .chr, .lit 47, .until 47, .lit 47, .int, .lit 47, .int, .lit 47,
    .skipUntil 59]

def chrAt (vs : List Value) (k : Nat) (old : UInt8) : UInt8 :=
  match vs[k]? with
  | some (.chr c) => c
  | _ => old

/-- `elem_b_num` of the element with number `n`. -/
def annotatedNum (flag : UInt8) (n : Nat) : Int :=
  if flag = 67 then n else if flag = 78 then -1 else -2

/-- `store_one_annotation`: the elements and whether reading goes on. -/
def storeOneAnnotation (doc : AnnotationDoc) (vars : AnnotationVars) (token : List UInt8)
    (es : List CcElement) : List CcElement × Bool :=
  let vs := scan annotationPattern token
  let flag := chrAt vs 1 vars.flag
  let tagN := intAt vs 3 vars.tagN
  let sentN := intAt vs 4 vars.sentN
  let store (pp : Int) (target : Option (Int × Int)) : List CcElement × Bool :=
    (es ++ [⟨pp, annotatedNum flag es.length, target⟩], es.length + 1 < CF_ELEMENT_MAX)
  match ppKstrToCode (strAt vs 0 vars.rel) with
  | none => (es, true)
  | some pp =>
      if flag = 69 ∨ flag = 85 then store pp none
      else if 0 < sentN then
        if doc.senNum - sentN < 1 ∨ tagN ≥ doc.tagNum (doc.senNum - sentN) then (es, false)
        else store pp (some (doc.senNum - sentN, tagN))
      else store pp (some (doc.senNum, tagN))

/-- The loop over the pieces, with the place where the piece starts. -/
def readPieces (doc : AnnotationDoc) (vars : List UInt8 → AnnotationVars) :
    List UInt8 → List UInt8 → List CcElement → List CcElement × Bool
  | start, [], es => storeOneAnnotation doc (vars start) start es
  | start, c :: cp, es =>
      if c = 59 then
        match storeOneAnnotation doc (vars start) start es with
        | (es, false) => (es, false)
        | (es, true) => readPieces doc vars cp cp es
      else readPieces doc vars start cp es

/-- `strchr(cp, ':') + 1`; `none` where there is no colon. -/
def behindColon (cp : List UInt8) : Option (List UInt8) :=
  match cp.dropWhile (· ≠ 58) with
  | [] => none
  | _ :: cp => some cp

/-- `read_annotation` of the feature that `check_feature` found; `none` where `NULL + 1` is read. -/
def readAnnotation (optAnaphora : Bool) (doc : AnnotationDoc) (vars : List UInt8 → AnnotationVars)
    (feature : List UInt8) : Option (List CcElement × Bool) :=
  ((behindColon (feature.drop (utf8 "格解析結果:").length)).bind fun cp =>
    if optAnaphora then behindColon cp else some cp).map fun cp => readPieces doc vars cp cp []

/-! ## One piece -/

/-- The code with which the name of a case comes back. -/
def caseCode (caseStr : List UInt8) : Int := (ppKstrToCode caseStr).getD END_M

/-- What a piece is read as, when it is the element with number `n`. -/
def CcPiece.element (senNum : Int) (n : Nat) : CcPiece → CcElement
  | .unassigned caseStr => ⟨caseCode caseStr, -2, none⟩
  | .unspecified caseStr => ⟨caseCode caseStr, -2, none⟩
  | .component c =>
      if c.tagN < 0 then ⟨caseCode c.ppStr, -2, none⟩
      else ⟨caseCode c.ppStr, annotatedNum (ccFlag c.ccType) n, some (senNum - c.dist, c.tagN)⟩

/-- A name of a case as the pattern reads it. -/
structure IsCaseStr (s : List UInt8) : Prop where
  known : ppKstrToCode s = some (caseCode s)
  ne_nil : s ≠ []
  slash : 47 ∉ s
  semicolon : 59 ∉ s

/-- A word as the pattern reads it. -/
structure IsCcWord (w : List UInt8) : Prop where
  ne_nil : w ≠ []
  slash : 47 ∉ w
  semicolon : 59 ∉ w

/-- A component that can be read back. -/
structure CcComponent.Legible (doc : AnnotationDoc) (c : CcComponent) : Prop where
  ppStr : IsCaseStr c.ppStr
  word : IsCcWord c.word
  sid : 59 ∉ c.sid
  dist_nonneg : 0 ≤ c.dist
  before : 0 ≤ c.tagN → 0 < c.dist →
    1 ≤ doc.senNum - c.dist ∧ c.tagN < doc.tagNum (doc.senNum - c.dist)

def CcPiece.Legible (doc : AnnotationDoc) : CcPiece → Prop
  | .unassigned caseStr => IsCaseStr caseStr
  | .unspecified caseStr => IsCaseStr caseStr
  | .component c => c.Legible doc

section Piece

variable {doc : AnnotationDoc} {vars : AnnotationVars} {es : List CcElement} {rest : List UInt8}

/-- A piece whose fourth field is no number. -/
theorem storeOneAnnotation_noTarget {caseStr word : List UInt8} {flag : UInt8}
    (hcase : IsCaseStr caseStr) (hflag : flag = 69 ∨ flag = 85) (hword : word ≠ [])
    (hslash : 47 ∉ word) :
    storeOneAnnotation doc vars
      (caseStr ++ 47 :: flag :: 47 :: (word ++ 47 :: 45 :: 47 :: rest)) es =
      (es ++ [⟨caseCode caseStr, -2, none⟩], decide (es.length + 1 < CF_ELEMENT_MAX)) := by
  have hchr : ∀ (ds : List Directive) (c : UInt8) (s : List UInt8),
      scan (.chr :: ds) (c :: s) = .chr c :: scan ds s := fun _ _ _ => rfl
  have hscan : scan annotationPattern
      (caseStr ++ 47 :: flag :: 47 :: (word ++ 47 :: 45 :: 47 :: rest)) =
      [.str caseStr, .chr flag, .str word] := by
    rw [annotationPattern, scan_until hcase.ne_nil hcase.slash, scan_lit, hchr, scan_lit,
      scan_until hword hslash, scan_lit]
    rfl
  have hnum : annotatedNum flag es.length = -2 := by
    rcases hflag with rfl | rfl <;> rfl
  simp only [ storeOneAnnotation, hscan, strAt, chrAt, List.getElem?_cons_zero,
    List.getElem?_cons_succ, hcase.known, if_pos hflag, hnum]

theorem scan_chr (c : UInt8) (s : List UInt8) (ds : List Directive) :
    scan (.chr :: ds) (c :: s) = .chr c :: scan ds s := rfl

theorem scan_skipUntil_end (c : UInt8) (s : List UInt8) : scan [.skipUntil c] s = [] := by
  simp [scan]

/-- What is converted of a component. -/
theorem scan_component {c : CcComponent} (h : c.Legible doc) (htag : 0 ≤ c.tagN) :
    scan annotationPattern (makeCcString false c ++ rest) =
      [.str c.ppStr, .chr (ccFlag c.ccType), .str c.word, .int c.tagN, .int c.dist] := by
  have hslash : isDigit 47 = false := rfl
  rw [makeCcString, if_neg (not_lt.mpr htag), if_neg Bool.false_ne_true, annotationPattern]
  simp only [List.append_assoc, List.cons_append]
  rw [scan_until h.ppStr.ne_nil h.ppStr.slash, scan_lit, scan_chr, scan_lit,
    scan_until h.word.ne_nil h.word.slash, scan_lit, scan_int _ hslash, scan_lit,
    scan_int _ hslash, scan_lit, scan_skipUntil_end]

theorem ccFlag_ne (ccType : Int) : ¬(ccFlag ccType = 69 ∨ ccFlag ccType = 85) := by
  unfold ccFlag
  split_ifs <;> decide

theorem storeOneAnnotation_component {c : CcComponent} (h : c.Legible doc) (htag : 0 ≤ c.tagN) :
    storeOneAnnotation doc vars (makeCcString false c ++ rest) es =
      (es ++ [(CcPiece.component c).element doc.senNum es.length],
        decide (es.length + 1 < CF_ELEMENT_MAX)) := by
  simp only [ storeOneAnnotation, scan_component h htag, strAt, chrAt, intAt,
    List.getElem?_cons_zero, List.getElem?_cons_succ, h.ppStr.known, if_neg (ccFlag_ne c.ccType),
    CcPiece.element, if_neg (not_lt.mpr htag)]
  by_cases hdist : 0 < c.dist
  · obtain ⟨hsen, hnum⟩ := h.before htag hdist
    have hok : ¬(doc.senNum - c.dist < 1 ∨ c.tagN ≥ doc.tagNum (doc.senNum - c.dist)) := by omega
    rw [if_pos hdist, if_neg hok]
  · have hzero : c.dist = 0 := by
      have := h.dist_nonneg
      omega
    rw [if_neg hdist, hzero, sub_zero]

/-- Every piece that is written gives one element. -/
theorem storeOneAnnotation_text {p : CcPiece} (h : p.Legible doc) :
    storeOneAnnotation doc vars (p.text false ++ rest) es =
      (es ++ [p.element doc.senNum es.length], decide (es.length + 1 < CF_ELEMENT_MAX)) := by
  have hunassigned : ∀ {caseStr : List UInt8}, IsCaseStr caseStr →
      storeOneAnnotation doc vars ((caseStr ++ utf8 "/U/-/-/-/-") ++ rest) es =
        (es ++ [⟨caseCode caseStr, -2, none⟩], decide (es.length + 1 < CF_ELEMENT_MAX)) := by
    intro caseStr hcase
    have hbar : [45] ≠ ([] : List UInt8) := by simp
    have hslash : 47 ∉ ([45] : List UInt8) := by decide
    rw [List.append_assoc]
    exact storeOneAnnotation_noTarget hcase (.inr rfl) hbar hslash
  cases p with
  | unassigned caseStr => exact hunassigned h
  | unspecified caseStr =>
      have hne : utf8 "不特定:人" ≠ [] := by decide +kernel
      have hslash : 47 ∉ utf8 "不特定:人" := by decide +kernel
      simp only [CcPiece.text, if_neg Bool.false_ne_true, List.append_assoc]
      exact storeOneAnnotation_noTarget h (.inl rfl) hne hslash
  | component c =>
      by_cases htag : 0 ≤ c.tagN
      · exact storeOneAnnotation_component h htag
      · have hneg : c.tagN < 0 := not_le.mp htag
        have := hunassigned h.ppStr
        simpa [CcPiece.text, makeCcString, CcPiece.element, hneg] using this

/-- No semicolon is in a piece. -/
theorem semicolon_notMem_text {p : CcPiece} (h : p.Legible doc) : 59 ∉ p.text false := by
  have hbar : 59 ∉ utf8 "/U/-/-/-/-" := by decide +kernel
  have hnum : ∀ n : Int, 59 ∉ putInt n := fun n hmem => by
    rcases mem_putInt hmem with h | h
    · cases h
    · cases h
  have hflag : ∀ ccType : Int, ccFlag ccType ≠ 59 := by
    intro ccType
    unfold ccFlag
    split_ifs <;> decide
  cases p with
  | unassigned caseStr =>
      simp only [CcPiece.text, if_neg Bool.false_ne_true, List.mem_append, not_or]
      exact ⟨h.semicolon, hbar⟩
  | unspecified caseStr =>
      have htag : 59 ∉ utf8 "/E/不特定:人/-/-/-" := by decide +kernel
      simp only [CcPiece.text, if_neg Bool.false_ne_true, List.mem_append, not_or]
      exact ⟨h.semicolon, htag⟩
  | component c =>
      simp only [CcPiece.text, makeCcString, if_neg Bool.false_ne_true]
      split_ifs
      · simp only [List.mem_append, not_or]
        exact ⟨h.ppStr.semicolon, hbar⟩
      · simp [h.ppStr.semicolon, h.word.semicolon, h.sid, hnum, (hflag c.ccType).symm]

end Piece

/-! ## All pieces -/

section Pieces

variable {doc : AnnotationDoc} {vars : List UInt8 → AnnotationVars}

theorem readPieces_append : ∀ {w : List UInt8} {start cp : List UInt8} {es : List CcElement},
    59 ∉ w → readPieces doc vars start (w ++ cp) es = readPieces doc vars start cp es
  | [], _, _, _, _ => rfl
  | c :: w, start, cp, es, h => by
      obtain ⟨hc, hw⟩ := not_or.mp (mt List.mem_cons.mpr h)
      rw [List.cons_append, readPieces, if_neg (Ne.symm hc), readPieces_append hw]

theorem joinPieces_cons_cons (p q : CcPiece) (ps : List CcPiece) :
    joinPieces false (p :: q :: ps) = p.text false ++ 59 :: joinPieces false (q :: ps) := rfl

/-- The elements of some pieces, the first of which gets number `n`. -/
def elementsFrom (senNum : Int) (n : Nat) (ps : List CcPiece) : List CcElement :=
  (ps.zipIdx n).map fun p => p.1.element senNum p.2

/-- The pieces are read one after the other until the elements are full. -/
theorem readPieces_joinPieces : ∀ (ps : List CcPiece) (p : CcPiece) {es : List CcElement},
    es.length < CF_ELEMENT_MAX → (∀ q ∈ p :: ps, q.Legible doc) →
      readPieces doc vars (joinPieces false (p :: ps)) (joinPieces false (p :: ps)) es =
        (es ++ elementsFrom doc.senNum es.length ((p :: ps).take (CF_ELEMENT_MAX - es.length)),
          decide (es.length + (p :: ps).length < CF_ELEMENT_MAX))
  | [], p, es, hes, hps => by
      have hp := hps p List.mem_cons_self
      have htake : [p].take (CF_ELEMENT_MAX - es.length) = [p] :=
        List.take_of_length_le (by rw [List.length_singleton]; omega)
      have hread : readPieces doc vars (joinPieces false [p]) (joinPieces false [p]) es =
          storeOneAnnotation doc (vars (joinPieces false [p])) (joinPieces false [p]) es :=
        readPieces_append (semicolon_notMem_text hp)
      rw [hread, htake]
      exact storeOneAnnotation_text hp
  | q :: ps, p, es, hes, hps => by
      have hp := hps p List.mem_cons_self
      obtain ⟨k, hk⟩ : ∃ k, CF_ELEMENT_MAX - es.length = k + 1 :=
        ⟨CF_ELEMENT_MAX - es.length - 1, by omega⟩
      rw [joinPieces_cons_cons, readPieces_append (semicolon_notMem_text hp), readPieces,
        if_pos rfl, storeOneAnnotation_text hp, hk, List.take_succ_cons]
      by_cases hfull : es.length + 1 < CF_ELEMENT_MAX
      · have hes' : (es ++ [p.element doc.senNum es.length]).length < CF_ELEMENT_MAX := by
          rw [List.length_append]
          exact hfull
        have ih := readPieces_joinPieces ps q hes' fun r hr => hps r (List.mem_cons_of_mem p hr)
        have hlen : CF_ELEMENT_MAX - (es ++ [p.element doc.senNum es.length]).length = k := by
          rw [List.length_append, List.length_singleton]
          omega
        rw [decide_eq_true hfull]
        refine ih.trans ?_
        rw [hlen, List.append_assoc, List.length_append, List.length_singleton]
        refine Prod.ext rfl (decide_eq_decide.mpr ?_)
        simp only [List.length_cons]
        omega
      · have hzero : k = 0 := by omega
        have hlong : ¬es.length + (p :: q :: ps).length < CF_ELEMENT_MAX := by
          simp only [List.length_cons]
          omega
        rw [decide_eq_false hfull, hzero, List.take_zero, decide_eq_false hlong]
        rfl

/-! ## The id -/

theorem behindColon_append {w cp : List UInt8} (h : 58 ∉ w) :
    behindColon (w ++ 58 :: cp) = some cp := by
  have hw : ∀ c ∈ w, decide (c ≠ 58) = true := fun c hc =>
    decide_eq_true fun heq : c = 58 => h (heq ▸ hc)
  rw [behindColon, dropWhile_append_cons hw (by simp)]

/-- The id is passed over if it has the colons that are expected. -/
theorem readAnnotation_id {optAnaphora : Bool} {cfId : List UInt8}
    (hid : cfId.count 58 = if optAnaphora then 1 else 0) (cp : List UInt8) :
    readAnnotation optAnaphora doc vars (utf8 "格解析結果" ++ 58 :: (cfId ++ 58 :: cp)) =
      some (readPieces doc vars cp cp []) := by
  have hdrop : (utf8 "格解析結果" ++ 58 :: (cfId ++ 58 :: cp)).drop (utf8 "格解析結果:").length =
      cfId ++ 58 :: cp := by
    have hlen : (utf8 "格解析結果:").length = (utf8 "格解析結果").length + 1 := by decide +kernel
    rw [hlen, List.drop_append]
    simp
  rw [ readAnnotation, hdrop]
  cases optAnaphora with
  | false =>
      rw [behindColon_append (List.count_eq_zero.mp hid)]
      rfl
  | true =>
      have hpos : 0 < cfId.count 58 := by
        rw [hid]
        exact Nat.one_pos
      obtain ⟨a, b, rfl⟩ := List.append_of_mem (List.count_pos_iff.mp hpos)
      have hcount : a.count 58 + (b.count 58 + 1) = 1 := by simpa using hid
      have ha : 58 ∉ a := List.count_eq_zero.mp (by omega)
      have hb : 58 ∉ b := List.count_eq_zero.mp (by omega)
      rw [List.append_assoc, List.cons_append, behindColon_append ha, Option.bind_some,
        if_pos rfl, behindColon_append hb]
      rfl

end Pieces

/-! ## What is written can be read -/

/-- The case that the name in the context stands for: ノ for nouns. -/
def caseInContext (cpm : CcResult) (num : Int) : Int :=
  if cpm.typeFlag && matchPP num (utf8 "φ") || cpm.noun then 41 else num

theorem isCaseStr_ppStrToCode : ∀ k : Nat, k < 44 → ∀ s ∈ (ppStrToCode[k]?).map Prod.fst,
    ppKstrToCode s = some (k : Int) ∧ s ≠ [] ∧ 47 ∉ s ∧ 59 ∉ s := by
  decide +kernel

theorem isCaseStr_ppCodeToKstr {n : Int} {s : List UInt8} (hn : n < 44)
    (h : ppCodeToKstr n = some s) : IsCaseStr s ∧ caseCode s = n := by
  unfold ppCodeToKstr at h
  split_ifs at h with hneg
  have hnat : (n.toNat : Int) = n := Int.toNat_of_nonneg (not_lt.mp hneg)
  obtain ⟨hknown, hne, hslash, hsemi⟩ := isCaseStr_ppStrToCode n.toNat (by omega) s h
  rw [hnat] at hknown
  have hcode : caseCode s = n := by
    rw [caseCode, hknown]
    rfl
  exact ⟨⟨hknown.trans (congrArg some hcode.symm), hne, hslash, hsemi⟩, hcode⟩

theorem isCaseStr_ppCodeToKstrInContext {cpm : CcResult} {n : Int} {s : List UInt8} (hn : n < 44)
    (h : ppCodeToKstrInContext cpm n = some s) : IsCaseStr s ∧ caseCode s = caseInContext cpm n := by
  unfold ppCodeToKstrInContext at h
  unfold caseInContext
  split_ifs at h with hno
  · have hkstr : ppCodeToKstr 41 = some (utf8 "ノ") := by decide +kernel
    rw [if_pos hno, ← Option.some.inj h]
    exact isCaseStr_ppCodeToKstr (by omega) hkstr
  · rw [if_neg hno]
    exact isCaseStr_ppCodeToKstr hn h

section Write

variable {opts : CcOptions} {tag : Nat → CcTag} {sid : Option (List UInt8)} {cpm : CcResult}
  {doc : AnnotationDoc} {sen : Nat → Int} {caseStr slotStr : List UInt8} {slot : CcSlot}
  {c : CcComponent} {ps : List CcPiece}

/-- The words and sentence ids have no separators, and the tags are those of a document in which an
omitted case is found in an earlier sentence or in the same one. `sen` gives the sentence of a
tag. -/
structure Rereads (tag : Nat → CcTag) (sid : Option (List UInt8)) (cpm : CcResult)
    (doc : AnnotationDoc) (sen : Nat → Int) : Prop where
  words : ∀ p, IsCcWord (tag p).goi2
  sid : ∀ s ∈ sid, 59 ∉ s
  cases : ∀ slot ∈ cpm.slots, slot.pp < 44
  num : ∀ p, (tag p).num < doc.tagNum (sen p)
  merged : ∀ p, (tag (p + 1)).num < 0 → sen p = sen (p + 1)
  child : ∀ p, ∀ c ∈ (tag p).child, sen c = sen p
  omitted : ∀ slot ∈ cpm.slots, ∀ num ∈ slot.flag, ∀ s ∈ (cpm.elem num).sPtr,
    1 ≤ s.1 ∧ s.1 ≤ doc.senNum ∧ (∀ i ∈ s.2, 59 ∉ i) ∧ ∀ b ∈ (cpm.elem num).bPtr, sen b = s.1

theorem semicolon_notMem_getD {sid : Option (List UInt8)} (h : ∀ s ∈ sid, 59 ∉ s) :
    59 ∉ sid.getD (utf8 "?") := by
  cases sid with
  | none => decide
  | some s => exact h s rfl

/-- A component about a tag of this sentence, as the parent's ones are. -/
structure CcComponent.Own (tag : Nat → CcTag) (sid : Option (List UInt8)) (caseStr : List UInt8)
    (c : CcComponent) : Prop where
  word : ∃ b, c.word = (tag b).goi2
  ppStr : c.ppStr = caseStr
  dist : c.dist = 0
  sid : c.sid = sid.getD (utf8 "?")

theorem CcComponent.Own.legible (h : c.Own tag sid caseStr) (hcase : IsCaseStr caseStr)
    (hre : Rereads tag sid cpm doc sen) : c.Legible doc where
  ppStr := h.ppStr ▸ hcase
  word := by
    obtain ⟨b, hb⟩ := h.word
    exact hb ▸ hre.words b
  sid := h.sid ▸ semicolon_notMem_getD hre.sid
  dist_nonneg := h.dist.ge
  before _ hpos := absurd h.dist hpos.ne'

theorem retrieveSlot_own {predNum target : Int} {parent : CcResult} : ∀ {slots : List CcSlot},
    retrieveSlot tag sid predNum target parent caseStr slots = some (some c) →
      c.Own tag sid caseStr
  | [], h => by cases h
  | slot :: slots, h => by
      unfold retrieveSlot at h
      split at h
      · exact retrieveSlot_own h
      · split at h
        · cases h
        · next b _ =>
            split_ifs at h
            · exact retrieveSlot_own h
            · cases h
              exact ⟨⟨b, rfl⟩, rfl, rfl, rfl⟩

theorem retrieveFrom_own {predNum target : Int} : ∀ {nodes : List Nat},
    retrieveFrom tag sid predNum target caseStr nodes = some (some c) → c.Own tag sid caseStr
  | [], h => by cases h
  | p :: nodes, h => by
      unfold retrieveFrom at h
      split_ifs at h
      · split at h
        · exact retrieveFrom_own h
        · split at h
          · cases h
          · next hslot =>
              cases h
              exact retrieveSlot_own hslot
          · exact retrieveFrom_own h
      · cases h

theorem retrieveParent_own {pred : Nat} {target : Int}
    (h : retrieveParent tag sid pred target caseStr = some (some c)) : c.Own tag sid caseStr := by
  unfold retrieveParent at h
  split at h
  · cases h
  · next hga =>
      cases h
      split_ifs at hga
      · exact retrieveFrom_own hga
      · cases hga
  · exact retrieveFrom_own h

theorem legible_of_unassignedPieces {caseNum : Int} (hre : Rereads tag sid cpm doc sen)
    (hcase : IsCaseStr caseStr)
    (h : unassignedPieces opts tag sid cpm caseNum caseStr = some ps) :
    ∀ p ∈ ps, p.Legible doc := by
  unfold unassignedPieces at h
  dsimp only at h
  split at h
  · cases h
  · next c hparent =>
      cases h
      split_ifs at hparent
      · intro p hp
        rw [List.mem_singleton.mp hp]
        exact (retrieveParent_own hparent).legible hcase hre
      · cases hparent
  · cases h
    intro p hp
    rw [List.mem_singleton.mp hp]
    exact hcase

theorem sen_mergedInto (hre : Rereads tag sid cpm doc sen) : ∀ p, sen (mergedInto tag p) = sen p
  | 0 => rfl
  | p + 1 => by
      unfold mergedInto
      split_ifs with hneg
      · exact (sen_mergedInto hre p).trans (hre.merged p hneg)
      · rfl

/-- The sentence of an element is this one, or an earlier one that the tag is in. -/
theorem elemSentence_cases {num b : Nat} (hre : Rereads tag sid cpm doc sen)
    (hslot : slot ∈ cpm.slots) (hflag : slot.flag = some num) (hb : (cpm.elem num).bPtr = some b) :
    elemSentence doc.senNum sid (cpm.elem num) = (doc.senNum, sid) ∨
      ∃ s, elemSentence doc.senNum sid (cpm.elem num) = s ∧ 1 ≤ s.1 ∧ s.1 ≤ doc.senNum ∧
        (∀ i ∈ s.2, 59 ∉ i) ∧ sen b = s.1 := by
  unfold elemSentence
  by_cases hnum : (cpm.elem num).bNum ≤ -2
  · rw [if_pos hnum]
    cases hs : (cpm.elem num).sPtr with
    | none => exact .inl rfl
    | some s =>
        obtain ⟨h₁, h₂, h₃, h₄⟩ := hre.omitted slot hslot num hflag s hs
        exact .inr ⟨s, rfl, h₁, h₂, h₃, h₄ b hb⟩
  · exact .inl (if_neg hnum)

/-- Any tag of the sentence of an element makes a component that can be read. -/
theorem legible_of_elemSentence {num b q : Nat} {tagN : Int} (hre : Rereads tag sid cpm doc sen)
    (hslot : slot ∈ cpm.slots) (hflag : slot.flag = some num) (hb : (cpm.elem num).bPtr = some b)
    (hcase : IsCaseStr caseStr) (hq : sen q = sen b) (htagN : 0 ≤ tagN → tagN = (tag q).num) :
    CcComponent.Legible doc ⟨(tag q).goi2, tagN, caseStr, (cpm.elem num).bNum,
      doc.senNum - (elemSentence doc.senNum sid (cpm.elem num)).1,
      (elemSentence doc.senNum sid (cpm.elem num)).2.getD (utf8 "?")⟩ := by
  rcases elemSentence_cases hre hslot hflag hb with heq | ⟨s, heq, hone, hle, hsid, hsen⟩
  · rw [heq]
    exact ⟨hcase, hre.words q, semicolon_notMem_getD hre.sid, (sub_self doc.senNum).ge,
      fun _ hpos => absurd (sub_self doc.senNum) hpos.ne'⟩
  · rw [heq]
    refine ⟨hcase, hre.words q, semicolon_notMem_getD hsid, sub_nonneg.mpr hle, fun htag _ => ?_⟩
    dsimp only at htag ⊢
    rw [sub_sub_cancel, htagN htag, ← hsen, ← hq]
    exact ⟨by rw [hq, hsen]; exact hone, hre.num q⟩

theorem legible_of_assignedPieces {num : Nat} (hre : Rereads tag sid cpm doc sen)
    (hslot : slot ∈ cpm.slots) (hflag : slot.flag = some num) (hcase : IsCaseStr caseStr)
    (hslotStr : IsCaseStr slotStr)
    (h : assignedPieces tag doc.senNum sid cpm (cpm.elem num) slotStr caseStr = some ps) :
    ∀ p ∈ ps, p.Legible doc := by
  intro p hp
  unfold assignedPieces at h
  split_ifs at h with hetag
  · cases h
    rw [List.mem_singleton.mp hp]
    exact hcase
  · obtain ⟨b, hb, rfl⟩ := Option.map_eq_some_iff.mp h
    rcases List.mem_append.mp hp with hchild | hself
    · unfold parallelChildren at hchild
      split_ifs at hchild
      · obtain ⟨q, hq, rfl⟩ := List.mem_map.mp hchild
        have hq' : sen q = sen b := hre.child b q (List.mem_of_mem_tail (List.mem_filter.mp hq).1)
        exact legible_of_elemSentence hre hslot hflag hb hslotStr hq' fun _ => rfl
      · cases hchild
    · rw [List.mem_singleton.mp hself]
      refine legible_of_elemSentence hre hslot hflag hb hcase (sen_mergedInto hre b) fun htag => ?_
      unfold printedNum at htag ⊢
      split_ifs at htag ⊢ with hmerged
      · exact absurd htag (by decide)
      · rfl

theorem legible_of_slotPieces (hre : Rereads tag sid cpm doc sen) (hslot : slot ∈ cpm.slots)
    (h : slotPieces opts tag doc.senNum sid cpm none slot = some ps) : ∀ p ∈ ps, p.Legible doc := by
  unfold slotPieces at h
  obtain ⟨caseStr, hstr, h⟩ := Option.bind_eq_some_iff.mp h
  have hcase := (isCaseStr_ppCodeToKstrInContext (hre.cases slot hslot) hstr).1
  split at h
  · next num hflag =>
      obtain ⟨slotStr, hstr', h⟩ := Option.bind_eq_some_iff.mp h
      have hslotStr := (isCaseStr_ppCodeToKstrInContext (hre.cases slot hslot) hstr').1
      exact legible_of_assignedPieces hre hslot hflag hcase hslotStr h
  · split_ifs at h
    · exact legible_of_unassignedPieces hre hcase h
    · cases h
      exact fun p hp => absurd hp List.not_mem_nil

theorem mem_of_mapM {α β : Type} {f : α → Option β} : ∀ {l : List α} {l' : List β} {b : β},
    l.mapM f = some l' → b ∈ l' → ∃ a ∈ l, f a = some b
  | [], _, _, h, hb => by
      cases h
      cases hb
  | a :: l, l', b, h, hb => by
      simp only [List.mapM_cons, Option.bind_eq_bind, Option.bind_eq_some_iff, Option.pure_def,
        Option.some.injEq] at h
      obtain ⟨b', hb', l'', hl'', rfl⟩ := h
      rcases List.mem_cons.mp hb with rfl | hb
      · exact ⟨a, List.mem_cons_self, hb'⟩
      · obtain ⟨a', ha', heq⟩ := mem_of_mapM hl'' hb
        exact ⟨a', List.mem_cons_of_mem a ha', heq⟩

theorem legible_of_casePieces (hre : Rereads tag sid cpm doc sen)
    (h : casePieces opts tag doc.senNum sid cpm none = some ps) : ∀ p ∈ ps, p.Legible doc := by
  obtain ⟨pieces, hpieces, rfl⟩ := Option.map_eq_some_iff.mp h
  intro p hp
  obtain ⟨qs, hqs, hpq⟩ := List.mem_flatten.mp hp
  obtain ⟨slot, hslot, heq⟩ := mem_of_mapM hpieces hqs
  exact legible_of_slotPieces hre hslot heq p hpq

/-- The text of a result with at least one piece. -/
theorem recordCaseAnalysisResult_eq {senNum : Int} {head text : List UInt8}
    (hsimple : opts.simple = false) (hps : casePieces opts tag senNum sid cpm none = some ps)
    (hne : ps ≠ []) (h : recordCaseAnalysisResult opts tag senNum sid cpm head none = some text) :
    text = head ++ 58 :: (cpm.cfId ++ 58 :: joinPieces false ps) := by
  obtain ⟨pieces, hpieces, rfl⟩ := Option.map_eq_some_iff.mp hps
  simp only [recordCaseAnalysisResult, Option.map_none, hpieces, Option.bind_some,
    foldl_appendPieces, appendPieces_of_ne_nil opts _ hne, hsimple, if_neg Bool.false_ne_true,
    Option.ite_none_right_eq_some, Option.some.injEq, List.append_assoc, List.cons_append] at h
  exact h.2.symm

/-- A result that is written is read back piece by piece: an assigned one with its tag and sentence,
any other one without a tag. -/
theorem readAnnotation_recordCaseAnalysisResult {optAnaphora : Bool}
    {vars : List UInt8 → AnnotationVars} {text : List UInt8} (hsimple : opts.simple = false)
    (hre : Rereads tag sid cpm doc sen) (hid : cpm.cfId.count 58 = if optAnaphora then 1 else 0)
    (hps : casePieces opts tag doc.senNum sid cpm none = some ps) (hne : ps ≠ [])
    (hrec : recordCaseAnalysisResult opts tag doc.senNum sid cpm (utf8 "格解析結果") none =
      some text) :
    readAnnotation optAnaphora doc vars text = some
        (elementsFrom doc.senNum 0 (ps.take CF_ELEMENT_MAX), decide (ps.length < CF_ELEMENT_MAX)) ∧
      ∀ slot ∈ cpm.slots, ∀ s, ppCodeToKstrInContext cpm slot.pp = some s →
        caseCode s = caseInContext cpm slot.pp := by
  refine ⟨?_, fun slot hslot s hs =>
    (isCaseStr_ppCodeToKstrInContext (hre.cases slot hslot) hs).2⟩
  obtain ⟨p, ps, rfl⟩ := List.exists_cons_of_ne_nil hne
  have hlegible := legible_of_casePieces hre hps
  have hempty : ([] : List CcElement).length < CF_ELEMENT_MAX := Nat.succ_pos 23
  rw [recordCaseAnalysisResult_eq hsimple hps hne hrec, readAnnotation_id hid,
    readPieces_joinPieces ps p hempty hlegible, List.nil_append, List.length_nil, Nat.sub_zero,
    Nat.zero_add]

end Write

/-- 彼が (本を) 読む: ガ is assigned and ヲ is not. -/
def yomuTags (goi2 : List UInt8) (p : Nat) : CcTag :=
  ⟨min p 1, goi2, false, false, [], [], false, none⟩

def yomuResult (bNum : Int) (slots : List CcSlot) : CcResult where
  noun := false
  typeFlag := false
  cfId := utf8 "読む:動1"
  slots := slots
  elem _ := ⟨bNum, some 0, some (1, none)⟩
  predBPtr := 1

def yomuOptions : CcOptions := ⟨false, false, false⟩

def yomuDoc : AnnotationDoc := ⟨1, fun _ => 2⟩

/-- What the result is read as. -/
def yomuRead (optAnaphora : Bool) (goi2 : List UInt8) (bNum : Int) (slots : List CcSlot) :
    Option (List CcElement × Bool) :=
  (recordCaseAnalysisResult yomuOptions (yomuTags goi2) 1 none (yomuResult bNum slots)
    (utf8 "格解析結果") none).bind ( readAnnotation optAnaphora yomuDoc fun _ => ⟨[], 0, 0, 0⟩)

theorem yomu_readAnnotation : ∃ text,
    recordCaseAnalysisResult yomuOptions (yomuTags (utf8 "彼")) 1 none
      (yomuResult 0 [⟨1, true, some 0⟩, ⟨2, true, none⟩]) (utf8 "格解析結果") none = some text ∧
    readAnnotation true yomuDoc (fun _ => ⟨[], 0, 0, 0⟩) text =
      some ([⟨1, 0, some (1, 0)⟩, ⟨2, -2, none⟩], true) := by
  have hre : Rereads (yomuTags (utf8 "彼")) none
      (yomuResult 0 [⟨1, true, some 0⟩, ⟨2, true, none⟩]) yomuDoc (fun _ => 1) := by
    have hword : IsCcWord (utf8 "彼") :=
      ⟨by decide +kernel, by decide +kernel, by decide +kernel⟩
    refine ⟨fun _ => hword, nofun, by decide, fun p => ?_, fun _ _ => rfl,
      fun _ _ h => absurd h List.not_mem_nil, ?_⟩
    · have hnum : min (p : Int) 1 < 2 := by omega
      exact hnum
    · intro slot _ num _ s hs
      cases hs
      exact ⟨by decide, by decide, nofun, fun _ _ => rfl⟩
  have hrec : ∃ text, recordCaseAnalysisResult yomuOptions (yomuTags (utf8 "彼")) 1 none
      (yomuResult 0 [⟨1, true, some 0⟩, ⟨2, true, none⟩]) (utf8 "格解析結果") none = some text :=
    Option.isSome_iff_exists.mp (by decide +kernel)
  obtain ⟨text, htext⟩ := hrec
  refine ⟨text, htext, ?_⟩
  have hps : casePieces yomuOptions (yomuTags (utf8 "彼")) 1 none
      (yomuResult 0 [⟨1, true, some 0⟩, ⟨2, true, none⟩]) none =
        some [.component ⟨utf8 "彼", 0, utf8 "ガ", 0, 0, utf8 "?"⟩, .unassigned (utf8 "ヲ")] := by
    rfl
  have hid : (yomuResult 0 [⟨1, true, some 0⟩, ⟨2, true, none⟩]).cfId.count 58 =
      if (true : Bool) then 1 else 0 := by decide +kernel
  rw [( readAnnotation_recordCaseAnalysisResult rfl hre hid hps (List.cons_ne_nil _ _) htext).1]
  decide +kernel

/-- An unassigned case gives an element, 照応 comes back as 省略, a slash in the word moves the tag, a
semicolon in it starts a piece, a colon more in the id loses the first piece, and a result without
pieces is not survived. -/
theorem yomu_not_readBack :
    yomuRead true (utf8 "彼") 0 [⟨1, true, some 0⟩, ⟨2, true, none⟩] =
      some ([⟨1, 0, some (1, 0)⟩, ⟨2, -2, none⟩], true) ∧
    yomuRead true (utf8 "彼") (-3) [⟨1, true, some 0⟩] = some ([⟨1, -2, some (1, 0)⟩], true) ∧
    yomuRead true (utf8 "1/2") 0 [⟨1, true, some 0⟩] = some ([⟨1, 0, some (1, 2)⟩], true) ∧
    yomuRead true (utf8 "彼;ヲ") 0 [⟨1, true, some 0⟩] =
      some ([⟨1, 0, some (1, 0)⟩, ⟨2, -2, some (1, 0)⟩], true) ∧
    yomuRead false (utf8 "彼") 0 [⟨1, true, some 0⟩] = some ([], true) ∧
    yomuRead true (utf8 "彼") 0 [] = none := by
  decide +kernel

end Knp
