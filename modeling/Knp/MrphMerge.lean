import Mathlib.Data.List.SplitBy
import Knp.AltMrph
import Knp.FeatureBytes
import Knp.Loop

/-!
# Merging morphemes (`read_data.c`)

`preprocess_mrph` merges each run of morphemes that carry the same mark 形態素連結-* into the
first one, and moves those behind to the front. The lists of features are moved, not copied.

> Everything is as it should be but the length, which stays with the place in the array: it is
> right just if nothing of two or more morphemes is merged.
-/

namespace Knp

open FeatureBytes

def WORD_LEN_MAX : Nat := 128

def IMI_MAX : Nat := 1024

def SMALL_DATA_LEN : Nat := 128

/-- A list of features, and the morpheme whose list it was at the start; `none` for a list that
was made later. The empty list is `NULL`. -/
structure FeatureList where
  home : Option Nat
  cps : List (List UInt8)
deriving DecidableEq

/-- `NULL` -/
def FeatureList.null : FeatureList := ⟨none, []⟩

/-- A place of `sp->mrph_data`, with `Pos` and `Type` of Chinese. -/
structure MrphSlot where
  fields : MrphFields
  length : Nat
  pos : List UInt8
  type : List UInt8
  f : FeatureList
deriving DecidableEq

/-- The morphemes of a sentence, and the lists of features that have been freed. -/
structure MrphSentence where
  mrph : Nat → MrphSlot
  mrphNum : Nat
  freed : List (Option Nat)

namespace MrphMerge

/-! ## The representation -/

/-- `get_mrph_rep_length`; undefined where neither a blank nor a quotation mark follows. -/
def repLength (repStrt : List UInt8) : Option Nat :=
  if 32 ∈ repStrt then some (repStrt.takeWhile (· ≠ 32)).length
  else if 34 ∈ repStrt then some (repStrt.takeWhile (· ≠ 34)).length
  else none

/-- `assign_rep_f_from_imi`. The name is 代表表記, so nothing of the buffer before is read. -/
def assignRepFFromImi (m : MrphSlot) : Option MrphSlot :=
  match strstr m.fields.imi (utf8 "代表表記:") with
  | none => some m
  | some cp => (repLength cp).map fun length =>
      { m with f := { m.f with cps := (assignCfeature [] (cp.take length) m.f.cps).2 } }

/-- The two halves of the representation at `cp`, and the rest; undefined where one is empty or
there is no slash. -/
def scanRep (cp : List UInt8) : Option (List UInt8 × List UInt8 × List UInt8) :=
  let str1 := cp.takeWhile (· ≠ 47)
  let behind := cp.drop (str1.length + 1)
  let str2 := behind.takeWhile fun c => c ≠ 32 ∧ c ≠ 34
  if str1 = [] ∨ 47 ∉ cp ∨ str2 = [] then none
  else some (str1, str2, behind.drop str2.length)

/-- `merge_mrph_rep`: `Imi` of the first morpheme after it. -/
def mergeMrphRep (dst src : List UInt8) : Option (List UInt8) :=
  match strstr src (utf8 "代表表記:") with
  | none => some dst
  | some srcCp => do
      let (srcStr1, srcStr2, _) ← scanRep (srcCp.drop (utf8 "代表表記:").length)
      match strstr dst (utf8 "代表表記:") with
      | none => some dst
      | some dstCp => do
          let (dstStr1, dstStr2, dstPost) ← scanRep (dstCp.drop (utf8 "代表表記:").length)
          let dstPre := dst.take (dst.length - dstCp.length + (utf8 "代表表記:").length)
          if dstStr1.length + srcStr1.length < IMI_MAX ∧
              dstStr2.length + srcStr2.length < IMI_MAX ∧
              dstPre.length + (dstStr1 ++ srcStr1).length + (dstStr2 ++ srcStr2).length +
                dstPost.length + 2 ≤ IMI_MAX then
            some (dstPre ++ (dstStr1 ++ srcStr1) ++ 47 :: (dstStr2 ++ srcStr2) ++ dstPost)
          else some dst

/-! ## A run -/

/-- `clear_feature` -/
def clearFeature (sp : MrphSentence) (k : Nat) : MrphSentence :=
  { sp with
    mrph := Function.update sp.mrph k { sp.mrph k with f := .null }
    freed := sp.freed ++ [(sp.mrph k).f.home] }

/-- The `i`-th morpheme of the run is put to the end of the first. -/
def mergeTurn (startNum : Nat) (sp : MrphSentence) (i : Nat) : Option MrphSentence := do
  let dst := sp.mrph startNum
  let src := sp.mrph (startNum + i)
  let imi ← mergeMrphRep dst.fields.imi src.fields.imi
  let sp := { sp with
    mrph := Function.update sp.mrph startNum { dst with
      fields := { dst.fields with
        goi := dst.fields.goi ++ src.fields.goi
        yomi := dst.fields.yomi ++ src.fields.yomi
        goi2 := dst.fields.goi2 ++ src.fields.goi2
        imi := imi } } }
  -- マージ済みの印
  let sp := { sp with
    mrph := Function.update sp.mrph (startNum + i)
      { src with fields := { src.fields with goi := [] } } }
  return clearFeature sp (startNum + i)

/-- The sum of the lengths of a word over a run. -/
def wordLength (word : MrphFields → List UInt8) (sp : MrphSentence) (startNum length : Nat) : Nat :=
  ((List.range length).map fun i => (word (sp.mrph (startNum + i)).fields).length).sum

/-- `merge_mrph` -/
def mergeMrph (sp : MrphSentence) (startNum length : Nat) : Option (Bool × MrphSentence) := do
  if wordLength MrphFields.goi sp startNum length > WORD_LEN_MAX ∨
      wordLength MrphFields.yomi sp startNum length > WORD_LEN_MAX ∨
      wordLength MrphFields.goi2 sp startNum length > WORD_LEN_MAX then
    return (false, sp) -- 長すぎるなら、そのようなマージは不適当なので、棄却する
  else
    let sp ← (List.range' 1 (length - 1)).foldlM (mergeTurn startNum) sp
    -- 旧ALT情報を削除
    let m := sp.mrph startNum
    let m := { m with f := { m.f with cps := deleteAlt m.f.cps } }
    let m ← assignRepFFromImi m
    return (true, { sp with mrph := Function.update sp.mrph startNum m })

/-- `delete_cfeature_from_mrphs` -/
def deleteCfeatureFromMrphs (sp : MrphSentence) (startNum length : Nat) (type : List UInt8) :
    MrphSentence :=
  { sp with mrph := fun k =>
      if startNum ≤ k ∧ k < startNum + length then
        { sp.mrph k with f := { (sp.mrph k).f with cps := deleteCfeature (sp.mrph k).f.cps type } }
      else sp.mrph k }

/-- What `preprocess_mrph` does where a run ends. -/
def closeRun (sp : MrphSentence) (startNum length : Nat) (mergeType : List UInt8) :
    Option MrphSentence := do
  let (merged, sp) ← mergeMrph sp startNum length
  return if merged then sp else deleteCfeatureFromMrphs sp startNum length mergeType

/-! ## The sentence -/

/-- The first mark among the features; others are only reported. -/
def markOf (m : MrphSlot) : Option (List UInt8) := m.f.cps.find? (utf8 "形態素連結-").isPrefixOf

/-- The variables of the loop over the morphemes. -/
structure MergeLoop where
  sp : MrphSentence
  mergeType : List UInt8
  startNum : Nat

/-- `strcpy(merge_type, cp)`, where it fits. -/
def copyType (cp : List UInt8) : Option (List UInt8) :=
  if cp.length < SMALL_DATA_LEN then some cp else none

def preprocessTurn (st : MergeLoop) (i : Nat) : Option MergeLoop :=
  match markOf (st.sp.mrph i) with
  | some cp =>
      if st.mergeType = [] then
        (copyType cp).map fun mergeType => ⟨st.sp, mergeType, i⟩
      else if st.mergeType ≠ cp then do
        let sp ← closeRun st.sp st.startNum (i - st.startNum) st.mergeType
        (copyType cp).map fun mergeType => ⟨sp, mergeType, i⟩
      else some st
  | none =>
      if st.mergeType ≠ [] then
        (closeRun st.sp st.startNum (i - st.startNum) st.mergeType).map fun sp =>
          { st with sp := sp, mergeType := [] }
      else some st

/-- `copy_mrph` without `imi2feature_flag`: the two places after it. -/
def copyMrph (dst src : MrphSlot) : MrphSlot × MrphSlot :=
  ({ dst with fields := src.fields, f := src.f }, { src with f := .null })

/-- How far each morpheme is moved (何個前に移動させるか), and the number of those that are gone. -/
def moveTable (sp : MrphSentence) : Nat × (Nat → Nat) :=
  Loop.upTo 1 sp.mrphNum (fun i s =>
    if (sp.mrph i).fields.goi = [] then (s.1 + 1, Function.update s.2 i 0)
    else (s.1, Function.update s.2 i s.1)) (0, fun _ => 0)

/-- `reset_mrph` -/
def resetMrph (sp : MrphSentence) : MrphSentence :=
  { sp with
    mrph := Loop.upTo 1 sp.mrphNum (fun i u =>
      if (moveTable sp).2 i > 0 then
        let moved := copyMrph (u (i - (moveTable sp).2 i)) (u i)
        Function.update (Function.update u (i - (moveTable sp).2 i) moved.1) i moved.2
      else u) sp.mrph
    mrphNum := sp.mrphNum - (moveTable sp).1 }

/-- `preprocess_mrph`, from where the rules have given the marks. -/
def preprocessMrph (inputParsed : Bool) (sp : MrphSentence) : Option MrphSentence :=
  if inputParsed then some sp -- 正解入力のときは形態素連結をしない
  else do
    let st ← (List.range sp.mrphNum).foldlM preprocessTurn ⟨sp, [], 0⟩
    let sp ←
      if st.mergeType ≠ [] then
        closeRun st.sp st.startNum (sp.mrphNum - st.startNum) st.mergeType
      else some st.sp
    return resetMrph sp

/-! ## What should come out -/

/-- The morphemes of the sentence. -/
def mrphs (sp : MrphSentence) : List MrphSlot := (List.range sp.mrphNum).map sp.mrph

/-- The same mark. -/
def sameMark (a b : MrphSlot) : Bool := (markOf a).isSome && markOf a = markOf b

/-- The maximal runs of morphemes with the same mark; a morpheme without one is alone. -/
def runs (l : List MrphSlot) : List (List MrphSlot) := l.splitBy sameMark

/-- A word of a run put together. -/
def joined (word : MrphFields → List UInt8) (run : List MrphSlot) : List UInt8 :=
  run.flatMap fun m => word m.fields

def Fits (run : List MrphSlot) : Prop :=
  (joined MrphFields.goi run).length ≤ WORD_LEN_MAX ∧
    (joined MrphFields.yomi run).length ≤ WORD_LEN_MAX ∧
    (joined MrphFields.goi2 run).length ≤ WORD_LEN_MAX

instance (run : List MrphSlot) : Decidable (Fits run) := inferInstanceAs (Decidable (_ ∧ _ ∧ _))

/-- Without its marks. -/
def unmark (m : MrphSlot) : MrphSlot :=
  { m with f := { m.f with cps := m.f.cps.filter (!(utf8 "形態素連結-").isPrefixOf ·) } }

/-- What a run is replaced by. -/
inductive Replaced : List MrphSlot → List MrphSlot → Prop
  | unmarked {m : MrphSlot} (hmark : markOf m = none) : Replaced [m] [m]
  | merged {m m' : MrphSlot} {rest : List MrphSlot} (hmark : (markOf m).isSome)
      (hfits : Fits (m :: rest)) (hgoi : m'.fields.goi = joined MrphFields.goi (m :: rest))
      (hyomi : m'.fields.yomi = joined MrphFields.yomi (m :: rest))
      (hgoi2 : m'.fields.goi2 = joined MrphFields.goi2 (m :: rest)) : Replaced (m :: rest) [m']
  | rejected {m : MrphSlot} {rest : List MrphSlot} (hmark : (markOf m).isSome)
      (hfits : ¬Fits (m :: rest)) : Replaced (m :: rest) ((m :: rest).map unmark)

/-- Each list of features is with one morpheme, or has been freed. -/
def ListsKept (sp sp' : MrphSentence) : Prop :=
  List.Perm ((mrphs sp').map (·.f.home) ++ sp'.freed) ((List.range sp.mrphNum).map some)

/-- What `preprocess_mrph` should do. -/
structure Merges (sp sp' : MrphSentence) : Prop where
  runs : ∃ blocks, List.Forall₂ Replaced (runs (mrphs sp)) blocks ∧ mrphs sp' = blocks.flatten
  lists : ListsKept sp sp'
  length : ∀ m ∈ mrphs sp', m.length = m.fields.goi2.length

/-- The morphemes as they are read and marked. -/
structure ReadMrphs (sp : MrphSentence) : Prop where
  goi : ∀ m ∈ mrphs sp, m.fields.goi ≠ []
  goi2 : ∀ m ∈ mrphs sp, m.fields.goi2 ≠ []
  length : ∀ m ∈ mrphs sp, m.length = m.fields.goi2.length
  mark : ∀ m ∈ mrphs sp, (m.f.cps.filter (utf8 "形態素連結-").isPrefixOf).length ≤ 1
  lists : ListsKept sp sp

end MrphMerge

end Knp
