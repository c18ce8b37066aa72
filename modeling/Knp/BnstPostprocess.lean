import Mathlib
import Knp.Loop
import Knp.Runs
import Knp.TagRaw

/-!
# Merging functional tags (`dpnd_analysis.c`, `read_data.c`)

`tag_bnst_postprocess` merges each tag with the feature Ｔマージ← into the last one in front
of it that is left, and with the first tag of a bunsetsu also the bunsetsu. With a flag it
numbers what is left anew. `undo_tag_bnst_postprocess` goes back.

> The numbers, heads and morphemes are those of the runs of merged units. The length is
> counted in bytes, and for a bunsetsu over the first tag only.

A sentence has its tags and bunsetsu as arrays. `none` stands for access in front of them.
-/

namespace Knp.Postprocess

open Loop Runs

def BNST_LENGTH_MAX : Nat := 256

/-- The fields of `TAG_DATA` and `BNST_DATA`; `para` are those of `copy_para_info`, and
`mrphPtr` is an index. -/
structure UnitData (π : Type) where
  num : Int
  mrphPtr : Nat
  mrphNum : Nat
  preserveMrphNum : Nat
  dpndHead : Int
  dpndType : Char
  length : Nat
  f : List String
  para : π

/-- `bnum` is negative for a tag that begins no bunsetsu. -/
structure SentenceData (π : Type) where
  goi2 : Nat → String
  tagNum : Nat
  tag : Nat → UnitData π
  bnum : Nat → Int
  bPtr : Nat → Nat
  bnstNum : Nat
  bnst : Nat → UnitData π

variable {π : Type}

/-- The loop of `calc_bnst_length` for `n` morphemes from `p` on. -/
def lengthFrom (goi2 : Nat → String) : Nat → Nat → Nat → Nat
  | 0, _, length => length
  | n + 1, p, length =>
      let currentLength := (goi2 p).length * 2
      if length + currentLength ≥ BNST_LENGTH_MAX then length
      else lengthFrom goi2 n (p + 1) (length + currentLength)

/-- `calc_bnst_length` -/
def calcBnstLength (goi2 : Nat → String) (u : UnitData π) : Nat :=
  lengthFrom goi2 u.mrphNum u.mrphPtr 0

/-- `for (j = 0; j < n; j++) length += strlen(..)`, from morpheme `p` on. -/
def bytesFrom (goi2 : Nat → String) (p n : Nat) : Nat :=
  ((List.range' p n).map fun i => (goi2 i).utf8ByteSize).sum

/-- `merge_to`, the last unit below `i` that is left. -/
def mergeTo (u : Nat → UnitData π) : Nat → Option Nat
  | 0 => none
  | i + 1 => if 0 ≤ (u i).num then some i else mergeTo u i

/-- Unit `k` is merged into unit `a`. -/
def mergeUnit (a k bytes : Nat) (u : Nat → UnitData π) : Nat → UnitData π :=
  let u := Function.update u k { u k with num := -1 }
  Function.update u a { u a with
    mrphNum := (u a).mrphNum + (u k).mrphNum
    dpndHead := (u k).dpndHead
    dpndType := (u k).dpndType
    length := (u a).length + bytes }

def saveMrphNum (k : Nat) (u : Nat → UnitData π) : Nat → UnitData π :=
  Function.update u k { u k with preserveMrphNum := (u k).mrphNum }

/-- もとのnum, mrph_numを保存 -/
def saveUnits (i : Nat) (sp : SentenceData π) : SentenceData π :=
  let sp := { sp with tag := saveMrphNum i sp.tag }
  -- 文節区切りでもあるとき
  if 0 ≤ sp.bnum i then { sp with bnst := saveMrphNum (sp.bPtr i) sp.bnst } else sp

def assignFeature (a : Nat) (fname : String) (u : Nat → UnitData π) : Nat → UnitData π :=
  Function.update u a { u a with f := assignCfeature fname (u a).f }

def copyParaInfo (dst src : Nat) (u : Nat → UnitData π) : Nat → UnitData π :=
  Function.update u dst { u dst with para := (u src).para }

def mergeTag (i : Nat) (sp : SentenceData π) : Option (SentenceData π) :=
  (mergeTo sp.tag i).map fun a =>
    let bytes := bytesFrom sp.goi2 (sp.tag i).mrphPtr (sp.tag i).mrphNum
    { sp with tag := assignFeature a "後処理-基本句マージ" (mergeUnit a i bytes sp.tag) }

/-- The number of the bunsetsu is its index. -/
def mergeBnst (i : Nat) (sp : SentenceData π) : Option (SentenceData π) :=
  let b := sp.bPtr i
  (mergeTo sp.bnst b).map fun a =>
    -- the morphemes of the bunsetsu are counted by those of the tag
    let bytes := bytesFrom sp.goi2 (sp.bnst b).mrphPtr (sp.tag i).mrphNum
    { sp with bnst := mergeUnit a b bytes (copyParaInfo a b sp.bnst) }

def mergeUnits (i : Nat) (sp : SentenceData π) : Option (SentenceData π) :=
  (mergeTag i sp).bind fun sp => if 0 ≤ sp.bnum i then mergeBnst i sp else some sp

def marked (sp : SentenceData π) (i : Nat) : Bool := hasFeature (sp.tag i).f "Ｔマージ←"

structure PostState (π : Type) where
  sp : SentenceData π
  count : Int
  tTable : Nat → Int

/-- One turn of マージするタグ・文節の処理. -/
def postTurn (i : Nat) (s : PostState π) : Option (PostState π) :=
  let sp := saveUnits i s.sp
  if marked sp i then
    (mergeUnits i sp).map fun sp => ⟨sp, s.count, Function.update s.tTable i s.count⟩
  else some ⟨sp, s.count + 1, Function.update s.tTable i (s.count + 1)⟩

/-- `b_table`, up to bunsetsu `n`. -/
def bTable (u : Nat → UnitData π) (n : Nat) : Int × (Nat → Int) :=
  upTo 0 n (fun i s =>
    let count := if (u i).num ≠ -1 then s.1 + 1 else s.1
    (count, Function.update s.2 i count)) (-1, fun _ => 0)

/-- numの更新 -/
def renumberUnit (table : Nat → Int) (i : Nat) (v : UnitData π) : UnitData π :=
  if v.num ≠ -1 then
    { v with
      num := table i
      dpndHead := if v.dpndHead ≠ -1 then table v.dpndHead.toNat else v.dpndHead }
  else v

/-- One turn of タグ単位番号の更新. -/
def renumberTag (tTable bTable : Nat → Int) (i : Nat) (sp : SentenceData π) : SentenceData π :=
  let sp := { sp with tag := Function.update sp.tag i (renumberUnit tTable i (sp.tag i)) }
  -- bnumの更新
  if 0 ≤ sp.bnum i then
    { sp with bnum := Function.update sp.bnum i (bTable (sp.bnum i).toNat) }
  else sp

/-- `tag_bnst_postprocess`. The rules give the tags their features. -/
def tagBnstPostprocess (rules : (Nat → List String) → Nat → List String) (sp : SentenceData π)
    (flag : Nat) : Option (SentenceData π) := do
  let features := rules fun i => (sp.tag i).f
  let sp := { sp with tag := fun i => { sp.tag i with f := features i } }
  let s ← upTo? 0 sp.tagNum postTurn ⟨sp, -1, fun _ => 0⟩
  if flag = 0 then return s.sp
  else
    let bTable := (bTable s.sp.bnst s.sp.bnstNum).2
    let sp := upTo 0 s.sp.tagNum (renumberTag s.tTable bTable) s.sp
    -- 文節番号の更新
    let bnst := upTo 0 sp.bnstNum (fun i u => Function.update u i (renumberUnit bTable i (u i)))
      sp.bnst
    return { sp with bnst := bnst }

def restoreUnit (goi2 : Nat → String) (num : Int) (v : UnitData π) : UnitData π :=
  let v := { v with num := num, mrphNum := v.preserveMrphNum }
  { v with length := calcBnstLength goi2 v }

/-- One turn of `undo_tag_bnst_postprocess`, with `b_count`. -/
def undoTurn (i : Nat) (s : SentenceData π × Int) : SentenceData π × Int :=
  let sp := { s.1 with tag := Function.update s.1.tag i (restoreUnit s.1.goi2 i (s.1.tag i)) }
  -- 文節区切りでもあるとき
  if 0 ≤ sp.bnum i then
    let b := sp.bPtr i
    ({ sp with
      bnst := Function.update sp.bnst b (restoreUnit sp.goi2 s.2 (sp.bnst b))
      bnum := Function.update sp.bnum i s.2 }, s.2 + 1)
  else (sp, s.2)

/-- `undo_tag_bnst_postprocess` -/
def undoTagBnstPostprocess (sp : SentenceData π) : SentenceData π :=
  (upTo 0 sp.tagNum undoTurn (sp, 0)).1

end Knp.Postprocess
