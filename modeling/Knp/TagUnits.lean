import Knp.Cuts
import Knp.TagRaw

/-!
# Tags of a sentence (`read_data.c`)

`make_tag_units` goes through the morphemes of a sentence that is divided into
bunsetsu. A tag starts at タグ単位始 and at the first morpheme of a bunsetsu. Tags
and bunsetsu point at each other, and the two `inum` are written backwards when
the next tag or the next bunsetsu starts, for the last ones after the loop.

> Whatever morphemes carry the mark, the tags of a bunsetsu lie side by side from
> its first morpheme to its last one, and all the counters agree with that.
-/

namespace Knp.TagUnits

open Segments

/-- `TAG_DATA`; the bunsetsu and the morphemes it points at are indices. -/
structure Tag extends TagUnitData where
  num : Nat
  bPtr : Nat
  settouPtr : Nat
  settouNum : Nat
  jirituPtr : Nat
  jirituNum : Nat
  fuzokuPtr : Nat
  fuzokuNum : Nat

/-- `BNST_DATA` -/
structure Bnst extends BunsetsuData where
  num : Nat
  mrphPtr : Nat
  mrphNum : Nat

/-- The arrays of the sentence and the variables of the loop. `preBp` has no
value before the first bunsetsu. -/
structure Units where
  mrph : Nat → MorphemeData
  tagNum : Nat
  tag : Nat → Tag
  bnst : Nat → Bnst
  tp : Option Nat
  bp : Option Nat
  preBp : Option Nat

/-! ## The loop -/

/-- 非独立接頭辞, 自立語, 付属語 -/
def pushTagUnits (m : Nat) (f : List String) (tp : Tag) : Tag :=
  let tp :=
    if hasFeature f "非独立接頭辞" then
      { tp with
        settouPtr := if tp.settouNum = 0 then m else tp.settouPtr
        settouNum := tp.settouNum + 1 }
    else if hasFeature f "自立" || hasFeature f "内容語" then
      { tp with
        jirituPtr := if tp.jirituNum = 0 then m else tp.jirituPtr
        jirituNum := tp.jirituNum + 1 }
    else
      { tp with
        fuzokuPtr := if tp.fuzokuNum = 0 then m else tp.fuzokuPtr
        fuzokuNum := tp.fuzokuNum + 1 }
  { tp with mrphNum := tp.mrphNum + 1 }

def makeMrphSetInum (num : Nat) : (Nat → MorphemeData) → Nat → MorphemeData :=
  setInum MorphemeData.tnum (fun count m => { m with inum := count }) num 0

/-- From `num - 2` on, the distances begin with 1. -/
def makeTagUnitSetInum (num : Nat) : (Nat → Tag) → Nat → Tag :=
  setInum (fun t : Tag => t.bnum) (fun count t => { t with inum := count }) (num - 1) 1

/-- `memset`, `num` and `mrph_ptr` -/
def newTag (num m : Nat) : Tag where
  mrphPtr := m
  mrphNum := 0
  headPtr := 0
  f := []
  bnum := 0
  inum := 0
  dpndHead := 0
  dpndType := Char.ofNat 0
  num := num
  bPtr := 0
  settouPtr := 0
  settouNum := 0
  jirituPtr := 0
  jirituNum := 0
  fuzokuPtr := 0
  fuzokuNum := 0

/-- `bnum` and `b_ptr` -/
def Tag.markBnst (t : Tag) (bnum : Int) (b : Nat) : Tag := { t with bnum := bnum, bPtr := b }

namespace Units

/-- `bp != NULL && bp->mrph_ptr == m`: the bunsetsu that starts at `m`. -/
def starting (s : Units) (m : Nat) : Option Nat := s.bp.filter fun b => (s.bnst b).mrphPtr = m

/-- Morpheme `i` starts a tag. -/
def startTag (i : Nat) (s : Units) : Units :=
  let m := s.mrph i
  let m := if hasFeature m.f "タグ単位始" then m else { m with f := assignCfeature "タグ単位始" m.f }
  { s with
    tp := some s.tagNum
    tag := Function.update s.tag s.tagNum (newTag s.tagNum i)
    mrph := makeMrphSetInum i (Function.update s.mrph i { m with tnum := s.tagNum }) }

/-- 遡ってinumを付与 -/
def countBack (s : Units) : Nat → Tag :=
  if 0 < s.tagNum && (s.tag (s.tagNum - 1)).bnum < 0 then makeTagUnitSetInum s.tagNum s.tag
  else s.tag

/-- 文節区切りと一致するとき -/
def startBnst (bnstNum b : Nat) (s : Units) : Units :=
  { s with
    tag := Function.update s.countBack s.tagNum
      ((s.countBack s.tagNum).markBnst (s.bnst b).num b)
    bnst := Function.update s.bnst b { s.bnst b with tagPtr := s.tagNum, tagNum := 1 }
    preBp := some b
    -- 最後の文節が終わった
    bp := if (s.bnst b).num + 1 < bnstNum then some (b + 1) else none }

/-- The tag belongs to the bunsetsu `b` before. -/
def continueBnst (b : Nat) (s : Units) : Units :=
  { s with
    tag := Function.update s.tag s.tagNum ((s.tag s.tagNum).markBnst (-1) b)
    bnst := Function.update s.bnst b { s.bnst b with tagNum := (s.bnst b).tagNum + 1 } }

/-- `push_tag_units(tp, mp)` -/
def pushAt (i t : Nat) (s : Units) : Units :=
  { s with tag := Function.update s.tag t (pushTagUnits i (s.mrph i).f (s.tag t)) }

/-- One morpheme. `pre_bp` has to have a value and `tp` may not be `NULL` where
they are used. -/
def turn (bnstNum i : Nat) (s : Units) : Option Units :=
  if hasFeature (s.mrph i).f "タグ単位始" || (s.starting i).isSome then do
    let s := s.startTag i
    let s ← match s.starting (s.tag s.tagNum).mrphPtr with
      | some b => some (s.startBnst bnstNum b)
      | none => s.preBp.map fun b => s.continueBnst b
    let s := { s with tagNum := s.tagNum + 1 }
    s.tp.map fun t => s.pushAt i t
  else
    let s := { s with mrph := Function.update s.mrph i { s.mrph i with tnum := -1 } }
    s.tp.map fun t => s.pushAt i t

def loop (bnstNum : Nat) : Nat → Units → Option Units
  | 0, s => some s
  | i + 1, s => (loop bnstNum i s).bind (turn bnstNum i)

/-- The last content word of a tag, in `decide_head_ptr`; 付属語しかない場合, its
first morpheme. -/
def decideHeadPtr (mrph : Nat → MorphemeData) (t : Tag) : Tag :=
  let content := (List.range t.mrphNum).reverse.find? fun k =>
    hasFeature (mrph (t.mrphPtr + k)).f "内容語" || hasFeature (mrph (t.mrphPtr + k)).f "準内容語"
  { t with headPtr := match content with
      | some k => t.mrphPtr + k
      | none => t.mrphPtr }

/-- What `after_make_tag_units` does to the tags, their features apart. -/
def afterMakeTagUnits (s : Units) : Units :=
  { s with tag := fun t =>
      if t < s.tagNum then
        { decideHeadPtr s.mrph (s.tag t) with dpndHead := 0, dpndType := 'D' }
      else s.tag t }

end Units

/-- The arrays `tag` hold what earlier sentences left in them. -/
def makeTagUnits (mrphNum bnstNum : Nat) (mrph : Nat → MorphemeData) (tag : Nat → Tag)
    (bnst : Nat → Bnst) : Option Units :=
  (Units.loop bnstNum mrphNum ⟨mrph, 0, tag, bnst, none, some 0, none⟩).map fun s =>
    -- without a morpheme the test reads in front of the array and there is nothing to count
    Units.afterMakeTagUnits
      { s with
        tag := if (s.tag (s.tagNum - 1)).bnum < 0 then makeTagUnitSetInum s.tagNum s.tag else s.tag
        mrph := makeMrphSetInum mrphNum s.mrph }

end Knp.TagUnits
