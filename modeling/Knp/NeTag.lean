import Knp.MrphMerge
import Knp.NamedEntity

/-!
# Named entities on tags (`proper.c`)

`assign_ne_feature_tag` goes through the tags and gives the features of the entities to
them: `NE:` with the text of the entity to the tag in which it ends, `NE内:` to the tags
before. The loop over the tags and the one that follows an entity go on by one tag at a
time; what is carried over is the text of an entity that is not yet complete.

> The last tag of an entity gets its text, the tags before it the type, and no other tag a
> feature. What is in a tag behind another entity is not looked at.

So the text lacks those morphemes of the entity that are in a tag with the end of another
one (同一タグの固有表現は一種類まで).
-/

namespace Knp

namespace NamedEntity

def HEAD : Nat := 0

def MIDDLE : Nat := 1

def TAIL : Nat := 2

def SINGLE : Nat := 3

/-- `get_mrph_ne` -/
def getMrphNe (f : List String) : Nat :=
  match (List.range (NE_MODEL_NUMBER - 1)).find? fun i =>
      hasFeature f ("NE:" ++ tagPosition.getD i "") with
  | some i => i
  | none =>
      match (List.range NE_POSITION_NUMBER).find? fun i =>
          hasFeature f ("NE:OPTIONAL:" ++ positionName.getD i "") with
      | some i => NE_MODEL_NUMBER + 3 + i
      | none => NE_MODEL_NUMBER - 1

/-- A morpheme whose feature `NE`, if it has one, is a class. -/
structure NeMrph where
  f : List String
  goi2 : String
  classed : hasFeature f "NE" = decide (getMrphNe f ≠ NE_MODEL_NUMBER - 1)

namespace NeMrph

variable (m : NeMrph)

def code : Nat := getMrphNe m.f

def isOther : Bool := m.code = NE_MODEL_NUMBER - 1

/-- The place in `Tag_name`. -/
def type : Nat := m.code / 4

def position : Nat := m.code % 4

/-- SINGLE or TAIL -/
def closes : Bool := m.position = SINGLE || m.position = TAIL

end NeMrph

/-- `Tag_name[..]` -/
def typeText (type : Nat) : String := tagName.getD type ""

/-- What is given to a tag: a semantic code or a feature. -/
inductive NeEvent
  | sm (j : Nat) (code : String)
  | feature (j : Nat) (text : String)
deriving DecidableEq

/-- The loop over the morphemes of an entity, as far as the tag goes. -/
inductive TagRun
  | goesOn (cp : String)
  | ended (cp : String)
  | illegal
  | exit

def runTag (cp : String) : List NeMrph → TagRun
  | [] => .goesOn cp
  | m :: ms =>
      -- Illegal NE ending
      if m.isOther then .illegal
      -- Too long tag data
      else if WORD_LEN_MAX * 16 ≤ cp.utf8ByteSize + m.goi2.utf8ByteSize then .exit
      else if m.closes then .ended (cp ++ m.goi2)
      else runTag (cp ++ m.goi2) ms

/-- The type at the first morpheme of a tag. -/
def firstType (tag : List NeMrph) : String := (tag.head?.map fun m => typeText m.type).getD ""

/-- What is given to the tag, and the text that is carried over to the next one; `none` for
`exit`. -/
def closeTag (j : Nat) (tag : List NeMrph) : TagRun → List NeEvent × Option (Option String)
  | .ended cp => ([.feature j cp], some none)
  | .illegal => ([], some none)
  | .exit => ([], none)
  -- 複数のタグにまたがっている場合は次のタグに進む
  | .goesOn cp => ([.feature j ("NE内:" ++ firstType tag)], some (some cp))

/-- ORGANIZATION、PERSONの場合は意味素として与える -/
def assignSm (j : Nat) (m : NeMrph) : List NeEvent :=
  if typeText m.type = "ORGANIZATION" then [.sm j "組織"]
  else if typeText m.type = "PERSON" then [.sm j "人"]
  else []

/-- `sprintf(cp, "NE:%s:", ..)` -/
def neStart (type : Nat) : String := "NE:" ++ typeText type ++ ":"

/-- A tag, with the text of the entity that comes from the tags before it. -/
def tagStep (j : Nat) (tag : List NeMrph) :
    Option String → List NeEvent × Option (Option String)
  | none =>
      match tag.dropWhile fun m => !hasFeature m.f "NE" with
      -- 対象のタグに固有表現が無ければ次のタグへ
      | [] => ([], some none)
      | m :: ms =>
          (assignSm j m ++ (closeTag j tag (runTag (neStart m.type) (m :: ms))).1,
            (closeTag j tag (runTag (neStart m.type) (m :: ms))).2)
  | some cp => closeTag j tag (runTag cp tag)

/-- How the function ends; `outOfRange` if it goes behind the last tag. -/
inductive NeEnd
  | done
  | exit
  | outOfRange
deriving DecidableEq

def assignTags : Option String → Nat → List (List NeMrph) → List NeEvent × NeEnd
  | none, _, [] => ([], .done)
  | some _, _, [] => ([], .outOfRange)
  | cp, j, tag :: tags =>
      match tagStep j tag cp with
      | (events, none) => (events, .exit)
      | (events, some cp') =>
          (events ++ (assignTags cp' (j + 1) tags).1, (assignTags cp' (j + 1) tags).2)

/-- `assign_ne_feature_tag` -/
def assignNeFeatureTag (tags : List (List NeMrph)) : List NeEvent × NeEnd := assignTags none 0 tags

/-- The features that are given to a tag. -/
def given (events : List NeEvent) (j : Nat) : List String :=
  events.filterMap fun e => match e with
    | .feature j' text => if j' = j then some text else none
    | .sm _ _ => none

/-! ## Entities -/

/-- MIDDLE* TAIL of the type. -/
def IsRest (type : Nat) : List NeMrph → Prop
  | [] => False
  | m :: ms => m.isOther = false ∧ m.type = type ∧
      (m.position = TAIL ∧ ms = [] ∨ m.position = MIDDLE ∧ IsRest type ms)

/-- SINGLE, or HEAD MIDDLE* TAIL, of the type. -/
def IsEntity (type : Nat) : List NeMrph → Prop
  | [] => False
  | m :: ms => m.isOther = false ∧ m.type = type ∧
      (m.position = SINGLE ∧ ms = [] ∨ m.position = HEAD ∧ IsRest type ms)

/-- The text with the morphemes behind it. -/
def surface (cp : String) (ms : List NeMrph) : String := ms.foldl (fun cp m => cp ++ m.goi2) cp

/-- `NE:TYPE:string` -/
def neText (type : Nat) (ms : List NeMrph) : String := surface (neStart type) ms

/-- A morpheme that is OTHER, or the morphemes of an entity. -/
inductive NeUnit
  | other (m : NeMrph) (other : m.isOther = true)
  | entity (type : Nat) (ms : List NeMrph) (entity : IsEntity type ms)
      (fits : (neText type ms).utf8ByteSize < WORD_LEN_MAX * 16)

def NeUnit.mrphs : NeUnit → List NeMrph
  | .other m _ => [m]
  | .entity _ ms _ _ => ms

/-- A sentence with its tags. -/
structure NeSentence where
  units : List NeUnit
  tags : List (List NeMrph)
  tags_ne : ∀ tag ∈ tags, tag ≠ []
  covers : tags.flatten = units.flatMap NeUnit.mrphs

/-- The tags over which the parts are spread. -/
def spread (before after : List NeMrph) : List (List NeMrph) → List (List NeMrph)
  | [] => []
  | [p] => [before ++ (p ++ after)]
  | p :: q :: ps => (before ++ p) :: spread [] after (q :: ps)

/-- The tags before those in which an entity is the first one, what these begin with, and the
morphemes of the entity that are in a tag behind another one. -/
inductive NeFront (front : List NeMrph) :
    List (List NeMrph) → List NeMrph → List NeMrph → Prop
  | first (tags : List (List NeMrph)) (before : List NeMrph)
      (covers : tags.flatten ++ before = front)
      (others : ∀ m ∈ before, m.isOther = true) : NeFront front tags before []
  | behind (tags : List (List NeMrph)) (tag cut : List NeMrph)
      (covers : tags.flatten ++ tag = front)
      (another : ∃ m ∈ tag, m.isOther = false) : NeFront front (tags ++ [tag ++ cut]) [] cut

/-- An entity of the sentence, and the tags in which it is the first one. -/
structure NePlace (s : NeSentence) where
  front : List NeUnit
  type : Nat
  ms : List NeMrph
  entity : IsEntity type ms
  fits : (neText type ms).utf8ByteSize < WORD_LEN_MAX * 16
  back : List NeUnit
  units_eq : s.units = front ++ .entity type ms entity fits :: back
  tagsBefore : List (List NeMrph)
  before : List NeMrph
  cut : List NeMrph
  place : NeFront (front.flatMap NeUnit.mrphs) tagsBefore before cut
  parts : List (List NeMrph)
  parts_ne : ∀ p ∈ parts, p ≠ []
  ms_eq : ms = cut ++ parts.flatten
  after : List NeMrph
  tagsAfter : List (List NeMrph)
  tags_eq : s.tags = tagsBefore ++ (spread before after parts ++ tagsAfter)

/-- What the tags of an entity get: the last one the text, and the others the type, unless it
begins behind morphemes that are OTHER. -/
def EntityGiven (events : List NeEvent) {s : NeSentence} (p : NePlace s) : Prop :=
  ∀ k < p.parts.length,
    (k + 1 = p.parts.length →
      given events (p.tagsBefore.length + k) = [neText p.type p.parts.flatten]) ∧
    (k + 1 < p.parts.length → ∃ type,
      given events (p.tagsBefore.length + k) = ["NE内:" ++ type] ∧
        (0 < k ∨ p.before = [] → type = typeText p.type))

/-- The law: every entity is given to the tags in which it is the first one, which are all tags
that have an entity, any other tag gets no feature, and no index leaves the sentence. -/
structure TagLaw (s : NeSentence) : Prop where
  inside : (assignNeFeatureTag s.tags).2 = .done
  placed : ∀ front tag back, s.tags = front ++ tag :: back → (∃ m ∈ tag, m.isOther = false) →
    ∃ p : NePlace s, ∃ k < p.parts.length, p.tagsBefore.length + k = front.length
  entity : ∀ p : NePlace s, EntityGiven (assignNeFeatureTag s.tags).1 p
  other : ∀ front tag back, s.tags = front ++ tag :: back → (∀ m ∈ tag, m.isOther = true) →
    given (assignNeFeatureTag s.tags).1 front.length = []
  behind : ∀ j, s.tags.length ≤ j → given (assignNeFeatureTag s.tags).1 j = []

/-- The whole text to the tag with the last morpheme. -/
def FullText (s : NeSentence) : Prop :=
  ∀ front type ms entity fits back, s.units = front ++ .entity type ms entity fits :: back →
    ∀ tagsBefore tag tagsAfter, s.tags = tagsBefore ++ tag :: tagsAfter →
      tagsBefore.flatten.length < (front.flatMap NeUnit.mrphs ++ ms).length →
      (front.flatMap NeUnit.mrphs ++ ms).length ≤ (tagsBefore.flatten ++ tag).length →
      neText type ms ∈ given (assignNeFeatureTag s.tags).1 tagsBefore.length

end NamedEntity

end Knp
