import Knp.Corefer
import Knp.StepRun

/-!
# Entities and their mentions (`anaphora.c`)

An entity lists the mentions of it, and a mention has a pointer to its entity. A mention
is registered with an entity, and the list of a hypothetical entity is appended to that of
a real one, the list of the source then being empty.

> Both directions agree, and no mention is lost, in all states of a run if and only if
> no mention is registered with a full list, and a list that is not empty is only merged
> with another one that has room for it, all its mentions being words of the text.

`merge_two_entity` re-points the first mention of a tag, and only for the types `S` and
`=`. `merge_hypo_real_entity` looks for an entity whose hypothetical name is the name of
the source, and meets the source.
-/

namespace Knp

def MENTIONED_MAX : Nat := 256

def UNNAMED_ENTITY_NUM : Nat := 5

/-- A cell of the `MENTION_MGR` of a tag; the cell 0 is the tag itself. -/
abbrev MentionRef := TagRef × Nat

/-- `ENTITY`: the cells of `mention` below `mentioned_num`. -/
structure Entity where
  name : String
  hypotheticalName : String
  hypotheticalFlag : Bool
  realEntity : Option Nat
  hypotheticalEntity : Option Nat
  skipFlag : Bool
  coreferId : Option Nat
  mention : List MentionRef

/-- Memory that is not used yet. -/
def Entity.blank : Entity := ⟨"", "", false, none, none, false, none, []⟩

/-- The entities, and `type` and `entity` of the mentions. -/
structure EntityManager where
  num : Nat
  entity : Nat → Entity
  type : MentionRef → Char
  link : MentionRef → Option Nat

/-- The tags that the options name as the author's and the reader's. -/
structure AuthorReader where
  author : Option TagRef
  reader : Option TagRef

namespace EntityManager

def init : EntityManager := ⟨0, fun _ => Entity.blank, fun _ => 'S', fun _ => none⟩

def setEntity (st : EntityManager) (k : Nat) (e : Entity) : EntityManager :=
  { st with entity := Function.update st.entity k e }

@[simp] theorem setEntity_num (st : EntityManager) (k : Nat) (e : Entity) :
    (st.setEntity k e).num = st.num := rfl

@[simp] theorem setEntity_type (st : EntityManager) (k : Nat) (e : Entity) :
    (st.setEntity k e).type = st.type := rfl

@[simp] theorem setEntity_link (st : EntityManager) (k : Nat) (e : Entity) :
    (st.setEntity k e).link = st.link := rfl

theorem setEntity_entity (st : EntityManager) (k j : Nat) (e : Entity) :
    (st.setEntity k e).entity j = if j = k then e else st.entity j := by
  simp [setEntity, Function.update_apply]

/-! ## Registration -/

/-- The cell at `mentioned_num` is written, and counted if it is not the last one. -/
def addMention (e : Entity) (m : MentionRef) : Entity :=
  if MENTIONED_MAX - 1 ≤ e.mention.length then e else { e with mention := e.mention ++ [m] }

/-- A mention is linked to an entity and registered with it. -/
def register (st : EntityManager) (m : MentionRef) (k : Nat) (type : Char) : EntityManager :=
  { st.setEntity k (addMention (st.entity k) m) with
    type := Function.update st.type m type
    link := Function.update st.link m (some k) }

/-- `link_entity_from_corefer_id` -/
def linkEntityFromCoreferId (st : EntityManager) (m : MentionRef) (coreferId : Nat) :
    EntityManager :=
  (List.range st.num).foldl (fun st k =>
    if (st.entity k).coreferId = some coreferId then st.register m k '=' else st) st

/-- `make_new_entity` -/
def makeNewEntity (st : EntityManager) (t : TagRef) (name : String) (coreferId : Option Nat) :
    EntityManager :=
  { st.setEntity st.num { Entity.blank with name, coreferId, mention := [(t, 0)] } with
    num := st.num + 1
    type := Function.update st.type (t, 0) 'S'
    link := Function.update st.link (t, 0) (some st.num) }

/-- `make_each_unnamed_entity`; `num` is -1 where no name is known. -/
def makeEachUnnamedEntity (st : EntityManager) (name : String) (num : Option Nat)
    (skipFlag : Bool) : EntityManager :=
  { st.setEntity st.num { Entity.blank with
      name := name.map fun c => if c = ':' then '-' else c
      hypotheticalName := name
      hypotheticalFlag := true
      hypotheticalEntity := num
      skipFlag } with
    num := st.num + 1 }

/-- A tag in `make_entity_from_coreference`: a new entity where no entity has its COREFER_ID. -/
def linkTag (st : EntityManager) (t : TagRef) (name : String) (coreferId : Option Nat) :
    EntityManager :=
  let st := match coreferId with
    | some id => st.linkEntityFromCoreferId (t, 0) id
    | none => st
  if st.link (t, 0) = none then st.makeNewEntity t name coreferId else st

/-! ## Merging -/

/-- A mention of the source comes to the target. -/
def moveMention (target : Nat) (st : EntityManager) (m : MentionRef) : EntityManager :=
  let type := if st.type m = 'E' then 'O' else st.type m
  { st with
    type := Function.update st.type m type
    -- the pointer that is set is that of the tag's first mention
    link := if type = 'S' ∨ type = '=' then Function.update st.link (m.1, 0) (some target)
      else st.link }

/-- `merge_two_entity` -/
def mergeTwoEntity (st : EntityManager) (target source : Nat) : EntityManager :=
  let ms := (st.entity source).mention
  let st := ms.foldl (moveMention target) st
  let st := st.setEntity target
    { st.entity target with mention := (st.entity target).mention ++ ms }
  st.setEntity source { st.entity source with mention := [], skipFlag := true }

/-- The hypothetical entity of an entity: 0 for the author's, 1 for the reader's. -/
def hypoNum (env : AuthorReader) (st : EntityManager) (idx : Nat) : Option Nat :=
  (st.entity idx).mention.findSome? fun m =>
    if st.type m ≠ '=' ∧ st.type m ≠ 'S' then none
    else if some m.1 = env.author then some 0
    else if some m.1 = env.reader then some 1
    else none

/-- `real_entity` and `hypothetical_entity` -/
def pairHypo (st : EntityManager) (idx hypo : Nat) : EntityManager :=
  let st := st.setEntity hypo { st.entity hypo with realEntity := some idx }
  st.setEntity idx { st.entity idx with hypotheticalEntity := some hypo }

/-- The name of the hypothetical entity comes behind a bar. -/
def addName (st : EntityManager) (idx hypo : Nat) : EntityManager :=
  st.setEntity idx { st.entity idx with
    name := (st.entity idx).name ++ "|" ++ (st.entity hypo).name }

/-- One turn of `merge_hypo_real_entity_auto`. -/
def mergeAuto (env : AuthorReader) (st : EntityManager) (idx : Nat) : EntityManager :=
  match hypoNum env st idx with
  | none => st
  | some hypo => ((st.pairHypo idx hypo).mergeTwoEntity idx hypo).addName idx hypo

def mergeHypoRealEntityAuto (env : AuthorReader) (st : EntityManager) : EntityManager :=
  (List.range st.num).foldl (mergeAuto env) st

/-- An entity of `unnamed_entity` with a real one. -/
def mergeReal (st : EntityManager) (i : Nat) : EntityManager :=
  match (st.entity i).realEntity with
  | none => st
  | some real => st.mergeTwoEntity real i

/-- Another hypothetical entity `i`, and the entity `j`. -/
def mergeNamed (i : Nat) (st : EntityManager) (j : Nat) : EntityManager :=
  if (st.entity i).name = (st.entity j).hypotheticalName then st.mergeTwoEntity j i else st

/-- One turn of `merge_hypo_real_entity`. -/
def mergeHypo (st : EntityManager) (i : Nat) : EntityManager :=
  if (st.entity i).hypotheticalFlag = false then st
  else if i < UNNAMED_ENTITY_NUM then st.mergeReal i
  else (List.range st.num).foldl (mergeNamed i) st

def mergeHypoRealEntity (st : EntityManager) : EntityManager :=
  (List.range st.num).foldl mergeHypo st

end EntityManager

end Knp
