import Knp.FeatureFunction

/-!
# Classes of named entities (`proper.c`)

A class is a type and a position, and its code is its place in `TagPosition`. `read_ne`
takes the classes from the features `NE:...` of the morphemes.

> Each morpheme gets the code of its class, or that of `OTHER`, just if no entity is
> optional and all that are given are in the table.

The scan for a text stops only where it is found; behind the table it goes on through
what is there.
-/

namespace Knp

namespace NamedEntity

def NE_MODEL_NUMBER : Nat := 33

def NE_TAG_NUMBER : Nat := 9

def NE_POSITION_NUMBER : Nat := 4

def tagName : List String :=
  ["ORGANIZATION", "PERSON", "LOCATION", "ARTIFACT", "DATE", "TIME", "MONEY", "PERCENT", "OTHER",
    "OPTIONAL"]

def positionName : List String := ["head", "middle", "tail", "single"]

/-- `init_tagposition` -/
def tagPosition : List String :=
  (tagName.take (NE_TAG_NUMBER - 1)).flatMap (fun t => positionName.map fun p => t ++ ":" ++ p) ++
    ["OTHER:single"]

/-- The texts from `TagPosition[i]` on; behind the table what the memory holds, if it can be
read. -/
def tagPositionAt (beyond : Nat → Option String) (i : Nat) : Option String :=
  if i < NE_MODEL_NUMBER then tagPosition[i]? else beyond i

/-- `for (i = 0; TagPosition[i]; i++)`, where the condition is always met. -/
def scanTagPosition (beyond : Nat → Option String) (cp : String) : Nat → Nat → Option Nat
  | 0, _ => none
  | fuel + 1, i =>
      match tagPositionAt beyond i with
      | none => none
      | some text => if text = cp then some i else scanTagPosition beyond cp fuel (i + 1)

/-- `ne_tagposition_to_code` -/
def neTagpositionToCode (beyond : Nat → Option String) (fuel : Nat) (cp : String) : Option Nat :=
  scanTagPosition beyond cp fuel 0

/-- The features of the morphemes; one with the name `NE` has a colon. -/
structure NeText where
  f : List (List String)
  colon : ∀ fs ∈ f, "NE" ∉ fs

/-- The turn of `read_ne` for one morpheme. -/
def readNeCode (beyond : Nat → Option String) (fuel : Nat) (f : List String) : Option Nat :=
  match checkFeature f "NE:OPTIONAL" with
  | some _ => some ((List.range NE_POSITION_NUMBER).foldl (fun _ j => NE_MODEL_NUMBER - 1 + j) 0)
  | none =>
      match checkFeature f "NE" with
      | some cp => neTagpositionToCode beyond fuel (Feature.textAfter 3 cp)
      | none => some (NE_MODEL_NUMBER - 1)

/-- `read_ne`: `NEresult` of the morphemes. -/
def readNe (beyond : Nat → Option String) (fuel : Nat) (sp : NeText) : Option (List Nat) :=
  sp.f.mapM (readNeCode beyond fuel)

/-! ## What should be read -/

/-- The class that a morpheme names. -/
def namedClass (f : List String) : Option String := (checkFeature f "NE").map (Feature.textAfter 3)

/-- The code of a known class, and `OTHER` otherwise. -/
def classCode (f : List String) : Nat :=
  match namedClass f with
  | some cp => if cp ∈ tagPosition then tagPosition.idxOf cp else NE_MODEL_NUMBER - 1
  | none => NE_MODEL_NUMBER - 1

/-- The law of `read_ne`. -/
def ReadsClasses (beyond : Nat → Option String) (sp : NeText) : Prop :=
  ∃ fuel codes, readNe beyond fuel sp = some codes ∧ codes = sp.f.map classCode ∧
    ∀ code ∈ codes, code < NE_MODEL_NUMBER

/-- No entity is optional, and the classes are known. -/
structure Known (f : List String) : Prop where
  required : hasFeature f "NE:OPTIONAL" = false
  known : ∀ cp, namedClass f = some cp → cp ∈ tagPosition

/-! ## The scan -/

section Scan

variable {beyond : Nat → Option String} {cp : String} {fuel i : Nat} {f : List String}

theorem length_tagPosition : tagPosition.length = NE_MODEL_NUMBER := by decide

theorem ne_of_lt_idxOf {l : List String} (hi : i < l.idxOf cp) (hlt : i < l.length) : l[i] ≠ cp := by
  intro heq
  have hbeq := List.not_of_lt_findIdx hi
  rw [heq, beq_self_eq_true] at hbeq
  cases hbeq

/-- What is found is at its place, and not before `i`. -/
theorem scanTagPosition_spec {j : Nat} (h : scanTagPosition beyond cp fuel i = some j) :
    i ≤ j ∧ tagPositionAt beyond j = some cp := by
  induction fuel generalizing i with
  | zero => cases h
  | succ fuel ih =>
      rw [scanTagPosition] at h
      cases hat : tagPositionAt beyond i with
      | none =>
          rw [hat] at h
          cases h
      | some text =>
          rw [hat] at h
          dsimp only at h
          split at h
          next heq =>
            cases h
            rw [hat, heq]
            exact ⟨Nat.le_refl _, rfl⟩
          next =>
            have hnext := ih h
            exact ⟨by omega, hnext.2⟩

/-- A text of the table is found at its first place. -/
theorem scanTagPosition_of_idxOf (hi : i ≤ tagPosition.idxOf cp)
    (hidx : tagPosition.idxOf cp < tagPosition.length)
    (hfuel : tagPosition.idxOf cp < i + fuel) :
    scanTagPosition beyond cp fuel i = some (tagPosition.idxOf cp) := by
  induction fuel generalizing i with
  | zero => omega
  | succ fuel ih =>
      have hlt : i < tagPosition.length := Nat.lt_of_le_of_lt hi hidx
      rw [scanTagPosition, tagPositionAt, if_pos (length_tagPosition ▸ hlt),
        List.getElem?_eq_getElem hlt]
      dsimp only
      rcases Nat.lt_or_eq_of_le hi with hbefore | heq
      · rw [if_neg (ne_of_lt_idxOf hbefore hlt)]
        exact ih hbefore (by omega)
      · have hat : tagPosition[i] = cp := by
          subst heq
          exact List.getElem_idxOf hidx
        rw [if_pos hat, heq]

theorem idxOf_lt (hcp : cp ∈ tagPosition) : tagPosition.idxOf cp < NE_MODEL_NUMBER := by
  rw [← length_tagPosition]
  exact List.idxOf_lt_length_iff.mpr hcp

theorem classCode_lt (f : List String) : classCode f < NE_MODEL_NUMBER := by
  unfold classCode
  split
  next cp _ =>
    split
    next hcp => exact idxOf_lt hcp
    next => decide
  next => decide

/-- A known class is found in the table. -/
theorem readNeCode_of_known (h : Known f) :
    readNeCode beyond NE_MODEL_NUMBER f = some (classCode f) := by
  have hrequired : checkFeature f "NE:OPTIONAL" = none :=
    Option.not_isSome_iff_eq_none.mp (Bool.eq_false_iff.mp h.required)
  unfold readNeCode classCode
  rw [hrequired]
  cases hne : checkFeature f "NE" with
  | none =>
      have hclass : namedClass f = none := by
        rw [namedClass, hne, Option.map_none]
      rw [hclass]
  | some cp =>
      have hclass : namedClass f = some (Feature.textAfter 3 cp) := by
        rw [namedClass, hne, Option.map_some]
      have hmem := h.known _ hclass
      have hlt := idxOf_lt hmem
      rw [hclass]
      dsimp only
      rw [if_pos hmem]
      exact scanTagPosition_of_idxOf (Nat.zero_le _) (length_tagPosition ▸ hlt) (by omega)

/-- The code of a morpheme is in range only for a known class. -/
theorem known_of_readNeCode (h : readNeCode beyond fuel f = some (classCode f)) : Known f := by
  have hlt := classCode_lt f
  unfold readNeCode at h
  cases hoptional : checkFeature f "NE:OPTIONAL" with
  | some cp =>
      rw [hoptional] at h
      have hcode : 35 = classCode f := Option.some.inj h
      exact absurd hlt (by rw [← hcode]; decide)
  | none =>
      rw [hoptional] at h
      refine ⟨by rw [hasFeature, hoptional]; rfl, ?_⟩
      intro cp hclass
      obtain ⟨text, hne, rfl⟩ := Option.map_eq_some_iff.mp hclass
      rw [hne] at h
      have hat := (scanTagPosition_spec h).2
      rw [tagPositionAt, if_pos hlt] at hat
      exact List.mem_of_getElem? hat

end Scan

theorem eq_of_mapM_eq_map {α β : Type*} {f : α → Option β} {g : α → β} {l : List α}
    (h : l.mapM f = some (l.map g)) : ∀ x ∈ l, f x = some (g x) := by
  induction l with
  | nil =>
      intro x hx
      cases hx
  | cons x l ih =>
      rw [List.mapM_cons] at h
      obtain ⟨y, hy, hrest⟩ := Option.bind_eq_some_iff.mp h
      obtain ⟨ys, hys, hsome⟩ := Option.bind_eq_some_iff.mp hrest
      obtain ⟨rfl, rfl⟩ := List.cons.inj (Option.some.inj hsome)
      exact List.forall_mem_cons.mpr ⟨hy, ih hys⟩

/-- The classes are read as they should be just if all of them are known and none is optional. -/
theorem readNe_iff (beyond : Nat → Option String) (sp : NeText) :
    ReadsClasses beyond sp ↔ ∀ f ∈ sp.f, Known f := by
  constructor
  · rintro ⟨fuel, codes, hread, rfl, _⟩ f hf
    exact known_of_readNeCode (eq_of_mapM_eq_map hread f hf)
  · intro h
    refine ⟨NE_MODEL_NUMBER, sp.f.map classCode, ?_, rfl, ?_⟩
    · refine Loop.mapM_eq_some_map ?_
      intro f hf
      exact readNeCode_of_known (h f hf)
    · intro code hcode
      obtain ⟨f, _, rfl⟩ := List.mem_map.mp hcode
      exact classCode_lt f

/-- One morpheme, which may be a person. -/
def optionalPerson : NeText where
  f := [["NE:OPTIONAL:single"]]
  colon := by decide

theorem optionalPerson_out_of_range : ¬ ReadsClasses (fun _ => none) optionalPerson := by
  rintro ⟨fuel, codes, hread, -, hlt⟩
  have hcodes : readNe (fun _ => none) fuel optionalPerson = some [35] := by rfl
  rw [hcodes] at hread
  cases hread
  exact absurd (hlt 35 (List.mem_singleton_self 35)) (by decide)

end NamedEntity

end Knp
