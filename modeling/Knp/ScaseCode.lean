import Knp.FeatureFunction
import Knp.SurfaceCase

/-!
# Surface cases from the dictionary (`lib_scase.c`)

`get_scase_code` looks the predicate up and, when its representation is ambiguous, each
of its alternative readings, and adds the codes by OR. A code has a digit for each case;
`get_scase` turns the digits into numbers in place.

> The slots are those of all entries just if the first entry that is found has the slots
> of the others.

`or_scase_code` stops at the first slot that is zero, as if the codes were still strings.
-/

namespace Knp

def SCASE_CODE_SIZE : Nat := 11

/-- A value of the dictionary: a digit for each slot. -/
structure ScaseEntry where
  text : List UInt8
  length_eq : text.length = SCASE_CODE_SIZE
  digits : ∀ c ∈ text, c = 48 ∨ c = 49

/-- `for (i = 0; *(value+i) != '\0'; i++) *(value+i) -= '0';` -/
def decodeScase : List UInt8 → List UInt8
  | [] => []
  | c :: value => if c = 0 then c :: value else (c - 48) :: decodeScase value

/-- The value of an entry, with its end. -/
def ScaseEntry.decoded (e : ScaseEntry) : List UInt8 := decodeScase (e.text ++ [0])

/-- `for (i = 0; *(*dst + i) != '\0'; i++) *(*dst + i) |= *(src + i);` -/
def orScase : List UInt8 → List UInt8 → List UInt8
  | d :: dst, s :: src => if d = 0 then d :: dst else (d ||| s) :: orScase dst src
  | dst, _ => dst

/-- `or_scase_code` -/
def orScaseCode (dst src : Option (List UInt8)) : Option (List UInt8) :=
  match dst, src with
  | none, src => src
  | some dst, none => some dst
  | some dst, some src => some (orScase dst src)

def VOICE_SHIEKI : Nat := 1

def VOICE_UKEMI : Nat := 2

def VOICE_SHIEKI_UKEMI : Nat := 4

def VOICE_MORAU : Nat := 8

def VOICE_HOSHII : Nat := 16

/-- The predicate, the text that `make_pred_string` makes of it or of the reading of a feature,
and the dictionary, if there is one. -/
structure ScasePred where
  f : List String
  headF : List String
  voice : Nat
  predString : Option String → String
  db : Option (String → Option ScaseEntry)

namespace ScasePred

variable (p : ScasePred)

def hasVoice (v : Nat) : Bool := p.voice &&& v ≠ 0

def voiceText : String :=
  if p.hasVoice VOICE_UKEMI then ":P" else if p.hasVoice VOICE_SHIEKI then ":C"
  else if p.hasVoice VOICE_SHIEKI_UKEMI then ":PC" else ""

/-- `get_scase` -/
def getScase (key : String) : Option ScaseEntry := p.db.bind fun db => db key

/-- The key for the predicate or one of its readings. -/
def scaseKey (vtype : String) (reading : Option String) : String :=
  p.predString reading ++ ":" ++ vtype ++ p.voiceText

/-- The keys in the order in which they are looked up: 用言だけで検索, 代表表記が曖昧な用言の場合. -/
def scaseKeys : List String :=
  match p.db, checkFeature p.f "用言" with
  | some _, some vtype =>
      if vtype = "用言:判" then []
      else
        let vtype := Feature.textAfter 3 vtype
        p.scaseKey vtype none ::
          if hasFeature p.headF "原形曖昧" then
            (p.headF.filter fun cp => "ALT-".toList.isPrefixOf cp.toList).map fun cp =>
              p.scaseKey vtype (some cp)
          else []
  | _, _ => []

/-- The entries that are found. -/
def entries : List ScaseEntry := p.scaseKeys.filterMap p.getScase

/-- `ans`; ORで足す. -/
def ans : Option (List UInt8) :=
  p.scaseKeys.foldl (fun ans key => orScaseCode ans ((p.getScase key).map ScaseEntry.decoded)) none

/-- `SCASE_code[case2num(..)] = 1` -/
def setCase (name : String) (code : Nat → UInt8) : Nat → UInt8 :=
  match case2num (utf8 name) with
  | some i => Function.update code i 1
  | none => code

/-- 判定詞などの場合, 表層格辞書がない場合, または辞書にない用言の場合 -/
def defaultScase : Nat → UInt8 :=
  let code : Nat → UInt8 := fun _ => 0
  if hasFeature p.f "用言:判" then setCase "ガ格" code
  else if hasFeature p.f "用言:形" then setCase "ニ格" (setCase "ガ格" code)
  else if hasFeature p.f "用言:動" then
    setCase "ト格" (setCase "ヘ格" (setCase "ニ格" (setCase "ヲ格" (setCase "ガ格" code))))
  else code

/-- ヴォイスによる修正 -/
def adjustVoice (code : Nat → UInt8) : Nat → UInt8 :=
  if p.hasVoice VOICE_SHIEKI then setCase "ニ格" (setCase "ヲ格" code)
  else if p.hasVoice VOICE_UKEMI || p.hasVoice VOICE_SHIEKI_UKEMI then setCase "ニ格" code
  else if p.hasVoice VOICE_MORAU || p.hasVoice VOICE_HOSHII then setCase "ニ格" (setCase "ヲ格" code)
  else code

/-- `get_scase_code`: what is left in `SCASE_code`. -/
def getScaseCode : Nat → UInt8 :=
  p.adjustVoice
    (match p.ans with
    | some ans => fun i => if i < SCASE_CODE_SIZE then ans.getD i 0 else 0
    | none => p.defaultScase)

/-! ## What should be found -/

/-- The voice sets the slot. -/
def setByVoice (i : Nat) : Bool := p.adjustVoice (fun _ => 0) i = 1

/-- Some entry has the slot. -/
def anyHas (i : Nat) : Bool := p.entries.any fun e => e.text[i]? = some 49

/-- The law: the slots of all entries that are found, with those that the voice sets. -/
def SumsEntries : Prop :=
  p.entries ≠ [] → ∀ i < SCASE_CODE_SIZE,
    p.getScaseCode i = p.adjustVoice (fun i => if p.anyHas i then 1 else 0) i

/-- What an entry has, the first one has, or the voice sets. -/
def FirstCovers : Prop :=
  ∀ first ∈ p.entries.head?, ∀ e ∈ p.entries, ∀ i < SCASE_CODE_SIZE,
    e.text[i]? = some 49 → first.text[i]? = some 49 ∨ p.setByVoice i = true

end ScasePred

/-! ## Codes -/

section Codes

variable {value dst : List UInt8} {e : ScaseEntry} {i : Nat}

/-- No digit ends the text. -/
theorem decodeScase_append (h : ∀ c ∈ value, c = 48 ∨ c = 49) :
    decodeScase (value ++ [0]) = value.map (· - 48) ++ [0] := by
  induction value with
  | nil => rfl
  | cons c value ih =>
      have hc : c ≠ 0 := by
        rcases h c List.mem_cons_self with rfl | rfl
        · decide
        · decide
      rw [List.cons_append, decodeScase, if_neg hc,
        ih fun c' hc' => h c' (List.mem_cons_of_mem c hc'), List.map_cons, List.cons_append]

theorem decoded_getD (hi : i < SCASE_CODE_SIZE) :
    e.decoded.getD i 0 = if e.text[i]? = some 49 then 1 else 0 := by
  have hlt : i < e.text.length := by rw [e.length_eq]; exact hi
  have hget := List.getElem?_eq_getElem hlt
  rw [ScaseEntry.decoded, decodeScase_append e.digits, List.getD_eq_getElem?_getD,
    List.getElem?_append_left (by rw [List.length_map]; exact hlt), List.getElem?_map, hget]
  rcases e.digits _ (List.getElem_mem hlt) with hdigit | hdigit
  · rw [hdigit]
    decide
  · rw [hdigit]
    decide

theorem decoded_bits : ∀ c ∈ e.decoded, c = 0 ∨ c = 1 := by
  rw [ScaseEntry.decoded, decodeScase_append e.digits]
  intro c hc
  rcases List.mem_append.mp hc with hc | hc
  · obtain ⟨d, hd, rfl⟩ := List.mem_map.mp hc
    rcases e.digits d hd with rfl | rfl
    · exact .inl rfl
    · exact .inr rfl
  · exact .inl (List.mem_singleton.mp hc)

/-- A slot that is reached is set already, so that nothing is added. -/
theorem orScase_eq_self (hdst : ∀ c ∈ dst, c = 0 ∨ c = 1) {src : List UInt8}
    (hsrc : ∀ c ∈ src, c = 0 ∨ c = 1) : orScase dst src = dst := by
  induction dst generalizing src with
  | nil => rfl
  | cons d dst ih =>
      cases src with
      | nil => rfl
      | cons s src =>
          rw [orScase]
          split
          next => rfl
          next hd =>
            have hone := (hdst d List.mem_cons_self).resolve_left hd
            have hor : d ||| s = d := by
              rcases hsrc s List.mem_cons_self with rfl | rfl
              · rw [hone]
                rfl
              · rw [hone]
                rfl
            rw [hor, ih (fun c hc => hdst c (List.mem_cons_of_mem d hc))
              fun c hc => hsrc c (List.mem_cons_of_mem s hc)]

end Codes

namespace ScasePred

variable {p : ScasePred} {i : Nat}

/-- What has been found first stays. -/
theorem foldl_orScaseCode (keys : List String) (first : Option ScaseEntry) :
    keys.foldl (fun ans key => orScaseCode ans ((p.getScase key).map ScaseEntry.decoded))
        (first.map ScaseEntry.decoded) =
      (first.or (keys.filterMap p.getScase).head?).map ScaseEntry.decoded := by
  induction keys generalizing first with
  | nil =>
      cases first with
      | none => rfl
      | some e => rfl
  | cons key keys ih =>
      rw [List.foldl_cons, List.filterMap_cons]
      cases first with
      | none =>
          cases hkey : p.getScase key with
          | none => exact ih none
          | some e => exact ih (some e)
      | some e =>
          have hstep : orScaseCode ((some e).map ScaseEntry.decoded)
              ((p.getScase key).map ScaseEntry.decoded) = (some e).map ScaseEntry.decoded := by
            cases p.getScase key with
            | none => rfl
            | some e' => exact congrArg some (orScase_eq_self decoded_bits decoded_bits)
          rw [hstep]
          exact ih (some e)

theorem ans_eq : p.ans = p.entries.head?.map ScaseEntry.decoded := foldl_orScaseCode p.scaseKeys none

theorem setCase_apply (name : String) (code : Nat → UInt8) :
    setCase name code i = if case2num (utf8 name) = some i then 1 else code i := by
  unfold setCase
  cases case2num (utf8 name) with
  | none => rfl
  | some j =>
      by_cases hij : i = j
      · rw [hij, if_pos rfl]
        exact Function.update_self j 1 code
      · rw [if_neg (fun h => hij (Option.some.inj h).symm)]
        exact Function.update_of_ne hij 1 code

/-- What is set does not depend on what was there. -/
theorem setCases_apply (names : List String) (code : Nat → UInt8) :
    (names.foldl (fun code name => setCase name code) code) i =
      if names.any fun name => case2num (utf8 name) = some i then 1 else code i := by
  induction names generalizing code with
  | nil => rfl
  | cons name names ih =>
      rw [List.foldl_cons, ih, setCase_apply, List.any_cons]
      by_cases hname : case2num (utf8 name) = some i
      · rw [if_pos hname, decide_eq_true hname, Bool.true_or, if_pos rfl, ite_self]
      · rw [if_neg hname, decide_eq_false hname, Bool.false_or]

/-- The cases that the voice sets. -/
def voiceCases (p : ScasePred) : List String :=
  if p.hasVoice VOICE_SHIEKI then ["ヲ格", "ニ格"]
  else if p.hasVoice VOICE_UKEMI || p.hasVoice VOICE_SHIEKI_UKEMI then ["ニ格"]
  else if p.hasVoice VOICE_MORAU || p.hasVoice VOICE_HOSHII then ["ヲ格", "ニ格"]
  else []

theorem adjustVoice_eq (code : Nat → UInt8) :
    p.adjustVoice code = p.voiceCases.foldl (fun code name => setCase name code) code := by
  unfold adjustVoice voiceCases
  split
  · rfl
  · split
    · rfl
    · split
      · rfl
      · rfl

theorem adjustVoice_apply (code : Nat → UInt8) :
    p.adjustVoice code i = if p.setByVoice i then 1 else code i := by
  have hset : p.setByVoice i = p.voiceCases.any fun name => case2num (utf8 name) = some i := by
    rw [setByVoice, adjustVoice_eq, setCases_apply]
    split
    next h =>
      rw [h]
      rfl
    next h =>
      rw [Bool.eq_false_iff.mpr h]
      rfl
  rw [hset, adjustVoice_eq, setCases_apply]

/-- The slots are those of all entries if and only if the first one covers the others. -/
theorem getScaseCode_iff (p : ScasePred) : p.SumsEntries ↔ p.FirstCovers := by
  cases hfirst : p.entries.head? with
  | none =>
      have hnil := List.head?_eq_none_iff.mp hfirst
      constructor
      · intro _ first hsome
        rw [hfirst] at hsome
        cases hsome
      · intro _ hne
        exact absurd hnil hne
  | some first =>
      have hmem : first ∈ p.entries := List.mem_of_mem_head? hfirst
      have hcode : ∀ i < SCASE_CODE_SIZE, p.getScaseCode i =
          if p.setByVoice i then 1 else if first.text[i]? = some 49 then 1 else 0 := by
        intro i hi
        rw [getScaseCode, ans_eq, hfirst, Option.map_some, adjustVoice_apply]
        dsimp only
        rw [if_pos hi, decoded_getD hi]
      have hslot : ∀ i < SCASE_CODE_SIZE,
          (p.getScaseCode i = p.adjustVoice (fun i => if p.anyHas i then 1 else 0) i ↔
            (p.anyHas i = true → first.text[i]? = some 49 ∨ p.setByVoice i = true)) := by
        intro i hi
        rw [hcode i hi, adjustVoice_apply]
        by_cases hvoice : p.setByVoice i = true
        · simp [hvoice]
        · by_cases hhas : first.text[i]? = some 49
          · have hany : p.anyHas i = true :=
              List.any_eq_true.mpr ⟨first, hmem, decide_eq_true hhas⟩
            simp [hvoice, hhas, hany]
          · cases hany : p.anyHas i with
            | false => simp [hvoice, hhas]
            | true => simp [hvoice, hhas]
      constructor
      · intro h first' hfirst' e he i hi hhas
        rw [hfirst] at hfirst'
        cases hfirst'
        refine (hslot i hi).mp (h (List.ne_nil_of_mem hmem) i hi) ?_
        exact List.any_eq_true.mpr ⟨e, he, decide_eq_true hhas⟩
      · intro h _ i hi
        refine (hslot i hi).mpr ?_
        intro hany
        obtain ⟨e, he, hhas⟩ := List.any_eq_true.mp hany
        exact h first hfirst e he i hi (of_decide_eq_true hhas)

/-- A verb with two readings: the first has ガ格 only, the second ヲ格. -/
def twoReadings : ScasePred where
  f := ["用言:動"]
  headF := ["原形曖昧", "ALT-a"]
  voice := 0
  predString := fun reading => if reading = none then "p" else "q"
  db := some fun key =>
    if key = "p:動" then some ⟨[49, 48, 48, 48, 48, 48, 48, 48, 48, 48, 48], rfl, by decide +kernel⟩
    else some ⟨[48, 49, 48, 48, 48, 48, 48, 48, 48, 48, 48], rfl, by decide +kernel⟩

theorem twoReadings_loses_slot : ¬ twoReadings.SumsEntries := by
  intro h
  have hslot := h (by decide) 1 (by decide)
  revert hslot
  decide

end ScasePred

end Knp
