import Knp.CcString
import Knp.Ledger
import Knp.StepRun
import Knp.TagRaw

/-!
# Assigning features (`assign_cfeature`)

A feature is a text of which the part in front of a colon is the name. What is assigned
overwrites the feature of the same name, or is put at the end. The name is read by
`sscanf` into `feature_buffer`; a colon between quotation marks belongs to the name.

> Where the name is empty nothing is read, and what the call before has left in the
> buffer is looked for. Where the first colon is quoted the whole text is looked for.
-/

namespace Knp.Feature

/-! ## The name of a feature -/

/-- `feature_buffer` -/
structure Buffer where
  text : String
  fits : text.utf8ByteSize < DATA_LEN
deriving DecidableEq

/-- Undefined where the text does not fit. -/
def strcpy (s : String) : Option Buffer :=
  if h : s.utf8ByteSize < DATA_LEN then some ⟨s, h⟩ else none

/-- `'"'` -/
def quoteMark : Char := Char.ofNat 34

/-- '"'が奇数 -/
def oddQuotes (s : String) : Bool := s.toList.count quoteMark % 2 = 1

/-- `%[^:]` -/
def frontText (fname : String) : String := String.ofList (fname.toList.takeWhile (· != ':'))

def scanName (found : Buffer) (fname : String) : Option Buffer := do
  -- sscanf stores nothing if there is no character in front of the colon
  let buffer ← if frontText fname = "" then some found else strcpy (frontText fname)
  -- quote('"')中の":"で切っていれば、もとに戻す
  if buffer.text ≠ fname && oddQuotes buffer.text then strcpy fname else some buffer

def overwrite (p : String → Bool) (fname new : String) : List String → List String
  -- 上書きできなければ末尾に追加
  | [] => [new]
  | cp :: fp => if p cp then fname :: fp else cp :: overwrite p fname new fp

/-- `found` is what the buffer holds before the call. -/
def assignCfeature (found : Buffer) (fname : String) (temp : Bool) (fp : List String) :
    Option (Buffer × List String) :=
  (scanName found fname).map fun buffer =>
    (buffer, overwrite (compFeature · buffer.text) fname
      (if temp then "仮付与:" ++ fname else fname) fp)

/-- The text that is looked for: the name up to the first colon, or all of `fname` if that has
an odd number of quotation marks. For an empty name it is what was in the buffer. -/
def searchText (found fname : String) : String :=
  if frontText fname = "" then
    if oddQuotes found then fname else found
  else if oddQuotes (frontText fname) then fname else frontText fname

section Scan

variable {found : Buffer} {fname : String}

theorem strcpy_eq_some {s : String} {buffer : Buffer} :
    strcpy s = some buffer ↔ buffer.text = s := by
  unfold strcpy
  constructor
  · intro h
    split at h
    · obtain rfl := Option.some.inj h
      rfl
    · exact absurd h (by simp)
  · rintro rfl
    rw [dif_pos buffer.fits]

theorem strcpy_self : strcpy found.text = some found := strcpy_eq_some.mpr rfl

theorem strcpy_front (h : strcpy (frontText fname) = none) : strcpy fname = none := by
  have hsplit : frontText fname ++ String.ofList (fname.toList.dropWhile (· != ':')) = fname := by
    rw [frontText, ← String.ofList_append, List.takeWhile_append_dropWhile, String.ofList_toList]
  have hsize := congrArg String.utf8ByteSize hsplit
  rw [String.utf8ByteSize_append] at hsize
  unfold strcpy at h ⊢
  split at h
  · exact absurd h (by simp)
  · rw [dif_neg (by omega)]

/-- The scanner finds the text to look for, if it fits. -/
theorem scanName_eq : scanName found fname = strcpy (searchText found.text fname) := by
  unfold scanName searchText
  split_ifs with hempty hodd hodd
  · show (if found.text ≠ fname && oddQuotes found.text then strcpy fname else some found) = _
    by_cases heq : found.text = fname
    · rw [← heq]
      simp [strcpy_self]
    · simp [heq, hodd]
  · show (if found.text ≠ fname && oddQuotes found.text then strcpy fname else some found) = _
    simp [hodd, strcpy_self]
  · cases hfront : strcpy (frontText fname) with
    | none => exact (strcpy_front hfront).symm
    | some buffer =>
        obtain htext := strcpy_eq_some.mp hfront
        show (if buffer.text ≠ fname && oddQuotes buffer.text then strcpy fname
          else some buffer) = _
        rw [htext]
        by_cases heq : frontText fname = fname
        · rw [heq] at hfront htext ⊢
          simp [hfront]
        · simp [heq, hodd]
  · cases hfront : strcpy (frontText fname) with
    | none => rfl
    | some buffer =>
        show (if buffer.text ≠ fname && oddQuotes buffer.text then strcpy fname
          else some buffer) = _
        rw [strcpy_eq_some.mp hfront]
        simp [hodd]

end Scan

/-! ## The key of a feature -/

/-- The text up to the first colon outside quotation marks. -/
def unquoted : Bool → List Char → List Char
  | _, [] => []
  | quoted, c :: cs =>
      if c = ':' && !quoted then [] else c :: unquoted (quoted != (c = quoteMark)) cs

def featureKey (cp : String) : String := String.ofList (unquoted false cp.toList)

section Keys

variable {cs name : List Char} {quoted : Bool} {cp fname : String}

theorem unquoted_spec : ∀ (quoted : Bool) (cs : List Char),
    unquoted quoted cs = cs ∨ ∃ rest, cs = unquoted quoted cs ++ ':' :: rest
  | _, [] => Or.inl rfl
  | quoted, c :: cs => by
      unfold unquoted
      split_ifs with hc
      · have : c = ':' := by simp_all
        exact Or.inr ⟨cs, by rw [this, List.nil_append]⟩
      · rcases unquoted_spec (quoted != (c = quoteMark)) cs with h | ⟨rest, h⟩
        · exact Or.inl (congrArg _ h)
        · exact Or.inr ⟨rest, by rw [List.cons_append, ← h]⟩

/-- A name without a colon that leaves no quotation open ends at the colon. -/
theorem unquoted_append (hcolon : ':' ∉ name)
    (hclosed : (quoted != (name.count quoteMark % 2 = 1 : Bool)) = false)
    (hrest : cs = [] ∨ ∃ rest, cs = ':' :: rest) : unquoted quoted (name ++ cs) = name := by
  induction name generalizing quoted with
  | nil =>
      have : quoted = false := by simpa using hclosed
      rcases hrest with rfl | ⟨rest, rfl⟩
      · rfl
      · simp [unquoted, this]
  | cons c name ih =>
      rw [List.mem_cons, not_or] at hcolon
      obtain ⟨hc, hcolon⟩ := hcolon
      rw [List.cons_append, unquoted, if_neg (by simp [Ne.symm hc])]
      refine congrArg _ (ih hcolon ?_)
      rw [List.count_cons] at hclosed
      by_cases hq : c = quoteMark
      · subst hq
        cases quoted <;> simp at hclosed ⊢ <;> omega
      · simpa [hq] using hclosed

theorem compFeature_iff : compFeature cp fname = true ↔
    cp.toList = fname.toList ∨ ∃ rest, cp.toList = fname.toList ++ ':' :: rest := by
  unfold compFeature
  rw [Bool.or_eq_true, decide_eq_true_eq, String.toList_inj, List.isPrefixOf_iff_prefix]
  refine or_congr_right ⟨?_, ?_⟩
  · rintro ⟨rest, h⟩
    exact ⟨rest, by simp [← h]⟩
  · rintro ⟨rest, h⟩
    exact ⟨rest, by simp [h]⟩

/-- A feature is found under its key. -/
theorem compFeature_featureKey : compFeature cp (featureKey cp) = true := by
  rw [compFeature_iff, featureKey, String.toList_ofList]
  exact (unquoted_spec false cp.toList).imp_left Eq.symm

theorem colon_notMem_frontText : ':' ∉ (frontText fname).toList := fun h => by
  rw [frontText, String.toList_ofList] at h
  simpa using List.mem_takeWhile_imp h

/-- Where the colons are not quoted, what is looked for is the key. -/
theorem compFeature_frontText (heven : oddQuotes (frontText fname) = false) :
    compFeature cp (frontText fname) = true ↔ featureKey cp = frontText fname := by
  constructor
  · intro h
    obtain ⟨rest, hcp, hrest⟩ : ∃ rest, cp.toList = (frontText fname).toList ++ rest ∧
        (rest = [] ∨ ∃ r, rest = ':' :: r) := by
      rcases compFeature_iff.mp h with h | ⟨rest, h⟩
      · exact ⟨[], by simpa using h, Or.inl rfl⟩
      · exact ⟨_, h, Or.inr ⟨rest, rfl⟩⟩
    have hclosed : (false != oddQuotes (frontText fname)) = false := by rw [heven]; rfl
    rw [featureKey, hcp, unquoted_append colon_notMem_frontText hclosed hrest, String.ofList_toList]
  · rintro h
    rw [← h]
    exact compFeature_featureKey

theorem featureKey_of_even (heven : oddQuotes (frontText fname) = false) :
    featureKey fname = frontText fname := by
  rw [← compFeature_frontText heven, compFeature_iff, frontText, String.toList_ofList]
  have hsplit := List.takeWhile_append_dropWhile (p := (· != ':')) (l := fname.toList)
  cases hrest : fname.toList.dropWhile (· != ':') with
  | nil => exact Or.inl (by rw [hrest, List.append_nil] at hsplit; exact hsplit.symm)
  | cons c rest =>
      have hc : c = ':' := by
        have := List.head?_dropWhile_not (· != ':') fname.toList
        simpa [hrest] using this
      exact Or.inr ⟨rest, by rw [hrest, hc] at hsplit; exact hsplit.symm⟩

end Keys

/-! ## Overwriting -/

section Overwrite

variable {p q : String → Bool} {fname new : String} {fp : List String}

theorem overwrite_of_none (h : fp.find? p = none) : overwrite p fname new fp = fp ++ [new] := by
  induction fp with
  | nil => rfl
  | cons cp fp ih =>
      rw [List.find?_cons] at h
      cases hp : p cp with
      | true => simp [hp] at h
      | false =>
          rw [hp] at h
          rw [overwrite, if_neg (by simp [hp]), ih h, List.cons_append]

variable (fname new) in
theorem overwrite_of_some {cp : String} (h : fp.find? p = some cp) :
    ∃ before after, fp = before ++ cp :: after ∧
      overwrite p fname new fp = before ++ fname :: after := by
  induction fp with
  | nil => exact absurd h (by simp)
  | cons e fp ih =>
      rw [List.find?_cons] at h
      cases hp : p e with
      | true =>
          rw [hp] at h
          obtain rfl := Option.some.inj h
          exact ⟨[], fp, rfl, by rw [overwrite, if_pos hp, List.nil_append]⟩
      | false =>
          rw [hp] at h
          obtain ⟨before, after, rfl, heq⟩ := ih h
          refine ⟨e :: before, after, rfl, ?_⟩
          rw [overwrite, if_neg (by simp [hp]), heq, List.cons_append]

theorem mem_overwrite : fname ∈ overwrite p fname fname fp := by
  cases h : fp.find? p with
  | none => simp [overwrite_of_none h]
  | some cp =>
      obtain ⟨before, after, -, heq⟩ := overwrite_of_some fname fname h
      simp [heq]

/-- In a list in which nothing stands twice the same feature must be overwritten. -/
theorem overwrite_eq_iff (hnd : fp.Nodup) (hq : q fname = true) :
    overwrite p fname fname fp = overwrite q fname fname fp ↔ fp.find? p = fp.find? q := by
  induction fp with
  | nil => simp [overwrite]
  | cons e fp ih =>
      obtain ⟨hnot, hnd⟩ := List.nodup_cons.mp hnd
      rw [overwrite, overwrite, List.find?_cons, List.find?_cons]
      cases hp : p e <;> cases hqe : q e <;> simp only [if_true, Bool.false_eq_true, if_false]
      · rw [List.cons_inj_right, ih hnd]
      · constructor
        · intro h
          obtain ⟨rfl, htail⟩ := List.cons.inj h
          exact absurd (htail ▸ mem_overwrite) hnot
        · intro h
          exact absurd (List.mem_of_find?_eq_some h) hnot
      · constructor
        · intro h
          obtain ⟨rfl, -⟩ := List.cons.inj h
          rw [hq] at hqe
          exact absurd hqe (by simp)
        · intro h
          have := List.find?_some h.symm
          rw [this] at hqe
          exact absurd hqe (by simp)

end Overwrite

/-! ## A list of features as a ledger -/

/-- A feature is registered under its key. -/
def ledger : Ledger String String String where
  key := featureKey
  keyOf := featureKey
  new fname := fname
  touch fname _ := fname
  keyOf_new _ := rfl
  keyOf_touch _ _ _ := rfl

/-- What the assignments `names` should leave: one feature for each key, the one that was
assigned last, in the order in which the keys came. -/
structure Assigned (names fp : List String) : Prop where
  nodup : (fp.map featureKey).Nodup
  last : ∀ key, fp.find? (fun cp => featureKey cp = key) =
    (names.filter fun fname => featureKey fname = key).getLast?
  order : fp.map featureKey = (names.map featureKey).eraseDups

/-- The feature that `comp_feature` finds is the one with the key. -/
def Located (found : Buffer) (fname : String) (fp : List String) : Prop :=
  (searchText found.text fname).utf8ByteSize < DATA_LEN ∧
    fp.find? (compFeature · (searchText found.text fname)) =
      fp.find? fun cp => featureKey cp = featureKey fname

section Steps

variable {found : Buffer} {fname : String} {names fp fp' : List String}

theorem record_eq : ledger.record fname fp =
    overwrite (fun cp => featureKey cp = featureKey fname) fname fname fp := by
  induction fp with
  | nil => rfl
  | cons cp fp ih =>
      rw [Ledger.record, overwrite, ih]
      simp only [decide_eq_true_eq]
      rfl

theorem assigned_iff : Assigned names fp ↔ fp = ledger.recordAll names := by
  have hlast : ∀ key, (ledger.recordAll names).find? (fun cp => featureKey cp = key) =
      (names.filter fun fname => featureKey fname = key).getLast? := fun key =>
    calc ledger.find key (ledger.recordAll names)
        = ledger.entry (names.filter fun fname => featureKey fname = key) :=
          ledger.find_recordAll names key
      _ = (names.filter fun fname => featureKey fname = key).getLast?.map id :=
          ledger.entry_of_touch (fun _ _ => rfl) _
      _ = (names.filter fun fname => featureKey fname = key).getLast? := by simp
  constructor
  · intro h
    exact ledger.ext_find (ledger.nodup_keys_recordAll names)
      (h.order.trans (ledger.keys_recordAll names).symm)
      fun key => (h.last key).trans (hlast key).symm
  · rintro rfl
    exact ⟨ledger.nodup_keys_recordAll names, hlast, ledger.keys_recordAll names⟩

theorem assignCfeature_eq : assignCfeature found fname false fp =
    (strcpy (searchText found.text fname)).map fun buffer =>
      (buffer, overwrite (compFeature · buffer.text) fname fname fp) := by
  rw [assignCfeature, scanName_eq]
  rfl

/-- One call does what it should if and only if the right feature is found. -/
theorem assignCfeature_assigned (h : Assigned names fp) :
    (∃ r, assignCfeature found fname false fp = some r ∧ Assigned (names ++ [fname]) r.2) ↔
      Located found fname fp := by
  have hnd : fp.Nodup := List.Nodup.of_map _ h.nodup
  have hrecord : ledger.recordAll (names ++ [fname]) = ledger.record fname fp := by
    rw [ledger.recordAll_concat, assigned_iff.mp h]
  have hkey : (featureKey fname = featureKey fname : Bool) = true := by simp
  rw [assignCfeature_eq]
  simp only [assigned_iff, hrecord, record_eq]
  unfold Located
  rw [← overwrite_eq_iff hnd hkey]
  unfold strcpy
  split_ifs with hfits
  · simp [hfits]
  · simp [hfits]

/-- Where the name is not empty and its colon not quoted, the feature that is found has the key,
whatever the buffer held. -/
theorem located_of_even (hname : frontText fname ≠ "") (heven : oddQuotes (frontText fname) = false)
    (hfits : (frontText fname).utf8ByteSize < DATA_LEN) : Located found fname fp := by
  have hsearch : searchText found.text fname = frontText fname := by
    simp [searchText, hname, heven]
  rw [Located, hsearch]
  refine ⟨hfits, congrArg (List.find? · fp) (funext fun cp => ?_)⟩
  rw [Bool.eq_iff_iff, decide_eq_true_eq, featureKey_of_even heven]
  exact compFeature_frontText heven

theorem overwrite_featureName : overwrite (compFeature · (featureName fname)) fname fname fp =
    Knp.assignCfeature fname fp := by
  induction fp with
  | nil => rfl
  | cons cp fp ih => rw [overwrite, Knp.assignCfeature, ih]

/-- Where the name is not empty and fits, the buffer can be left out of the model. -/
theorem assignCfeature_unbuffered (hname : frontText fname ≠ "")
    (hfits : (searchText found.text fname).utf8ByteSize < DATA_LEN) :
    ∃ buffer, assignCfeature found fname false fp = some (buffer, Knp.assignCfeature fname fp) := by
  have hsearch : searchText found.text fname = featureName fname := by
    unfold searchText featureName
    rw [if_neg hname]
    show (if oddQuotes (frontText fname) then fname else frontText fname) =
      if (frontText fname ≠ fname && oddQuotes (frontText fname)) = true then fname
        else frontText fname
    by_cases heq : frontText fname = fname
    · simp [heq]
    · simp [heq]
  rw [assignCfeature_eq, hsearch]
  rw [hsearch] at hfits
  refine ⟨⟨_, hfits⟩, ?_⟩
  rw [strcpy, dif_pos hfits, Option.map_some, overwrite_featureName]

end Steps

/-! ## Runs of assignments -/

/-- The names that have been assigned, and the features that the calls have left. -/
structure AssignState where
  names : List String
  fp : List String
deriving DecidableEq

/-- One call; other calls may have changed the buffer before it. -/
def assignStep (s : Option AssignState) (call : Buffer × String) : Option AssignState := do
  let s ← s
  let (_, fp) ← assignCfeature call.1 call.2 false s.fp
  return ⟨s.names ++ [call.2], fp⟩

def AllAssigned (s : Option AssignState) : Prop := ∃ t, s = some t ∧ Assigned t.names t.fp

def CallLocated (s : Option AssignState) (call : Buffer × String) : Prop :=
  ∀ t, s = some t → Located call.1 call.2 t.fp

open StepRun

theorem foldl_assignStep_none (calls : List (Buffer × String)) :
    calls.foldl assignStep none = none := by
  induction calls with
  | nil => rfl
  | cons call calls ih => exact ih

theorem assignStep_names {calls : List (Buffer × String)} {t t' : AssignState}
    (h : calls.foldl assignStep (some t) = some t') : t'.names = t.names ++ calls.map Prod.snd := by
  induction calls generalizing t with
  | nil =>
      obtain rfl := Option.some.inj h
      simp
  | cons call calls ih =>
      rw [List.foldl_cons] at h
      cases hr : assignCfeature call.1 call.2 false t.fp with
      | none =>
          have hnone : assignStep (some t) call = none := by simp [assignStep, hr]
          rw [hnone, foldl_assignStep_none] at h
          exact absurd h (by simp)
      | some r =>
          have hsome : assignStep (some t) call = some ⟨t.names ++ [call.2], r.2⟩ := by
            simp [assignStep, hr]
          rw [hsome] at h
          simpa using ih h

theorem allAssigned_step {s : Option AssignState} {call : Buffer × String} (h : AllAssigned s) :
    AllAssigned (assignStep s call) ↔ CallLocated s call := by
  obtain ⟨t, rfl, ht⟩ := h
  have hlocated : CallLocated (some t) call ↔ Located call.1 call.2 t.fp := by simp [CallLocated]
  rw [hlocated, ← assignCfeature_assigned ht]
  cases hr : assignCfeature call.1 call.2 false t.fp with
  | none => simp [AllAssigned, assignStep, hr]
  | some r => simp [AllAssigned, assignStep, hr]

theorem assigned_nil : AllAssigned (some ⟨[], []⟩) :=
  ⟨_, rfl, assigned_iff.mpr rfl⟩

theorem eachState_assigned_iff (calls : List (Buffer × String)) :
    EachState assignStep AllAssigned (some ⟨[], []⟩) calls ↔
      EachStep assignStep CallLocated (some ⟨[], []⟩) calls := by
  exact eachState_iff (W := fun _ => True) (V := fun _ _ => True) (fun _ _ _ _ => trivial)
    (fun s call _ hp _ => allAssigned_step hp) trivial assigned_nil (eachStep_true _ _)

/-- In every run from the empty list of features, all lists are as they should be if and only
if each call finds the feature with the key of its name; and then nothing depends on what the
buffer held. -/
theorem assign_run_iff (calls : List (Buffer × String)) :
    (EachState assignStep AllAssigned (some ⟨[], []⟩) calls ↔
        EachStep assignStep CallLocated (some ⟨[], []⟩) calls) ∧
      ∀ calls', calls'.map Prod.snd = calls.map Prod.snd →
        EachStep assignStep CallLocated (some ⟨[], []⟩) calls →
        EachStep assignStep CallLocated (some ⟨[], []⟩) calls' →
        calls'.foldl assignStep (some ⟨[], []⟩) = calls.foldl assignStep (some ⟨[], []⟩) := by
  refine ⟨eachState_assigned_iff calls, fun calls' hnames h h' => ?_⟩
  obtain ⟨t, ht, hassigned⟩ := ((eachState_assigned_iff calls).mpr h).last
  obtain ⟨t', ht', hassigned'⟩ := ((eachState_assigned_iff calls').mpr h').last
  have heq : t'.names = t.names := by
    rw [assignStep_names ht, assignStep_names ht', hnames]
  have hfp : t'.fp = t.fp := by
    rw [assigned_iff.mp hassigned, assigned_iff.mp hassigned', heq]
  rw [ht, ht']
  exact congrArg some (by cases t; cases t'; simp_all)

/-- `x:1` is overwritten by the empty text, as its name is still in the buffer. -/
theorem empty_overwrites :
    ¬∀ calls : List (Buffer × String), EachState assignStep AllAssigned (some ⟨[], []⟩) calls := by
  intro h
  obtain ⟨t, ht, hassigned⟩ := (h [(⟨"", by decide⟩, "x:1"), (⟨"x", by decide⟩, "")]).last
  have hfinal : t = ⟨["x:1", ""], [""]⟩ := by
    have : [(⟨"", by decide⟩, "x:1"), (⟨"x", by decide⟩, "")].foldl assignStep
        (some ⟨[], []⟩) = some ⟨["x:1", ""], [""]⟩ := by decide
    exact Option.some.inj (ht.symm.trans this)
  have horder := hassigned.order
  rw [hfinal] at horder
  exact absurd horder (by decide)

end Knp.Feature
