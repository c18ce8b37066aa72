import Knp.ClassIds
import Knp.Loop

/-!
# Coreference ids (`corefer.c`)

`corefer_analysis` goes through the tags of a sentence from the last one on and
links a tag to an antecedent before it, or a name to what is said next to it.
The two tags of a link get one COREFER_ID.

> Tags have one COREFER_ID just if a chain of links connects them, as long as no
> link is recorded for two tags with different ones, nor one of `search_antecedent`
> for an anaphor that has one and an antecedent that has none.

`search_antecedent` looks only at the antecedent: an anaphor that was itself an
antecedent before loses its COREFER_ID, and with it the tag that was linked to it.
The other rules look at both tags.
-/

namespace Knp

def ASCEND_SEN_MAX : Nat := 20

/-- A sentence and a tag in it. -/
abbrev TagRef := Nat × Nat

/-- How a link was found: by `search_antecedent`, by `person_post` or `recognize_apposition`,
by `search_antecedent_after_br`. -/
inductive CoreferRule
  | antecedent
  | apposition
  | afterBr
deriving DecidableEq

structure CoreferLink where
  rule : CoreferRule
  anaphor : TagRef
  antecedent : TagRef
deriving DecidableEq

/-- The features COREFER_ID, the counter, and the links in the order in which they are recorded. -/
structure CoreferState where
  id : TagRef → Option Nat
  coreferId : Nat
  links : List CoreferLink

namespace CoreferState

def init : CoreferState := ⟨fun _ => none, 0, []⟩

/-- `assign_cfeature` of a COREFER_ID: one that is there is overwritten. -/
def assign (st : CoreferState) (t : TagRef) (x : Nat) : CoreferState :=
  { st with id := Function.update st.id t (some x) }

@[simp] theorem assign_id (st : CoreferState) (t : TagRef) (x : Nat) :
    (st.assign t x).id = Function.update st.id t (some x) := rfl

/-- A new COREFER_ID for both tags. -/
def assignNew (st : CoreferState) (a b : TagRef) : CoreferState :=
  { (st.assign a (st.coreferId + 1)).assign b (st.coreferId + 1) with coreferId := st.coreferId + 1 }

end CoreferState

/-- COREFER_IDを付与 -/
def CoreferLink.assignId (l : CoreferLink) (st : CoreferState) : CoreferState :=
  match l.rule with
  | .antecedent => match st.id l.antecedent with
      | some x => st.assign l.anaphor x
      | none => st.assignNew l.anaphor l.antecedent
  | .apposition => match st.id l.anaphor with
      | some x => st.assign l.antecedent x
      | none => match st.id l.antecedent with
          | some x => st.assign l.anaphor x
          | none => st.assignNew l.anaphor l.antecedent
  | .afterBr => match st.id l.antecedent with
      | some x => st.assign l.anaphor x
      | none => match st.id l.anaphor with
          | some x => st.assign l.antecedent x
          | none => st.assignNew l.anaphor l.antecedent

/-- A link is recorded in the features of the anaphor. -/
def recordLink (l : CoreferLink) (st : CoreferState) : CoreferState :=
  { l.assignId st with links := st.links ++ [l] }

/-- What `corefer_analysis` does with a tag: whether it is an anaphor it looks up, a demonstrative
that it passes, or neither. -/
inductive AnaphorKind
  | anaphor
  | demonstrative
  | other
deriving DecidableEq

/-- A document with what the conditions on words say at the time when they are tried. -/
structure CoreferEnv where
  tagNum : Nat → Nat
  kind : TagRef → AnaphorKind
  /-- The anaphor has a suffix, with which it is looked up first. -/
  suffix : TagRef → Bool
  /-- With the suffix or without: the tag is an antecedent of the anaphor. -/
  accepts : Bool → TagRef → TagRef → Bool
  /-- The number of tags in front that are part of the anaphor (共参照内). -/
  inner : TagRef → Nat
  /-- PERSON + 人名末尾, and 同格: how many tags further on the tag is that gets the link. -/
  personPost : TagRef → Option Nat
  apposition : TagRef → Option Nat
  /-- A noun with 格解析結果: what its ノ case refers to. -/
  bridge : TagRef → Option TagRef
  /-- The same word with 格解析結果, and what that refers to. -/
  sameBridge : TagRef → TagRef → Option TagRef

section Analysis

variable (env : CoreferEnv)

/-- The tags before a tag, from the nearest on, in at most `sentences` sentences. -/
def tagsBefore (sentences : Nat) (t : TagRef) : List TagRef :=
  (List.range (min sentences (t.1 + 1))).flatMap fun j =>
    (List.range (if j = 0 then t.2 else env.tagNum (t.1 - j))).reverse.map fun k => (t.1 - j, k)

def searchAntecedent (setubi : Bool) (t : TagRef) : Option TagRef :=
  (tagsBefore env ASCEND_SEN_MAX t).find? (env.accepts setubi t)

/-- 先行する表現と共参照関係にあるかをチェック -/
def findAntecedent (t : TagRef) : Option TagRef :=
  if env.suffix t then (searchAntecedent env true t).or (searchAntecedent env false t)
  else searchAntecedent env false t

/-- The link of `person_post` or `recognize_apposition` between tag `i - 1` and a tag from `i` on. -/
def recordNext (found : TagRef → Option Nat) (t : TagRef) (st : CoreferState) : CoreferState :=
  match if 0 < t.2 then found t else none with
  | some further => recordLink ⟨.apposition, (t.1, t.2 + further), (t.1, t.2 - 1)⟩ st
  | none => st

/-- `corefer_analysis` of sentence `s`, with `skip` tags to be passed. -/
def coreferTags (s : Nat) : Nat → Nat → CoreferState → CoreferState
  | 0, _, st => st
  | i + 1, skip + 1, st => coreferTags s i skip st
  | i + 1, 0, st =>
      let others := recordNext env.apposition (s, i) (recordNext env.personPost (s, i) st)
      match env.kind (s, i) with
      | .demonstrative => coreferTags s i 0 st
      | .other => coreferTags s i 0 others
      | .anaphor => match findAntecedent env (s, i) with
          | some antecedent =>
              coreferTags s i (env.inner (s, i)) (recordLink ⟨.antecedent, (s, i), antecedent⟩ st)
          | none => coreferTags s i 0 others

/-- `search_antecedent_after_br`: the same word that refers to a tag with the COREFER_ID of `tag₁`. -/
def searchAfterBr (st : CoreferState) (tag₁ t : TagRef) : Option TagRef :=
  (tagsBefore env (t.1 + 1) t).find? fun c => match env.sameBridge t c with
    | some tag₂ => (st.id tag₁).isSome && (st.id tag₂).isSome && st.id tag₁ = st.id tag₂
    | none => false

/-- `corefer_analysis_after_br` of tag `t` -/
def coreferAfterBr (t : TagRef) (st : CoreferState) : CoreferState :=
  match if st.id t = none then env.bridge t else none with
  | none => st
  | some tag₁ => match searchAfterBr env st tag₁ t with
      | some antecedent => recordLink ⟨.afterBr, t, antecedent⟩ st
      | none => st

/-- The sentences of a document one after the other. -/
def coreferDocument (sentences : Nat) : CoreferState :=
  Loop.upTo 0 sentences (fun s st =>
    Loop.upTo 0 (env.tagNum s) (fun i st => coreferAfterBr env (s, i) st)
      (coreferTags env s (env.tagNum s) 0 st)) .init

end Analysis

/-! ## One link -/

open ClassIds

def CoreferLink.ends (l : CoreferLink) : TagRef × TagRef := (l.anaphor, l.antecedent)

namespace CoreferState

/-- COREFER_IDs are equivalence classes of the links. -/
def Classes (st : CoreferState) : Prop := Consistent st.id (st.links.map CoreferLink.ends)

/-- What holds of the ids in any case. -/
structure WellFormed (st : CoreferState) : Prop where
  bound : ∀ t x, st.id t = some x → x ≤ st.coreferId
  byLinks : ByLinks st.id (st.links.map CoreferLink.ends)

end CoreferState

/-- The link leaves no tag with another COREFER_ID than it had. -/
def CoreferLink.Meets (l : CoreferLink) (st : CoreferState) : Prop :=
  st.id l.anaphor = none ∧ l.rule = .antecedent ∨
    l.rule ≠ .antecedent ∧ (st.id l.anaphor = none ∨ st.id l.antecedent = none) ∨
    st.id l.anaphor = st.id l.antecedent

section Link

variable {st : CoreferState} {a b : TagRef} {x : Nat} {l : CoreferLink}

theorem assign_joins_left (hb : st.id b = some x) : Joins st.id (st.assign a x).id a b x where
  left := Function.update_self ..
  right := by
    by_cases hab : b = a
    · subst hab
      exact Function.update_self ..
    · exact (Function.update_of_ne hab ..).trans hb
  other _ ha _ := Function.update_of_ne ha ..

theorem assign_joins_right (ha : st.id a = some x) : Joins st.id (st.assign b x).id a b x :=
  (assign_joins_left ha).symm

theorem assignNew_joins : Joins st.id (st.assignNew a b).id a b (st.coreferId + 1) where
  left := by
    by_cases hab : a = b
    · subst hab
      exact Function.update_self ..
    · exact (Function.update_of_ne hab ..).trans (Function.update_self ..)
  right := Function.update_self ..
  other _ ha hb := (Function.update_of_ne hb ..).trans (Function.update_of_ne ha ..)

/-- What a link does: the anaphor takes the id of the antecedent, or the other way round, or both
take a new one. -/
theorem CoreferLink.assignId_cases (l : CoreferLink) (st : CoreferState) :
    (∃ x, st.id l.antecedent = some x ∧ l.assignId st = st.assign l.anaphor x ∧
      (l.rule = .apposition → st.id l.anaphor = none)) ∨
    (∃ x, st.id l.anaphor = some x ∧ l.assignId st = st.assign l.antecedent x ∧
      l.rule ≠ .antecedent ∧ (l.rule = .afterBr → st.id l.antecedent = none)) ∨
    (st.id l.antecedent = none ∧ (l.rule = .antecedent ∨ st.id l.anaphor = none) ∧
      l.assignId st = st.assignNew l.anaphor l.antecedent) := by
  obtain ⟨rule, a, b⟩ := l
  unfold assignId
  cases rule with
  | antecedent =>
      cases hb : st.id b with
      | some x => exact .inl ⟨x, rfl, rfl, nofun⟩
      | none => exact .inr (.inr ⟨rfl, .inl rfl, rfl⟩)
  | apposition =>
      cases ha : st.id a with
      | some x => exact .inr (.inl ⟨x, rfl, rfl, nofun, nofun⟩)
      | none =>
          cases hb : st.id b with
          | some x => exact .inl ⟨x, rfl, rfl, fun _ => rfl⟩
          | none => exact .inr (.inr ⟨rfl, .inr rfl, rfl⟩)
  | afterBr =>
      cases hb : st.id b with
      | some x => exact .inl ⟨x, rfl, rfl, nofun⟩
      | none =>
          cases ha : st.id a with
          | some x => exact .inr (.inl ⟨x, rfl, rfl, nofun, fun _ => rfl⟩)
          | none => exact .inr (.inr ⟨rfl, .inr rfl, rfl⟩)

theorem map_ends_recordLink : (recordLink l st).links.map CoreferLink.ends =
    st.links.map CoreferLink.ends ++ [(l.anaphor, l.antecedent)] := by
  simp [recordLink, CoreferLink.ends]

/-- Every link joins its tags, and no id is above the counter. -/
theorem CoreferState.WellFormed.recordLink (h : st.WellFormed) (hne : l.anaphor ≠ l.antecedent) :
    (recordLink l st).WellFormed := by
  -- the bound of an assignment of an id that is in use
  have hassign : ∀ {t u : TagRef} {x : Nat}, st.id t = some x →
      ∀ v y, (st.assign u x).id v = some y → y ≤ st.coreferId := by
    intro t u x ht v y hv
    by_cases hvu : v = u
    · rw [hvu, CoreferState.assign_id, Function.update_self] at hv
      exact Option.some.inj hv ▸ h.bound t x ht
    · rw [CoreferState.assign_id, Function.update_of_ne hvu] at hv
      exact h.bound v y hv
  obtain ⟨x, hb, heq, -⟩ | ⟨x, ha, heq, -⟩ | ⟨-, -, heq⟩ := l.assignId_cases st
  · refine ⟨?_, ?_⟩
    · rw [Knp.recordLink, heq]
      exact hassign hb
    · rw [map_ends_recordLink, Knp.recordLink, heq]
      exact (assign_joins_left hb).byLinks hne h.byLinks
  · refine ⟨?_, ?_⟩
    · rw [Knp.recordLink, heq]
      exact hassign ha
    · rw [map_ends_recordLink, Knp.recordLink, heq]
      exact (assign_joins_right ha).byLinks hne h.byLinks
  · refine ⟨?_, ?_⟩
    · rw [Knp.recordLink, heq]
      intro v y hv
      by_cases hva : v = l.anaphor
      · rw [hva, assignNew_joins.left] at hv
        exact (Option.some.inj hv).symm.le
      · by_cases hvb : v = l.antecedent
        · rw [hvb, assignNew_joins.right] at hv
          exact (Option.some.inj hv).symm.le
        · rw [assignNew_joins.other v hva hvb] at hv
          exact (h.bound v y hv).trans (Nat.le_succ _)
    · rw [map_ends_recordLink, Knp.recordLink, heq]
      exact assignNew_joins.byLinks hne h.byLinks

/-- The ids stay classes of the links just if the link meets its condition. -/
theorem classes_recordLink_iff (hwf : st.WellFormed) (hst : st.Classes) :
    (recordLink l st).Classes ↔ l.Meets st := by
  have hsub : ∀ e ∈ st.links.map CoreferLink.ends,
      e ∈ (recordLink l st).links.map CoreferLink.ends := by
    rw [map_ends_recordLink]
    exact fun e he => List.mem_append_left _ he
  have hfresh : ∀ t, st.id t ≠ some (st.coreferId + 1) := fun t ht =>
    absurd (hwf.bound t _ ht) (by omega)
  obtain ⟨x, hb, heq, hrule⟩ | ⟨x, ha, heq, hrule, hnone⟩ | ⟨hb, hrule, heq⟩ := l.assignId_cases st
  · have hj : Joins st.id (recordLink l st).id l.anaphor l.antecedent x := by
      rw [recordLink, heq]
      exact assign_joins_left hb
    constructor
    · intro hclasses
      by_contra hmeets
      cases ha : st.id l.anaphor with
      | none =>
          refine hmeets ?_
          by_cases hr : l.rule = .antecedent
          · exact .inl ⟨ha, hr⟩
          · exact .inr (.inl ⟨hr, .inl ha⟩)
      | some y =>
          have hyx : y ≠ x := by
            rintro rfl
            exact hmeets (.inr (.inr (ha.trans hb.symm)))
          exact hst.not_join hwf.byLinks hj ha hyx (by rw [hb]; simpa using hyx.symm) hsub hclasses
    · intro hmeets
      rw [CoreferState.Classes, map_ends_recordLink]
      refine hst.join hj ?_ (.inr hb) fun _ _ => .inr hb
      rcases hmeets with ⟨ha, -⟩ | ⟨-, ha | hb'⟩ | hab
      · exact .inl ha
      · exact .inl ha
      · rw [hb'] at hb
        cases hb
      · exact .inr (hab.trans hb)
  · have hj : Joins st.id (recordLink l st).id l.anaphor l.antecedent x := by
      rw [recordLink, heq]
      exact assign_joins_right ha
    constructor
    · intro hclasses
      by_contra hmeets
      cases hb : st.id l.antecedent with
      | none => exact hmeets (.inr (.inl ⟨hrule, .inr hb⟩))
      | some y =>
          have hyx : y ≠ x := by
            rintro rfl
            exact hmeets (.inr (.inr (ha.trans hb.symm)))
          exact hst.not_join hwf.byLinks hj.symm hb hyx (by rw [ha]; simpa using hyx.symm) hsub hclasses
    · intro hmeets
      rw [CoreferState.Classes, map_ends_recordLink]
      refine hst.join hj (.inr ha) ?_ fun _ _ => .inl ha
      rcases hmeets with ⟨-, hr⟩ | ⟨-, ha' | hb⟩ | hab
      · exact absurd hr hrule
      · rw [ha'] at ha
        cases ha
      · exact .inl hb
      · exact .inr (hab.symm.trans ha)
  · have hj : Joins st.id (recordLink l st).id l.anaphor l.antecedent (st.coreferId + 1) := by
      rw [recordLink, heq]
      exact assignNew_joins
    constructor
    · intro hclasses
      by_contra hmeets
      cases ha : st.id l.anaphor with
      | none => exact hmeets (.inr (.inr (ha.trans hb.symm)))
      | some y =>
          have hyx : y ≠ st.coreferId + 1 := by
            rintro rfl
            exact hfresh _ ha
          exact hst.not_join hwf.byLinks hj ha hyx (by rw [hb]; nofun) hsub hclasses
    · intro hmeets
      rw [CoreferState.Classes, map_ends_recordLink]
      refine hst.join hj (.inl ?_) (.inl hb) fun t ht => absurd ht (hfresh t)
      rcases hmeets with ⟨ha, -⟩ | ⟨hr, -⟩ | hab
      · exact ha
      · rcases hrule with hr' | ha
        · exact absurd hr' hr
        · exact ha
      · exact hab.trans hb

end Link

/-! ## Runs -/

/-- The state after some links. -/
def replay (links : List CoreferLink) : CoreferState :=
  links.foldl (fun st l => recordLink l st) .init

theorem replay_concat (links : List CoreferLink) (l : CoreferLink) :
    replay (links ++ [l]) = recordLink l (replay links) := by
  simp [replay]

/-- The state is what its links make of it, and no tag is linked to itself. -/
structure Reached (st : CoreferState) : Prop where
  replay : replay st.links = st
  ne : ∀ l ∈ st.links, l.anaphor ≠ l.antecedent

theorem Reached.init : Reached .init := ⟨rfl, fun _ h => absurd h List.not_mem_nil⟩

section Document

variable {env : CoreferEnv} {st : CoreferState} {s : Nat} {t c : TagRef}

theorem Reached.recordLink {l : CoreferLink} (h : Reached st) (hne : l.anaphor ≠ l.antecedent) :
    Reached (recordLink l st) where
  replay := (replay_concat st.links l).trans (by rw [h.replay])
  ne l' hl' := by
    rcases List.mem_append.mp hl' with hold | hnew
    · exact h.ne l' hold
    · rwa [List.mem_singleton.mp hnew]

/-- The tags before a tag are other ones. -/
theorem ne_of_mem_tagsBefore {n : Nat} (h : c ∈ tagsBefore env n t) : t ≠ c := by
  rintro rfl
  simp only [tagsBefore, List.mem_flatMap, List.mem_range, List.mem_map, List.mem_reverse] at h
  obtain ⟨j, hj, k, hk, heq⟩ := h
  obtain ⟨hs, ht⟩ := Prod.mk.inj heq
  split at hk <;> omega

theorem findAntecedent_ne (h : findAntecedent env t = some c) : t ≠ c := by
  have hsearch : ∀ setubi, searchAntecedent env setubi t = some c → t ≠ c := fun _ hs =>
    ne_of_mem_tagsBefore (List.mem_of_find?_eq_some hs)
  unfold findAntecedent at h
  split at h
  · rcases Option.or_eq_some_iff.mp h with hs | ⟨-, hs⟩
    · exact hsearch _ hs
    · exact hsearch _ hs
  · exact hsearch _ h

theorem Reached.recordNext {found : TagRef → Option Nat} (h : Reached st) :
    Reached (recordNext found t st) := by
  unfold Knp.recordNext
  split
  · next further hfound =>
      split at hfound
      · next hpos =>
          refine h.recordLink fun heq => ?_
          have := congrArg Prod.snd heq
          dsimp only at this
          omega
      · cases hfound
  · exact h

theorem Reached.coreferTags : ∀ (i skip : Nat) {st : CoreferState}, Reached st →
    Reached (coreferTags env s i skip st)
  | 0, _, _, h => h
  | i + 1, skip + 1, _, h => Reached.coreferTags i skip h
  | i + 1, 0, _, h => by
      unfold Knp.coreferTags
      dsimp only
      split
      · exact Reached.coreferTags i 0 h
      · exact Reached.coreferTags i 0 h.recordNext.recordNext
      · split
        · next antecedent hfind =>
            exact Reached.coreferTags i _ (h.recordLink (findAntecedent_ne hfind))
        · exact Reached.coreferTags i 0 h.recordNext.recordNext

theorem Reached.coreferAfterBr (h : Reached st) : Reached (coreferAfterBr env t st) := by
  unfold Knp.coreferAfterBr
  split
  · exact h
  · split
    · next antecedent hsearch =>
        exact h.recordLink (ne_of_mem_tagsBefore (List.mem_of_find?_eq_some hsearch))
    · exact h

theorem coreferDocument_reached (env : CoreferEnv) (sentences : Nat) :
    Reached (coreferDocument env sentences) :=
  Loop.upTo_invariant _ Reached
    (fun _ _ h => Loop.upTo_invariant _ Reached (fun _ _ h => h.coreferAfterBr) (h.coreferTags _ 0))
    .init

end Document

theorem replay_wellFormed {links : List CoreferLink} (hne : ∀ l ∈ links, l.anaphor ≠ l.antecedent) :
    (replay links).WellFormed := by
  induction links using List.reverseRecOn with
  | nil => exact ⟨nofun, nofun⟩
  | append_singleton links l ih =>
      rw [replay_concat]
      exact (ih fun l' hl' => hne l' (List.mem_append_left _ hl')).recordLink
        (hne l List.mem_concat_self)

/-- In any run the ids are classes of the links as long as each link meets its condition. -/
theorem replay_classes_iff {links : List CoreferLink}
    (hne : ∀ l ∈ links, l.anaphor ≠ l.antecedent) :
    (∀ n, (replay (links.take n)).Classes) ↔
      ∀ n (h : n < links.length), links[n].Meets (replay (links.take n)) := by
  have hstep : ∀ n (h : n < links.length), (replay (links.take n)).Classes →
      ((replay (links.take (n + 1))).Classes ↔ links[n].Meets (replay (links.take n))) := by
    intro n h hclasses
    rw [List.take_succ_eq_append_getElem h, replay_concat]
    exact classes_recordLink_iff
      (replay_wellFormed fun l hl => hne l (List.mem_of_mem_take hl)) hclasses
  constructor
  · intro hall n h
    exact (hstep n h (hall n)).mp (hall (n + 1))
  · intro hmeets n
    induction n with
    | zero => exact consistent_nil
    | succ n ih =>
        by_cases h : n < links.length
        · exact (hstep n h ih).mpr (hmeets n h)
        · have hn : links.length ≤ n := by omega
          rw [List.take_of_length_le hn] at ih
          rwa [List.take_of_length_le (by omega)]

/-- The ids of a document, in all states up to the end. -/
theorem coreferDocument_classes_iff (env : CoreferEnv) (sentences : Nat) :
    let links := (coreferDocument env sentences).links
    replay links = coreferDocument env sentences ∧
      ((∀ n, (replay (links.take n)).Classes) ↔
        ∀ n (h : n < links.length), links[n].Meets (replay (links.take n))) :=
  ⟨(coreferDocument_reached env sentences).replay,
    replay_classes_iff (coreferDocument_reached env sentences).ne⟩

/-- 京都は 京都で 京都を: three mentions in one sentence, each of which is linked to the one
before. -/
def threeMentions : CoreferEnv where
  tagNum _ := 3
  kind _ := .anaphor
  suffix _ := false
  accepts _ _ _ := true
  inner _ := 0
  personPost _ := none
  apposition _ := none
  bridge _ := none
  sameBridge _ _ := none

/-- The second mention gets a new id when it is linked to the first; the third keeps the old one. -/
theorem threeMentions_split :
    ⟨.antecedent, (0, 2), (0, 1)⟩ ∈ (coreferDocument threeMentions 1).links ∧
      (coreferDocument threeMentions 1).id (0, 2) = some 1 ∧
      (coreferDocument threeMentions 1).id (0, 1) = some 2 ∧
      ¬ (coreferDocument threeMentions 1).Classes := by
  have hmem : ⟨.antecedent, (0, 2), (0, 1)⟩ ∈ (coreferDocument threeMentions 1).links := by decide
  have h₂ : (coreferDocument threeMentions 1).id (0, 2) = some 1 := by decide
  have h₁ : (coreferDocument threeMentions 1).id (0, 1) = some 2 := by decide
  refine ⟨hmem, h₂, h₁, fun hclasses => ?_⟩
  obtain ⟨x, hx, hx'⟩ := hclasses.linked (0, 2) (0, 1) (List.mem_map_of_mem hmem)
  have h₂₁ := hx.trans hx'.symm
  rw [h₂, h₁] at h₂₁
  cases h₂₁

end Knp
