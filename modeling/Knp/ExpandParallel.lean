import Knp.CaseMatch
import Knp.CfFrame
import Knp.FillTo
import Knp.MrphDpnd
import Knp.ParaModifier

/-!
# Expansion to coordinated entities (`anaphora.c`)

`expand_result_to_parallel_entity` looks for the last overt mention of the entity of each entry of
a result. If it is in a coordination, the entities of the other conjuncts are written behind the
entries, with the slot and the type of the entry.

> The conjuncts are added as far as there is room, and no slot has an entity twice, just if each
> entity that the loop comes to has an overt mention, the result is not full at the beginning
> unless there is nothing to add, and neither the result nor two of the conjuncts, nor one of the
> conjuncts and the result, have a slot and an entity in common.

An overt mention at the index -1, a tag that is NULL and a cell behind the arrays are undefined,
and the model then has no result.
-/

namespace Knp

open FillTo

/-- The result of an analysis: a slot with its entity, and the type. -/
structure CtmEntry where
  cfElementNum : Nat
  entityNum : Nat
  type : Char
deriving DecidableEq

def CtmEntry.pair (e : CtmEntry) : Nat × Nat := (e.cfElementNum, e.entityNum)

/-- The entries of `CF_TAG_MGR` below `result_num`. -/
structure CtmResult where
  entries : List CtmEntry
  filledEntity : Nat → Bool

/-- What the expansion reads of `MENTION`. -/
structure OvertMention where
  type : Char
  sentNum : Nat
  tagPtr : Nat

/-- What the expansion reads of `ENTITY`. -/
structure ExpandEntity where
  num : Nat
  outputNum : Nat
  hypotheticalFlag : Nat
  mention : List OvertMention

/-- `substance_tag_ptr`, at most `fuel` steps down; `none` for NULL. -/
def TreeData.substance (d : TreeData) : Nat → Nat → Option Nat
  | 0, _ => none
  | fuel + 1, t => if d.paraTopP t then (d.child t 0).bind (d.substance fuel) else some t

/-- The tags with their entities, the table of the entities, and the tag with the result. -/
structure ExpandEnv where
  tree : TreeData
  f : Nat → List String
  /-- `mention_mgr.mention->entity` -/
  entityOf : Nat → Nat
  entity : Nat → ExpandEntity
  optUnnamedEntity : Bool
  tagPtr : Nat
  sentNum : Nat
  /-- `check_analyze_tag` -/
  analyzeTag : Option CfType
  /-- Below each node of a coordination there is a tag. -/
  substance_isSome : ∀ p, ∀ c ∈ tree.children p, (tree.substance TAG_MAX c).isSome

def CtmResult.add (ctm : CtmResult) (e : CtmEntry) : CtmResult where
  entries := ctm.entries ++ [e]
  filledEntity := Function.update ctm.filledEntity e.entityNum true

def CtmResult.resultNum (ctm : CtmResult) : Nat := ctm.entries.length

namespace ExpandEnv

variable (env : ExpandEnv)

/-! ## The expansion -/

/-- A hypothetical entity, which is not looked at. -/
def unnamed (e : CtmEntry) : Bool :=
  env.optUnnamedEntity && (env.entity e.entityNum).hypotheticalFlag = 1

/-- 格要素のentityの省略以外の直近の出現 -/
def lastOvert (e : CtmEntry) : Option OvertMention :=
  (env.entity e.entityNum).mention.reverse.find? fun m => m.type = 'S' || m.type = '='

/-- The node of the coordination that a tag is in. -/
def coordination (t : Nat) : Option Nat :=
  if env.tree.paraType t = .normal then (env.tree.parent t).filter env.tree.paraTopP else none

def admits (e : CtmEntry) (t p : Nat) : Bool :=
  p ≠ t && hasFeature (env.f p) "体言" && env.tree.paraType p = .normal &&
    -- 橋渡し指示には適用しない(暫定的)
    !(e.type = 'O' && env.analyzeTag = some .noun) &&
    -- 省略の場合は拡張先が解析対象の係り先である場合、拡張しない
    !(e.type = 'O' && env.tree.parent env.tagPtr = some p)

def sameEntity (e : CtmEntry) (p : Nat) : Bool :=
  (env.entity (env.entityOf p)).num = (env.entity e.entityNum).num ||
    (env.entity (env.entityOf p)).outputNum = (env.entity e.entityNum).outputNum

def entryFor (e : CtmEntry) (p : Nat) : CtmEntry :=
  { e with entityNum := (env.entity (env.entityOf p)).num }

/-- The loop over the children of a coordination; with `true` the result is full. -/
def expandChildren (e : CtmEntry) (t : Nat) : List Nat → CtmResult → Option (CtmResult × Bool)
  | [], ctm => some (ctm, false)
  | c :: cs, ctm =>
      (env.tree.substance TAG_MAX c).bind fun p =>
        if env.admits e t p then
          if env.sameEntity e p then expandChildren e t cs ctm
          else if ctm.resultNum < CF_ELEMENT_MAX then
            if (ctm.add (env.entryFor e p)).resultNum = CF_ELEMENT_MAX then
              some (ctm.add (env.entryFor e p), true)
            else expandChildren e t cs (ctm.add (env.entryFor e p))
          else none
        else expandChildren e t cs ctm

def expandEntry (e : CtmEntry) (ctm : CtmResult) : Option (CtmResult × Bool) :=
  if env.unnamed e then some (ctm, false)
  else
    match env.lastOvert e with
    | none => none
    | some m =>
        -- 先行文の場合のみを対象とする
        if env.sentNum < m.sentNum then some (ctm, false)
        else
          match env.coordination m.tagPtr with
          | some p => env.expandChildren e m.tagPtr (env.tree.children p) ctm
          | none => some (ctm, false)

def expandFrom : List Nat → CtmResult → Option CtmResult
  | [], ctm => some ctm
  | i :: is, ctm =>
      (ctm.entries[i]?).bind fun e => (env.expandEntry e ctm).bind fun r =>
        if r.2 then some r.1 else expandFrom is r.1

/-- `expand_result_to_parallel_entity` -/
def expandResultToParallelEntity (ctm : CtmResult) : Option CtmResult :=
  env.expandFrom (List.range ctm.resultNum) ctm

/-! ## What it should do -/

/-- The entry for a child of the coordination, if its conjunct is admissible. -/
def conjunct (e : CtmEntry) (t c : Nat) : Option CtmEntry :=
  (env.tree.substance TAG_MAX c).bind fun p =>
    if env.admits e t p && !env.sameEntity e p then some (env.entryFor e p) else none

/-- The entries for the other conjuncts, where the last overt mention is in a coordination. -/
def conjuncts (e : CtmEntry) : List CtmEntry :=
  if env.unnamed e then []
  else
    match env.lastOvert e with
    | none => []
    | some m =>
        if env.sentNum < m.sentNum then []
        else
          match env.coordination m.tagPtr with
          | some p => (env.tree.children p).filterMap (env.conjunct e m.tagPtr)
          | none => []

/-- The conjuncts of all entries, as far as there is room. -/
def additions (ctm : CtmResult) : List CtmEntry :=
  (ctm.entries.flatMap env.conjuncts).take (CF_ELEMENT_MAX - ctm.resultNum)

structure Expanded (ctm ctm' : CtmResult) : Prop where
  entries : ctm'.entries = ctm.entries ++ env.additions ctm
  filledEntity : ∀ k, ctm'.filledEntity k = true ↔
    ctm.filledEntity k = true ∨ ∃ e ∈ env.additions ctm, e.entityNum = k
  nodup : (ctm'.entries.map CtmEntry.pair).Nodup

/-- The expansion is defined, and right. -/
def Expands (ctm : CtmResult) : Prop :=
  ∃ ctm', env.expandResultToParallelEntity ctm = some ctm' ∧ env.Expanded ctm ctm'

/-- The loop comes to entry `i` before the result is full. -/
def ComesTo (ctm : CtmResult) (i : Nat) : Prop :=
  (ctm.entries.take i).flatMap env.conjuncts = [] ∨
    ctm.resultNum + ((ctm.entries.take i).flatMap env.conjuncts).length < CF_ELEMENT_MAX

structure Expandable (ctm : CtmResult) : Prop where
  room : ctm.resultNum < CF_ELEMENT_MAX ∨ ∀ e ∈ ctm.entries, env.conjuncts e = []
  overt : ∀ i, (hi : i < ctm.entries.length) → env.ComesTo ctm i →
    env.unnamed ctm.entries[i] = true ∨ (env.lastOvert ctm.entries[i]).isSome
  given : (ctm.entries.map CtmEntry.pair).Nodup
  apart : ((env.additions ctm).map CtmEntry.pair).Nodup
  fresh : ∀ e ∈ ctm.entries, ∀ e' ∈ env.additions ctm, e.pair ≠ e'.pair

/-! ## The loops fill the result -/

variable {env} {e : CtmEntry} {ctm ctm' : CtmResult} {l r : List CtmEntry} {cs : List Nat} {t : Nat}

theorem resultNum_add (ctm : CtmResult) (e : CtmEntry) :
    (ctm.add e).resultNum = ctm.resultNum + 1 := List.length_append

theorem entries_foldl_add (l : List CtmEntry) (ctm : CtmResult) :
    (l.foldl CtmResult.add ctm).entries = ctm.entries ++ l := by
  induction l generalizing ctm with
  | nil => exact (List.append_nil _).symm
  | cons e l ih =>
      rw [List.foldl_cons, ih, CtmResult.add, List.append_assoc]
      rfl

theorem filledEntity_foldl_add (l : List CtmEntry) (ctm : CtmResult) (k : Nat) :
    (l.foldl CtmResult.add ctm).filledEntity k = true ↔
      ctm.filledEntity k = true ∨ ∃ e ∈ l, e.entityNum = k := by
  induction l generalizing ctm with
  | nil => simp
  | cons e l ih =>
      have hadd : (ctm.add e).filledEntity k =
          if k = e.entityNum then true else ctm.filledEntity k := Function.update_apply _ _ _ _
      rw [List.foldl_cons, ih, hadd, List.exists_mem_cons_iff, ← or_assoc]
      refine or_congr_left ?_
      split_ifs with hk
      · exact iff_of_true rfl (.inr hk.symm)
      · exact (or_iff_left fun heq => hk heq.symm).symm

/-- The loop over the children puts the entries for the conjuncts. -/
theorem expandChildren_eq (hcs : ∀ c ∈ cs, (env.tree.substance TAG_MAX c).isSome) :
    env.expandChildren e t cs ctm =
      fill CtmResult.add CtmResult.resultNum CF_ELEMENT_MAX (cs.filterMap (env.conjunct e t)) ctm := by
  induction cs generalizing ctm with
  | nil => rfl
  | cons c cs ih =>
      have hrest : ∀ ctm, env.expandChildren e t cs ctm =
          fill CtmResult.add CtmResult.resultNum CF_ELEMENT_MAX
            (cs.filterMap (env.conjunct e t)) ctm :=
        fun ctm => ih fun c' hc' => hcs c' (List.mem_cons_of_mem c hc')
      obtain ⟨p, hp⟩ := Option.isSome_iff_exists.mp (hcs c List.mem_cons_self)
      have hconj : env.conjunct e t c =
          if env.admits e t p && !env.sameEntity e p then some (env.entryFor e p) else none := by
        rw [conjunct, hp, Option.bind_some]
      rw [expandChildren, hp, Option.bind_some, List.filterMap_cons, hconj]
      cases env.admits e t p with
      | false => exact hrest ctm
      | true =>
          cases env.sameEntity e p with
          | true => exact hrest ctm
          | false =>
              rw [if_pos rfl, if_neg Bool.false_ne_true, hrest]
              rfl

/-- An entry: the entries for its conjuncts, or nothing if it has no overt mention. -/
def group (env : ExpandEnv) (e : CtmEntry) : Option (List CtmEntry) :=
  if env.unnamed e || (env.lastOvert e).isSome then some (env.conjuncts e) else none

theorem expandEntry_eq (e : CtmEntry) (ctm : CtmResult) : env.expandEntry e ctm =
    (env.group e).bind fun es =>
      fill CtmResult.add CtmResult.resultNum CF_ELEMENT_MAX es ctm := by
  rw [expandEntry, group, conjuncts]
  cases env.unnamed e with
  | true => rfl
  | false =>
      cases env.lastOvert e with
      | none => rfl
      | some m =>
          by_cases hsent : env.sentNum < m.sentNum
          · simp only [hsent, if_true, Bool.false_eq_true, if_false, Option.isSome_some,
              Bool.or_true, Option.bind_some, fill]
          · cases hnode : env.coordination m.tagPtr with
            | none =>
                simp only [hsent, Bool.false_eq_true, if_false, Option.isSome_some, if_true,
                  Bool.or_true, Option.bind_some, fill, hnode]
            | some p =>
                have hchildren : env.expandChildren e m.tagPtr (env.tree.children p) ctm = _ :=
                  expandChildren_eq (env.substance_isSome p)
                simp only [hsent, Bool.false_eq_true, if_false, Option.isSome_some, if_true,
                  Bool.or_true, Option.bind_some, hnode, hchildren]

/-- The loop over the entries reads those that were there at the beginning. -/
theorem expandFrom_eq (hentries : ∃ added, ctm.entries = l ++ r ++ added) :
    env.expandFrom (List.range' l.length r.length) ctm =
      fillGroups CtmResult.add CtmResult.resultNum CF_ELEMENT_MAX (r.map env.group) ctm := by
  induction r generalizing l ctm with
  | nil => rfl
  | cons e r ih =>
      obtain ⟨added, hadded⟩ := hentries
      have hread : ctm.entries[l.length]? = some e := by
        rw [hadded, List.append_assoc, List.getElem?_append_right le_rfl, Nat.sub_self]
        rfl
      rw [List.length_cons, List.range'_succ, expandFrom, hread, Option.bind_some, expandEntry_eq,
        List.map_cons, fillGroups, Option.bind_assoc]
      refine Option.bind_congr fun es _ => Option.bind_congr fun res hres => ?_
      split_ifs with hfull
      · rfl
      · obtain ⟨put, hput⟩ := exists_foldl_of_fill hres
        have hlater := @ih res.1 (l ++ [e]) ⟨added ++ put, by
          rw [hput, entries_foldl_add, hadded]
          simp only [List.append_assoc, List.cons_append, List.nil_append]⟩
        rw [List.length_append, List.length_singleton] at hlater
        exact hlater

theorem group_isSome (e : CtmEntry) :
    (env.group e).isSome = true ↔ env.unnamed e = true ∨ (env.lastOvert e).isSome = true := by
  rw [group, ← Bool.or_eq_true]
  split_ifs with h
  · exact iff_of_true rfl h
  · exact iff_of_false Bool.false_ne_true h

theorem group_getD (e : CtmEntry) : (env.group e).getD [] = env.conjuncts e := by
  rw [group]
  split_ifs with h
  · rfl
  · obtain ⟨hnamed, hovert⟩ := Bool.or_eq_false_iff.mp (Bool.eq_false_of_not_eq_true h)
    have hnone := Option.isNone_iff_eq_none.mp (Option.isSome_eq_false_iff.mp hovert)
    rw [conjuncts, hnamed, hnone]
    rfl

theorem elements_group (es : List CtmEntry) :
    elements (es.map env.group) = es.flatMap env.conjuncts := by
  rw [elements, List.flatMap_map]
  exact List.flatMap_congr fun e _ => group_getD e

theorem arrives_iff (i : Nat) :
    Arrives CF_ELEMENT_MAX ctm.resultNum (ctm.entries.map env.group) i ↔ env.ComesTo ctm i := by
  rw [Arrives, ← List.map_take, elements_group, ComesTo]

theorem fits_iff : Fits CF_ELEMENT_MAX ctm.resultNum (ctm.entries.map env.group) ↔
    (ctm.resultNum < CF_ELEMENT_MAX ∨ ∀ e ∈ ctm.entries, env.conjuncts e = []) ∧
      ∀ i, (hi : i < ctm.entries.length) → env.ComesTo ctm i →
        env.unnamed ctm.entries[i] = true ∨ (env.lastOvert ctm.entries[i]).isSome := by
  have hnone : elements (ctm.entries.map env.group) = [] ↔
      ∀ e ∈ ctm.entries, env.conjuncts e = [] := by
    rw [elements_group, List.flatMap_eq_nil_iff]
  constructor
  · rintro ⟨hroom, hthere⟩
    refine ⟨hroom.imp_right hnone.mp, fun i hi hcomes => ?_⟩
    have hsome := hthere i (by rwa [List.length_map]) ((arrives_iff i).mpr hcomes)
    rw [List.getElem_map] at hsome
    exact (group_isSome _).mp hsome
  · rintro ⟨hroom, hovert⟩
    refine ⟨hroom.imp_right hnone.mpr, fun i hi harrives => ?_⟩
    rw [List.getElem_map]
    exact (group_isSome _).mpr (hovert i (by rwa [List.length_map] at hi)
      ((arrives_iff i).mp harrives))

theorem expandResultToParallelEntity_eq_some_iff :
    env.expandResultToParallelEntity ctm = some ctm' ↔
      Fits CF_ELEMENT_MAX ctm.resultNum (ctm.entries.map env.group) ∧
        ctm' = (env.additions ctm).foldl CtmResult.add ctm := by
  have hrun : env.expandResultToParallelEntity ctm = fillGroups CtmResult.add CtmResult.resultNum
      CF_ELEMENT_MAX (ctm.entries.map env.group) ctm := by
    have hfrom : env.expandFrom (List.range' ([] : List CtmEntry).length ctm.entries.length) ctm =
        _ := expandFrom_eq ⟨[], by rw [List.nil_append, List.append_nil]⟩
    rw [expandResultToParallelEntity, List.range_eq_range']
    exact hfrom
  rw [hrun, fillGroups_eq_some_iff resultNum_add, elements_group]
  rfl

/-- The expansion is right just if the result is expandable. -/
theorem expands_iff (env : ExpandEnv) (ctm : CtmResult) : env.Expands ctm ↔ env.Expandable ctm := by
  have hentries : ((env.additions ctm).foldl CtmResult.add ctm).entries =
      ctm.entries ++ env.additions ctm := entries_foldl_add _ _
  constructor
  · rintro ⟨ctm', hrun, hright⟩
    obtain ⟨hfits, -⟩ := expandResultToParallelEntity_eq_some_iff.mp hrun
    obtain ⟨hroom, hovert⟩ := fits_iff.mp hfits
    have hnodup := hright.nodup
    rw [hright.entries, List.map_append] at hnodup
    obtain ⟨hgiven, hapart, hfresh⟩ := List.nodup_append.mp hnodup
    exact ⟨hroom, hovert, hgiven, hapart, fun e he e' he' =>
      hfresh _ (List.mem_map_of_mem he) _ (List.mem_map_of_mem he')⟩
  · intro h
    refine ⟨_, expandResultToParallelEntity_eq_some_iff.mpr
      ⟨fits_iff.mpr ⟨h.room, h.overt⟩, rfl⟩, hentries, filledEntity_foldl_add _ _, ?_⟩
    rw [hentries, List.map_append]
    refine List.nodup_append.mpr ⟨h.given, h.apart, fun x hx y hy => ?_⟩
    obtain ⟨e, he, rfl⟩ := List.mem_map.mp hx
    obtain ⟨e', he', rfl⟩ := List.mem_map.mp hy
    exact h.fresh e he e' he'

end ExpandEnv

/-! ## Two conjuncts for one entity -/

/-- 太郎 and 彼, who is the same, with 花子 below the node 3. -/
def threeConjuncts : TreeData where
  num t := t
  dpndHead _ := -1
  parent t := if t < 3 then some 3 else none
  child p k := if p = 3 then [2, 1, 0][k]? else none
  paraTopP t := t = 3
  paraType t := if t < 3 then .normal else .nil
  toParaP _ := false

def taro : ExpandEntity := ⟨5, 5, 0, [⟨'S', 1, 0⟩, ⟨'=', 1, 1⟩]⟩

def hanako : ExpandEntity := ⟨6, 6, 0, [⟨'S', 1, 2⟩]⟩

def threeEnv : ExpandEnv where
  tree := threeConjuncts
  f _ := ["体言"]
  entityOf t := if t = 2 then 6 else 5
  entity n := if n = 6 then hanako else taro
  optUnnamedEntity := false
  tagPtr := 4
  sentNum := 1
  analyzeTag := some .pred
  substance_isSome p c hc := by
    by_cases hp : p = 3
    · subst hp
      have hall : ∀ c ∈ threeConjuncts.children 3, (threeConjuncts.substance TAG_MAX c).isSome := by
        decide
      exact hall c hc
    · have hnone : threeConjuncts.child p = fun _ => none := funext fun k => if_neg hp
      rw [TreeData.children, hnone] at hc
      cases hc

/-- 花子 for the first slot. -/
def hanakoResult : CtmResult := ⟨[⟨0, 6, 'N'⟩], fun k => k = 6⟩

/-- 太郎 is added for both of the conjuncts. -/
theorem threeEnv_adds_twice :
    (threeEnv.expandResultToParallelEntity hanakoResult).map CtmResult.entries =
      some [⟨0, 6, 'N'⟩, ⟨0, 5, 'N'⟩, ⟨0, 5, 'N'⟩] ∧ ¬threeEnv.Expands hanakoResult := by
  have hentries : (threeEnv.expandResultToParallelEntity hanakoResult).map CtmResult.entries =
      some [⟨0, 6, 'N'⟩, ⟨0, 5, 'N'⟩, ⟨0, 5, 'N'⟩] := by
    decide
  refine ⟨hentries, ?_⟩
  rintro ⟨ctm', hrun, hright⟩
  rw [hrun, Option.map_some] at hentries
  have hnodup := hright.nodup
  rw [Option.some_inj.mp hentries] at hnodup
  exact absurd hnodup (by decide)

end Knp
