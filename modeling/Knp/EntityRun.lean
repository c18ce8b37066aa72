import Knp.EntityLinks

/-!
# Runs of registrations and merges

A step is a registration, a new entity, or one turn of the loops of
`merge_hypo_real_entity` and `merge_hypo_real_entity_auto`; a whole call of either is a
run of steps. The other fields of an entity may be set between the steps.
-/

namespace Knp

/-- The steps. `register` is one of `read_one_annotation` and `anaphora_result_to_entity`. -/
inductive EntityOp
  | linkTag (t : TagRef) (name : String) (coreferId : Option Nat)
  | unnamed (name : String) (num : Option Nat) (skipFlag : Bool)
  | register (m : MentionRef) (k : Nat) (type : Char)
  | setFields (k : Nat) (e : Entity)
  | mergeAuto (idx : Nat)
  | mergeReal (i : Nat)
  | mergeNamed (i j : Nat)

namespace EntityManager

variable {st st' : EntityManager} {env : AuthorReader}

/-- All fields but the list and the COREFER_ID. -/
def setFields (st : EntityManager) (k : Nat) (e : Entity) : EntityManager :=
  st.setEntity k { e with
    mention := (st.entity k).mention
    coreferId := (st.entity k).coreferId }

def step (env : AuthorReader) (st : EntityManager) : EntityOp → EntityManager
  | .linkTag t name coreferId => st.linkTag t name coreferId
  | .unnamed name num skipFlag => st.makeEachUnnamedEntity name num skipFlag
  | .register m k type => st.register m k type
  | .setFields k e => st.setFields k e
  | .mergeAuto idx => mergeAuto env st idx
  | .mergeReal i => st.mergeReal i
  | .mergeNamed i j => mergeNamed i st j

/-- The callers register mentions that have no entity yet, with entities that there are. -/
def Possible (st : EntityManager) : EntityOp → Prop
  | .linkTag t _ _ => st.link (t, 0) = none
  | .unnamed _ _ _ => True
  | .register m k _ => k < st.num ∧ st.link m = none
  | .setFields k e => k < st.num ∧ ∀ r, e.realEntity = some r → r < st.num
  | .mergeAuto idx => idx < st.num
  | .mergeReal i => i < st.num ∧ (st.entity i).hypotheticalFlag = true ∧ i < UNNAMED_ENTITY_NUM
  | .mergeNamed i j => i < st.num ∧ j < st.num ∧ (st.entity i).hypotheticalFlag = true ∧
      ¬i < UNNAMED_ENTITY_NUM

/-- The list has room for a mention that is registered, and what is merged may be. -/
def Meets (env : AuthorReader) (st : EntityManager) : EntityOp → Prop
  | .linkTag _ _ coreferId => ∀ k < st.num, coreferId ≠ none → (st.entity k).coreferId = coreferId →
      (st.mentions k).length < MENTIONED_MAX - 1
  | .unnamed _ _ _ => True
  | .register _ k _ => (st.mentions k).length < MENTIONED_MAX - 1
  | .setFields _ _ => True
  | .mergeAuto idx => ∀ hypo, hypoNum env st idx = some hypo → MergeOk st idx hypo
  | .mergeReal i => ∀ real, (st.entity i).realEntity = some real → MergeOk st real i
  | .mergeNamed i j => (st.entity i).name = (st.entity j).hypotheticalName → MergeOk st j i

/-! ## The numbers of the entities -/

/-- The entities are those below `num`, and a COREFER_ID is that of one entity. -/
structure Numbered (st : EntityManager) : Prop where
  mentions_nil : ∀ k, st.num ≤ k → st.mentions k = []
  coreferId_none : ∀ k, st.num ≤ k → (st.entity k).coreferId = none
  realEntity_lt : ∀ k r, (st.entity k).realEntity = some r → r < st.num
  coreferId_inj : ∀ j k id, (st.entity j).coreferId = some id → (st.entity k).coreferId = some id →
    j = k

theorem numbered_init : Numbered init :=
  ⟨by simp [mentions, init, Entity.blank], by simp [init, Entity.blank], by simp [init, Entity.blank],
    by simp [init, Entity.blank]⟩

/-- The entities are numbered if their identities and their lists are where they were. -/
theorem Numbered.congr (h : Numbered st) (hnum : st'.num = st.num)
    (hcorefer : ∀ k, (st'.entity k).coreferId = (st.entity k).coreferId)
    (hreal : ∀ k r, (st'.entity k).realEntity = some r → r < st.num)
    (hnil : ∀ k, st.num ≤ k → st'.mentions k = []) : Numbered st' := by
  constructor
  · simpa only [hnum] using hnil
  · simpa only [hnum, hcorefer] using h.coreferId_none
  · simpa only [hnum] using hreal
  · simpa only [hcorefer] using h.coreferId_inj

theorem Numbered.register (h : Numbered st) {m : MentionRef} {k : Nat} (hk : k < st.num)
    (type : Char) : Numbered (st.register m k type) := by
  refine h.congr rfl (fun j => register_coreferId st m k j type) (fun j r hr => ?_) fun j hj => ?_
  · rw [register_entity] at hr
    split at hr
    · rw [addMention_realEntity] at hr
      exact h.realEntity_lt k r hr
    · exact h.realEntity_lt j r hr
  · have hne : j ≠ k := by omega
    rw [mentions, register_entity, if_neg hne]
    exact h.mentions_nil j hj

theorem Numbered.merge (h : Numbered st) {target : Nat} (source : Nat) (ht : target < st.num) :
    Numbered (st.mergeTwoEntity target source) := by
  refine h.congr (mergeTwoEntity_num st target source)
    (fun k => (mergeTwoEntity_fields st target source k).1) (fun k r hr => ?_) fun k hk => ?_
  · rw [(mergeTwoEntity_fields st target source k).2.1] at hr
    exact h.realEntity_lt k r hr
  · rw [(mergeTwoEntity_merged st target source).mentions_eq]
    have hne : k ≠ target := by omega
    split
    · rfl
    · exact h.mentions_nil k hk

/-- A new entity takes the next number. -/
theorem Numbered.push (h : Numbered st) (hnum : st'.num = st.num + 1)
    (hold : ∀ k, k ≠ st.num → st'.entity k = st.entity k)
    (hreal : (st'.entity st.num).realEntity = none)
    (hid : ∀ k id, (st'.entity st.num).coreferId = some id → (st.entity k).coreferId ≠ some id) :
    Numbered st' := by
  have hofLe : ∀ k, st'.num ≤ k → st.num ≤ k ∧ st'.entity k = st.entity k := fun k hk =>
    ⟨by omega, hold k (by omega)⟩
  refine ⟨fun k hk => ?_, fun k hk => ?_, fun k r hr => ?_, fun j k id hj hk => ?_⟩
  · rw [mentions, (hofLe k hk).2]
    exact h.mentions_nil k (hofLe k hk).1
  · rw [(hofLe k hk).2]
    exact h.coreferId_none k (hofLe k hk).1
  · by_cases heq : k = st.num
    · rw [heq, hreal] at hr
      cases hr
    · rw [hold k heq] at hr
      have hlt := h.realEntity_lt k r hr
      omega
  · by_cases hjn : j = st.num
    · by_cases hkn : k = st.num
      · rw [hjn, hkn]
      · rw [hold k hkn] at hk
        exact absurd hk (hid k id (hjn ▸ hj))
    · rw [hold j hjn] at hj
      by_cases hkn : k = st.num
      · exact absurd hj (hid j id (hkn ▸ hk))
      · rw [hold k hkn] at hk
        exact h.coreferId_inj j k id hj hk

/-! ## The tags with a COREFER_ID -/

theorem foldl_register_of_ne {m : MentionRef} {id : Nat} (l : List Nat)
    (h : ∀ k ∈ l, (st.entity k).coreferId ≠ some id) :
    l.foldl (fun st k =>
      if (st.entity k).coreferId = some id then st.register m k '=' else st) st = st := by
  induction l with
  | nil => rfl
  | cons k l ih =>
    rw [List.foldl_cons, if_neg (h k (by simp))]
    exact ih fun j hj => h j (by simp [hj])

theorem linkEntityFromCoreferId_of_ne {m : MentionRef} {id : Nat}
    (h : ∀ k < st.num, (st.entity k).coreferId ≠ some id) :
    st.linkEntityFromCoreferId m id = st :=
  foldl_register_of_ne _ fun k hk => h k (List.mem_range.mp hk)

/-- The mention is registered with the one entity that has the COREFER_ID. -/
theorem linkEntityFromCoreferId_of_eq (h : Numbered st) {m : MentionRef} {id k : Nat}
    (hk : k < st.num) (hid : (st.entity k).coreferId = some id) :
    st.linkEntityFromCoreferId m id = st.register m k '=' := by
  have hmem : k ∈ List.range st.num := List.mem_range.mpr hk
  obtain ⟨l₁, l₂, hl⟩ := List.append_of_mem hmem
  have hnodup : (l₁ ++ k :: l₂).Nodup := hl ▸ List.nodup_range
  have hother : ∀ j, j ≠ k → (st.entity j).coreferId ≠ some id := fun j hj heq =>
    hj (h.coreferId_inj j k id heq hid)
  have h₁ : ∀ j ∈ l₁, j ≠ k := fun j hj he =>
    (List.nodup_append.mp hnodup).2.2 j hj k List.mem_cons_self he
  have h₂ : ∀ j ∈ l₂, j ≠ k := fun j hj he =>
    (List.nodup_cons.mp (List.nodup_append.mp hnodup).2.1).1 (he ▸ hj)
  rw [linkEntityFromCoreferId, hl, List.foldl_append, List.foldl_cons,
    foldl_register_of_ne l₁ fun j hj => hother j (h₁ j hj), if_pos hid,
    foldl_register_of_ne l₂ fun j hj => by
      rw [register_coreferId]
      exact hother j (h₂ j hj)]

theorem makeNewEntity_entity (st : EntityManager) (t : TagRef) (name : String)
    (coreferId : Option Nat) (k : Nat) :
    (st.makeNewEntity t name coreferId).entity k =
      if k = st.num then { Entity.blank with name, coreferId, mention := [(t, 0)] }
      else st.entity k :=
  setEntity_entity st st.num k _

/-- `link_entity_from_corefer_id` finds an entity, or a new one is made. -/
theorem linkTag_cases (h : Numbered st) {t : TagRef} (ht : st.link (t, 0) = none) (name : String)
    (coreferId : Option Nat) :
    (∃ k id, k < st.num ∧ coreferId = some id ∧ (st.entity k).coreferId = some id ∧
        st.linkTag t name coreferId = st.register (t, 0) k '=') ∨
      (∀ k id, coreferId = some id → (st.entity k).coreferId ≠ some id) ∧
        st.linkTag t name coreferId = st.makeNewEntity t name coreferId := by
  cases coreferId with
  | none =>
    right
    simp [linkTag, ht]
  | some id =>
    by_cases hfound : ∃ k, (st.entity k).coreferId = some id
    · obtain ⟨k, hk⟩ := hfound
      have hlt : k < st.num := by
        by_contra hge
        exact absurd hk (by simp [h.coreferId_none k (not_lt.mp hge)])
      refine Or.inl ⟨k, id, hlt, rfl, hk, ?_⟩
      simp [linkTag, linkEntityFromCoreferId_of_eq h hlt hk]
    · have hnone : ∀ k, (st.entity k).coreferId ≠ some id := fun k hk => hfound ⟨k, hk⟩
      refine Or.inr ⟨fun k id' hid => Option.some_inj.mp hid ▸ hnone k, ?_⟩
      simp [linkTag, linkEntityFromCoreferId_of_ne fun k _ => hnone k, ht]

theorem makeNewEntity_linked (h : Linked st) (hn : Numbered st) {t : TagRef}
    (ht : st.link (t, 0) = none) (name : String) (coreferId : Option Nat) :
    Linked (st.makeNewEntity t name coreferId) := by
  have hmentions : ∀ k, (st.makeNewEntity t name coreferId).mentions k =
      if k = st.num then [(t, 0)] else st.mentions k := fun k => by
    rw [mentions, makeNewEntity_entity]
    split <;> rfl
  have hlink : ∀ x, (st.makeNewEntity t name coreferId).link x =
      if x = (t, 0) then some st.num else st.link x := fun x =>
    Function.update_apply st.link (t, 0) (some st.num) x
  refine ⟨fun k x hx => ?_, fun x k hx => ?_, fun k => ?_⟩
  · rw [hmentions] at hx
    rw [hlink]
    split at hx
    · next hk => rw [if_pos (List.mem_singleton.mp hx), hk]
    · have hne : x ≠ (t, 0) := by
        rintro rfl
        exact absurd (ht.symm.trans (h.link_eq k _ hx)) (by simp)
      rw [if_neg hne, h.link_eq k x hx]
  · rw [hlink] at hx
    split at hx
    · next heq => exact ⟨st.num, by simp [hmentions, heq]⟩
    · have hmem := h.mem hx
      have hne : k ≠ st.num := fun hk => by
        rw [hk, hn.mentions_nil st.num le_rfl] at hmem
        exact absurd hmem (by simp)
      exact ⟨k, by rwa [hmentions, if_neg hne]⟩
  · rw [hmentions]
    split
    · exact Nat.succ_le_of_lt (by decide)
    · exact h.length_le k

/-! ## A step -/

theorem setEntity_mentions {k : Nat} {e : Entity} (h : e.mention = st.mentions k) (j : Nat) :
    (st.setEntity k e).mentions j = st.mentions j := by
  rw [mentions, setEntity_entity]
  split
  · next heq => rw [h, heq]
  · rfl

theorem Numbered.setEntity (h : Numbered st) {k : Nat} {e : Entity}
    (hmention : e.mention = st.mentions k) (hid : e.coreferId = (st.entity k).coreferId)
    (hreal : ∀ r, e.realEntity = some r → r < st.num) : Numbered (st.setEntity k e) := by
  refine h.congr rfl (fun j => ?_) (fun j r hr => ?_) fun j hj => ?_
  · rw [setEntity_entity]
    split
    · next heq => rw [hid, heq]
    · rfl
  · rw [setEntity_entity] at hr
    split at hr
    · exact hreal r hr
    · exact h.realEntity_lt j r hr
  · rw [setEntity_mentions hmention]
    exact h.mentions_nil j hj

theorem Merged.congr {target source : Nat} {st₁ st₂ : EntityManager}
    (h : Merged st₁ target source st₂) (hmentions : ∀ k, st₁.mentions k = st.mentions k)
    (htype : st₁.type = st.type) (hlink : st₁.link = st.link)
    (hmentions' : ∀ k, st'.mentions k = st₂.mentions k) (hlink' : st'.link = st₂.link) :
    Merged st target source st' := by
  have hrep : ∀ ms x, st₁.Repointed ms x ↔ st.Repointed ms x := fun ms x => by
    simp [Repointed, IsText, htype]
  constructor
  · simpa only [hmentions', hmentions] using h.mentions_eq
  · simpa only [hlink', hlink, hmentions, hrep] using h.link_eq

theorem pairHypo_mentions (st : EntityManager) (idx hypo k : Nat) :
    (st.pairHypo idx hypo).mentions k = st.mentions k := by
  simp only [pairHypo]
  rw [setEntity_mentions, setEntity_mentions] <;> rfl

/-- A turn of `merge_hypo_real_entity_auto` merges lists if it finds the author or the reader. -/
theorem mergeAuto_merged {idx hypo : Nat} (h : hypoNum env st idx = some hypo) :
    Merged st idx hypo (mergeAuto env st idx) := by
  simp only [mergeAuto, h]
  exact (mergeTwoEntity_merged _ idx hypo).congr (pairHypo_mentions st idx hypo) rfl rfl
    (setEntity_mentions rfl) rfl

theorem Numbered.pairHypo (h : Numbered st) {idx : Nat} (hypo : Nat) (hidx : idx < st.num) :
    Numbered (st.pairHypo idx hypo) := by
  have h₁ : Numbered (st.setEntity hypo { st.entity hypo with realEntity := some idx }) :=
    h.setEntity rfl rfl fun r hr => Option.some_inj.mp hr ▸ hidx
  exact h₁.setEntity rfl rfl fun r hr => h₁.realEntity_lt idx r hr

theorem Numbered.mergeAuto (h : Numbered st) {idx : Nat} (hidx : idx < st.num) :
    Numbered (mergeAuto env st idx) := by
  unfold EntityManager.mergeAuto
  split
  · exact h
  · next hypo hhypo =>
      have hmerge := (h.pairHypo hypo hidx).merge hypo hidx
      exact hmerge.setEntity rfl rfl fun r hr => hmerge.realEntity_lt idx r hr

theorem Numbered.step (h : Numbered st) {op : EntityOp} (hop : Possible st op) :
    Numbered (step env st op) := by
  cases op with
  | linkTag t name coreferId =>
    rcases linkTag_cases h hop name coreferId with ⟨k, id, hk, -, -, heq⟩ | ⟨hnone, heq⟩
    · rw [EntityManager.step, heq]
      exact h.register hk '='
    · rw [EntityManager.step, heq]
      refine h.push rfl (fun k hk => ?_) ?_ fun k id hid => hnone k id ?_
      · rw [makeNewEntity_entity, if_neg hk]
      · rw [makeNewEntity_entity, if_pos rfl]
        rfl
      · rwa [makeNewEntity_entity, if_pos rfl] at hid
  | unnamed name num skipFlag =>
    have hentity : ∀ k, (st.makeEachUnnamedEntity name num skipFlag).entity k = _ := fun k =>
      setEntity_entity st st.num k _
    refine h.push rfl (fun k hk => ?_) ?_ fun k id hid => ?_
    · rw [EntityManager.step, hentity, if_neg hk]
    · rw [EntityManager.step, hentity, if_pos rfl]
      rfl
    · rw [EntityManager.step, hentity, if_pos rfl] at hid
      exact nomatch hid
  | register m k type => exact h.register hop.1 type
  | setFields k e => exact h.setEntity rfl rfl hop.2
  | mergeAuto idx => exact h.mergeAuto hop
  | mergeReal i =>
    unfold EntityManager.step mergeReal
    dsimp only
    split
    · exact h
    · next real hreal => exact h.merge i (h.realEntity_lt i real hreal)
  | mergeNamed i j =>
    unfold EntityManager.step mergeNamed
    dsimp only
    split
    · exact h.merge i hop.2.1
    · exact h

/-- What a step has to meet is exactly what keeps lists and pointers in agreement. -/
theorem linked_step_iff (hn : Numbered st) (h : Linked st) {op : EntityOp} (hop : Possible st op) :
    Linked (step env st op) ↔ Meets env st op := by
  cases op with
  | linkTag t name coreferId =>
    rcases linkTag_cases hn hop name coreferId with ⟨k, id, hk, hid, hkid, heq⟩ | ⟨hnone, heq⟩
    · rw [step, heq, register_linked_iff h '=' hop]
      constructor
      · intro hroom j _ _ hj
        obtain rfl : j = k := hn.coreferId_inj j k id (hj.trans hid) hkid
        exact hroom
      · intro hmeets
        exact hmeets k hk (by simp [hid]) (hkid.trans hid.symm)
    · rw [step, heq]
      refine iff_of_true (makeNewEntity_linked h hn hop name coreferId) fun k _ hsome hk => ?_
      obtain ⟨id, hid⟩ := Option.ne_none_iff_exists'.mp hsome
      exact absurd (hk.trans hid) (hnone k id hid)
  | unnamed name num skipFlag =>
    refine iff_of_true (h.congr (fun k => ?_) rfl) trivial
    refine setEntity_mentions ?_ k
    exact (hn.mentions_nil st.num le_rfl).symm
  | register m k type => exact register_linked_iff h type hop.2
  | setFields k e => exact iff_of_true (h.congr (setEntity_mentions rfl) rfl) trivial
  | mergeAuto idx =>
    cases hhypo : hypoNum env st idx with
    | none => simp [step, mergeAuto, Meets, hhypo, h]
    | some hypo =>
      simp only [step, Meets, hhypo, Option.some_inj, forall_eq']
      exact merged_linked_iff h (mergeAuto_merged hhypo)
  | mergeReal i =>
    cases hreal : (st.entity i).realEntity with
    | none => simp [step, mergeReal, Meets, hreal, h]
    | some real =>
      simp only [step, mergeReal, Meets, hreal, Option.some_inj, forall_eq']
      exact merged_linked_iff h (mergeTwoEntity_merged st real i)
  | mergeNamed i j =>
    by_cases hname : (st.entity i).name = (st.entity j).hypotheticalName
    · simp only [step, mergeNamed, Meets, hname, if_true, forall_const]
      exact merged_linked_iff h (mergeTwoEntity_merged st j i)
    · simp [step, mergeNamed, Meets, hname, h]

/-! ## Whole calls -/

theorem mergeAuto_num (st : EntityManager) (idx : Nat) : (mergeAuto env st idx).num = st.num := by
  unfold mergeAuto
  split
  · rfl
  · exact mergeTwoEntity_num _ _ _

theorem mergeReal_num (st : EntityManager) (i : Nat) : (st.mergeReal i).num = st.num := by
  unfold mergeReal
  split
  · rfl
  · exact mergeTwoEntity_num _ _ _

theorem mergeNamed_num (st : EntityManager) (i j : Nat) : (mergeNamed i st j).num = st.num := by
  unfold mergeNamed
  split
  · exact mergeTwoEntity_num _ _ _
  · rfl

theorem mergeNamed_hypotheticalFlag (st : EntityManager) (i j k : Nat) :
    ((mergeNamed i st j).entity k).hypotheticalFlag = (st.entity k).hypotheticalFlag := by
  unfold mergeNamed
  split
  · exact (mergeTwoEntity_fields st j i k).2.2
  · rfl

/-- A run of steps leads from one state to the other. -/
def IsRun (env : AuthorReader) (st st' : EntityManager) : Prop :=
  ∃ ops, StepRun.EachStep (step env) Possible st ops ∧ ops.foldl (step env) st = st'

theorem IsRun.refl (st : EntityManager) : IsRun env st st := ⟨[], trivial, rfl⟩

theorem IsRun.single (op : EntityOp) (h : Possible st op) : IsRun env st (step env st op) :=
  ⟨[op], ⟨h, trivial⟩, rfl⟩

theorem IsRun.trans {st'' : EntityManager} (h : IsRun env st st') (h' : IsRun env st' st'') :
    IsRun env st st'' := by
  obtain ⟨ops, hops, rfl⟩ := h
  obtain ⟨ops', hops', rfl⟩ := h'
  exact ⟨ops ++ ops', StepRun.eachStep_append.mpr ⟨hops, hops'⟩, List.foldl_append⟩

/-- A loop whose turns are runs, as long as `P` holds, is a run. -/
theorem isRun_foldl (env : AuthorReader) {f : EntityManager → Nat → EntityManager}
    {P : EntityManager → Prop} {l : List Nat}
    (hf : ∀ st, ∀ k ∈ l, P st → IsRun env st (f st k) ∧ P (f st k)) (h : P st) :
    IsRun env st (l.foldl f st) ∧ P (l.foldl f st) := by
  induction l generalizing st with
  | nil => exact ⟨IsRun.refl st, h⟩
  | cons k l ih =>
    obtain ⟨hrun, hP⟩ := hf st k List.mem_cons_self h
    obtain ⟨hrest, hlast⟩ := ih (fun st j hj => hf st j (List.mem_cons_of_mem k hj)) hP
    exact ⟨hrun.trans hrest, hlast⟩

theorem mergeHypoRealEntityAuto_isRun (env : AuthorReader) (st : EntityManager) :
    IsRun env st (mergeHypoRealEntityAuto env st) := by
  refine (isRun_foldl env (P := fun st' => st'.num = st.num) (fun st' k hk hnum => ?_) rfl).1
  have hlt : k < st'.num := hnum.symm ▸ List.mem_range.mp hk
  exact ⟨IsRun.single (.mergeAuto k) hlt, (mergeAuto_num st' k).trans hnum⟩

theorem mergeHypo_isRun (env : AuthorReader) (st : EntityManager) {i : Nat} (hi : i < st.num) :
    IsRun env st (st.mergeHypo i) ∧ (st.mergeHypo i).num = st.num := by
  unfold mergeHypo
  split
  · exact ⟨IsRun.refl st, rfl⟩
  · next hflag =>
      rw [Bool.not_eq_false] at hflag
      split
      · next hlt =>
          exact ⟨IsRun.single (.mergeReal i) ⟨hi, hflag, hlt⟩, mergeReal_num st i⟩
      · next hge =>
          obtain ⟨hrun, hnum, -⟩ := isRun_foldl env (f := mergeNamed i)
            (l := List.range st.num)
            (P := fun st' => st'.num = st.num ∧ (st'.entity i).hypotheticalFlag = true)
            (fun st' j hj ⟨hnum, hflag'⟩ => ⟨IsRun.single (.mergeNamed i j)
                ⟨hnum.symm ▸ hi, hnum.symm ▸ List.mem_range.mp hj, hflag', hge⟩,
              (mergeNamed_num st' i j).trans hnum,
              (mergeNamed_hypotheticalFlag st' i j i).trans hflag'⟩) ⟨rfl, hflag⟩
          exact ⟨hrun, hnum⟩

theorem mergeHypoRealEntity_isRun (env : AuthorReader) (st : EntityManager) :
    IsRun env st st.mergeHypoRealEntity := by
  refine (isRun_foldl env (P := fun st' => st'.num = st.num) (fun st' k hk hnum => ?_) rfl).1
  obtain ⟨hrun, hnum'⟩ := mergeHypo_isRun env st'
    (hnum.symm ▸ List.mem_range.mp hk : k < st'.num)
  exact ⟨hrun, hnum'.trans hnum⟩

/-! ## A run -/

/-- Lists and pointers agree in all states of a run just if each of its steps meets what it has
to: no list is full that a mention is registered with, and no merge is of an entity with itself,
of too much, or of mentions that are not words of the text. -/
theorem run_linked_iff (env : AuthorReader) (ops : List EntityOp)
    (hrun : StepRun.EachStep (step env) Possible init ops) :
    StepRun.EachState (step env) Linked init ops ↔
      StepRun.EachStep (step env) (Meets env) init ops :=
  StepRun.eachState_iff (fun _ _ hn hop => hn.step hop)
    (fun _ _ hn h hop => linked_step_iff hn h hop) numbered_init linked_init hrun

/-- Two tags with one COREFER_ID are mentions of one entity. -/
theorem two_tags_linked : StepRun.EachState (step ⟨none, none⟩) Linked init
    [.linkTag (1, 0) "私" (some 1), .linkTag (2, 3) "私" (some 1)] := by
  have hrun : StepRun.EachStep (step ⟨none, none⟩) Possible init
      [.linkTag (1, 0) "私" (some 1), .linkTag (2, 3) "私" (some 1)] := ⟨rfl, rfl, trivial⟩
  refine (run_linked_iff ⟨none, none⟩ _ hrun).mpr ⟨?_, ?_, trivial⟩
  · exact fun k hk => absurd hk (Nat.not_lt_zero k)
  · intro k hk _ _
    obtain rfl : k = 0 := Nat.lt_one_iff.mp hk
    decide

/-- An author of an annotation, and a word of the text that is found to be the author: the
hypothetical mention that was registered still points to the hypothetical entity. -/
theorem author_not_linked :
    ¬∀ (env : AuthorReader) (ops : List EntityOp), StepRun.EachStep (step env) Possible init ops →
      StepRun.EachState (step env) Linked init ops := by
  intro h
  have hrun := h ⟨some (1, 0), none⟩
    [.unnamed "不特定:一人称" (some 0) false, .linkTag (1, 0) "私" none,
      .register ((1, 2), 1) 0 'E', .mergeAuto 1]
    ⟨trivial, rfl, ⟨Nat.zero_lt_two, rfl⟩, Nat.one_lt_two, trivial⟩
  have hlink := hrun.last.link_eq 1 ((1, 2), 1) (by decide)
  exact absurd hlink (by decide)

end EntityManager

end Knp
