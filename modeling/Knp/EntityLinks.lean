import Knp.EntityMention

/-!
# Links between entities and mentions

What a registration and a merge do to the lists and to the pointers, and when they keep
the two in agreement.
-/

namespace Knp

namespace EntityManager

variable {st st' : EntityManager}

/-- The mentions in the list of an entity. -/
abbrev mentions (st : EntityManager) (k : Nat) : List MentionRef := (st.entity k).mention

/-- A mention in the list of an entity points to it, a mention that points to an entity is in
some list, and the lists are within their array. -/
structure Linked (st : EntityManager) : Prop where
  link_eq : ∀ k, ∀ m ∈ st.mentions k, st.link m = some k
  kept : ∀ m k, st.link m = some k → ∃ j, m ∈ st.mentions j
  length_le : ∀ k, (st.mentions k).length ≤ MENTIONED_MAX

theorem Linked.mem (h : Linked st) {m : MentionRef} {k : Nat} (hm : st.link m = some k) :
    m ∈ st.mentions k := by
  obtain ⟨j, hj⟩ := h.kept m k hm
  obtain rfl : j = k := Option.some_inj.mp ((h.link_eq j m hj).symm.trans hm)
  exact hj

theorem Linked.congr (h : Linked st) (hmentions : ∀ k, st'.mentions k = st.mentions k)
    (hlink : st'.link = st.link) : Linked st' := by
  constructor
  · simpa only [hmentions, hlink] using h.link_eq
  · simpa only [hmentions, hlink] using h.kept
  · simpa only [hmentions] using h.length_le

theorem linked_init : Linked init :=
  ⟨by simp [mentions, init, Entity.blank], by simp [init], by simp [mentions, init, Entity.blank]⟩

/-! ## Registration -/

@[simp] theorem register_num (st : EntityManager) (m : MentionRef) (k : Nat) (type : Char) :
    (st.register m k type).num = st.num := rfl

@[simp] theorem register_link (st : EntityManager) (m : MentionRef) (k : Nat) (type : Char) :
    (st.register m k type).link = Function.update st.link m (some k) := rfl

theorem register_entity (st : EntityManager) (m : MentionRef) (k j : Nat) (type : Char) :
    (st.register m k type).entity j =
      if j = k then addMention (st.entity k) m else st.entity j :=
  setEntity_entity st k j _

@[simp] theorem addMention_coreferId (e : Entity) (m : MentionRef) :
    (addMention e m).coreferId = e.coreferId := by
  unfold addMention
  split <;> rfl

@[simp] theorem addMention_realEntity (e : Entity) (m : MentionRef) :
    (addMention e m).realEntity = e.realEntity := by
  unfold addMention
  split <;> rfl

@[simp] theorem register_coreferId (st : EntityManager) (m : MentionRef) (k j : Nat)
    (type : Char) : ((st.register m k type).entity j).coreferId = (st.entity j).coreferId := by
  rw [register_entity]
  split <;> simp [*]

theorem register_mentions_of_lt {m : MentionRef} {k : Nat} (type : Char)
    (h : (st.mentions k).length < MENTIONED_MAX - 1) (j : Nat) :
    (st.register m k type).mentions j =
      if j = k then st.mentions k ++ [m] else st.mentions j := by
  rw [mentions, register_entity, addMention, if_neg (not_le.mpr h)]
  split <;> rfl

theorem register_mentions_of_le {m : MentionRef} {k : Nat} (type : Char)
    (h : MENTIONED_MAX - 1 ≤ (st.mentions k).length) (j : Nat) :
    (st.register m k type).mentions j = st.mentions j := by
  rw [mentions, register_entity, addMention, if_pos h]
  split
  · next heq => rw [heq]
  · rfl

/-- A mention that is not linked yet is registered where the list is not full. -/
theorem register_linked_iff (h : Linked st) {m : MentionRef} {k : Nat} (type : Char)
    (hm : st.link m = none) :
    Linked (st.register m k type) ↔ (st.mentions k).length < MENTIONED_MAX - 1 := by
  constructor
  · intro h'
    by_contra hfull
    obtain ⟨j, hj⟩ := h'.kept m k (by simp)
    rw [register_mentions_of_le type (not_lt.mp hfull)] at hj
    exact absurd (hm.symm.trans (h.link_eq j m hj)) (by simp)
  · intro hroom
    have hnew : ∀ j, m ∉ st.mentions j := fun j hj =>
      absurd (hm.symm.trans (h.link_eq j m hj)) (by simp)
    refine ⟨fun j x hx => ?_, fun x j hx => ?_, fun j => ?_⟩
    · rw [register_mentions_of_lt type hroom] at hx
      rw [register_link, Function.update_apply]
      split at hx
      · next heq =>
          rcases List.mem_append.mp hx with hold | hnew'
          · have hne : x ≠ m := fun he => hnew k (he ▸ hold)
            rw [if_neg hne, heq, h.link_eq k x hold]
          · rw [if_pos (List.mem_singleton.mp hnew'), heq]
      · have hne : x ≠ m := fun he => hnew j (he ▸ hx)
        rw [if_neg hne, h.link_eq j x hx]
    · rw [register_link, Function.update_apply] at hx
      by_cases heq : x = m
      · refine ⟨k, ?_⟩
        simp [register_mentions_of_lt type hroom, heq]
      · rw [if_neg heq] at hx
        refine ⟨j, ?_⟩
        have hold := h.mem hx
        rw [register_mentions_of_lt type hroom]
        split
        · next hjk => exact List.mem_append_left _ (hjk ▸ hold)
        · exact hold
    · rw [register_mentions_of_lt type hroom]
      split
      · rw [List.length_append, List.length_singleton]
        omega
      · exact h.length_le j

/-! ## Merging -/

/-- The mention is a word of the text: `S` or `=`. -/
def IsText (st : EntityManager) (m : MentionRef) : Prop := st.type m = 'S' ∨ st.type m = '='

instance (st : EntityManager) (m : MentionRef) : Decidable (st.IsText m) :=
  inferInstanceAs (Decidable (_ ∨ _))

@[simp] theorem moveMention_entity (target : Nat) (st : EntityManager) (m : MentionRef) :
    (moveMention target st m).entity = st.entity := rfl

@[simp] theorem moveMention_num (target : Nat) (st : EntityManager) (m : MentionRef) :
    (moveMention target st m).num = st.num := rfl

/-- `E` becomes `O`, and neither is a word of the text. -/
theorem moveMention_isText (target : Nat) (st : EntityManager) (m x : MentionRef) :
    (moveMention target st m).IsText x ↔ st.IsText x := by
  by_cases hx : x = m
  · subst hx
    by_cases hE : st.type x = 'E' <;> simp [IsText, moveMention, hE]
  · simp [IsText, moveMention, hx]

theorem moveMention_link (target : Nat) (st : EntityManager) (m x : MentionRef) :
    (moveMention target st m).link x =
      if x = (m.1, 0) ∧ st.IsText m then some target else st.link x := by
  have htext : (if st.type m = 'E' then 'O' else st.type m) = 'S' ∨
      (if st.type m = 'E' then 'O' else st.type m) = '=' ↔ st.IsText m := by
    by_cases hE : st.type m = 'E' <;> simp [IsText, hE]
  simp only [moveMention, htext]
  by_cases ht : st.IsText m
  · simp [ht, Function.update_apply]
  · simp [ht]

/-- The first mention of a tag is re-pointed that has a word of the text among `ms`. -/
def Repointed (st : EntityManager) (ms : List MentionRef) (x : MentionRef) : Prop :=
  ∃ m ∈ ms, x = (m.1, 0) ∧ st.IsText m

instance (st : EntityManager) (ms : List MentionRef) (x : MentionRef) :
    Decidable (st.Repointed ms x) := inferInstanceAs (Decidable (∃ m ∈ ms, _))

theorem foldl_moveMention (target : Nat) (ms : List MentionRef) (st : EntityManager) :
    (ms.foldl (moveMention target) st).entity = st.entity ∧
      (ms.foldl (moveMention target) st).num = st.num ∧
      ∀ x, (ms.foldl (moveMention target) st).link x =
        if st.Repointed ms x then some target else st.link x := by
  induction ms generalizing st with
  | nil => simp [Repointed]
  | cons m ms ih =>
    obtain ⟨hentity, hnum, hlink⟩ := ih (moveMention target st m)
    refine ⟨hentity, hnum, fun x => ?_⟩
    have hrest : (moveMention target st m).Repointed ms x ↔ st.Repointed ms x := by
      simp only [Repointed, moveMention_isText]
    have hcons : st.Repointed (m :: ms) x ↔ (x = (m.1, 0) ∧ st.IsText m) ∨ st.Repointed ms x := by
      simp [Repointed]
    rw [List.foldl_cons, hlink, moveMention_link]
    simp only [hrest, hcons]
    by_cases hr : st.Repointed ms x <;> simp [hr]

/-- The lists and the pointers after a merge. -/
structure Merged (st : EntityManager) (target source : Nat) (st' : EntityManager) : Prop where
  mentions_eq : ∀ j, st'.mentions j =
    if j = source then [] else if j = target then st.mentions target ++ st.mentions source
    else st.mentions j
  link_eq : ∀ x, st'.link x =
    if st.Repointed (st.mentions source) x then some target else st.link x

theorem mergeTwoEntity_merged (st : EntityManager) (target source : Nat) :
    Merged st target source (st.mergeTwoEntity target source) := by
  obtain ⟨hentity, -, hlink⟩ := foldl_moveMention target (st.mentions source) st
  constructor
  · intro j
    simp only [mentions, mergeTwoEntity, setEntity_entity, hentity]
    by_cases hs : j = source
    · simp [hs]
    · rw [if_neg hs, if_neg hs]
      by_cases ht : j = target <;> simp [ht]
  · intro x
    exact hlink x

theorem mergeTwoEntity_num (st : EntityManager) (target source : Nat) :
    (st.mergeTwoEntity target source).num = st.num :=
  (foldl_moveMention target (st.mentions source) st).2.1

/-- The other fields of the entities, but for the source's `skip_flag`. -/
theorem mergeTwoEntity_fields (st : EntityManager) (target source j : Nat) :
    ((st.mergeTwoEntity target source).entity j).coreferId = (st.entity j).coreferId ∧
      ((st.mergeTwoEntity target source).entity j).realEntity = (st.entity j).realEntity ∧
      ((st.mergeTwoEntity target source).entity j).hypotheticalFlag =
        (st.entity j).hypotheticalFlag := by
  obtain ⟨hentity, -, -⟩ := foldl_moveMention target (st.mentions source) st
  simp only [mergeTwoEntity, setEntity_entity, hentity]
  by_cases hs : j = source
  · by_cases ht : source = target <;> simp [hs, ht]
  · rw [if_neg hs]
    by_cases ht : j = target <;> simp [ht]

/-- There is nothing to merge, or the source is not the target, the target has room, and the
source has first mentions of tags only. -/
def MergeOk (st : EntityManager) (target source : Nat) : Prop :=
  st.mentions source = [] ∨
    target ≠ source ∧
      (st.mentions target).length + (st.mentions source).length ≤ MENTIONED_MAX ∧
      ∀ m ∈ st.mentions source, m.2 = 0 ∧ st.IsText m

theorem Linked.mergeOk (h : Linked st) {target source : Nat} (hm : Merged st target source st')
    (h' : Linked st') : MergeOk st target source := by
  by_cases hempty : st.mentions source = []
  · exact Or.inl hempty
  have hne : target ≠ source := by
    rintro rfl
    -- the list is lost
    obtain ⟨m, hmem⟩ := List.exists_mem_of_ne_nil _ hempty
    obtain ⟨k, hk⟩ : ∃ k, st'.link m = some k := by
      rw [hm.link_eq, h.link_eq target m hmem]
      split <;> exact ⟨_, rfl⟩
    obtain ⟨j, hj⟩ := h'.kept m k hk
    rw [hm.mentions_eq] at hj
    split at hj
    · simp at hj
    · next hjt =>
        exact hjt (Option.some_inj.mp ((h.link_eq j m hj).symm.trans (h.link_eq target m hmem)))
  have htarget : st'.mentions target = st.mentions target ++ st.mentions source := by
    rw [hm.mentions_eq, if_neg hne, if_pos rfl]
  refine Or.inr ⟨hne, ?_, ?_⟩
  · rw [← List.length_append, ← htarget]
    exact h'.length_le target
  · have hzero : ∀ m ∈ st.mentions source, st.Repointed (st.mentions source) m := by
      intro m hmem
      have hlink := h'.link_eq target m (htarget ▸ List.mem_append_right _ hmem)
      rw [hm.link_eq] at hlink
      by_contra hnot
      rw [if_neg hnot, h.link_eq source m hmem] at hlink
      exact hne (Option.some_inj.mp hlink).symm
    intro m hmem
    obtain ⟨m', hmem', rfl, htext⟩ := hzero m hmem
    obtain ⟨m'', -, rfl, -⟩ := hzero m' hmem'
    exact ⟨rfl, htext⟩

theorem Linked.merged (h : Linked st) {target source : Nat} (hm : Merged st target source st')
    (hok : MergeOk st target source) : Linked st' := by
  rcases hok with hempty | ⟨hne, hroom, htext⟩
  · refine h.congr (fun k => ?_) (funext fun x => ?_)
    · rw [hm.mentions_eq, hempty, List.append_nil]
      split
      · next heq => rw [heq, hempty]
      · split
        · next heq => rw [heq]
        · rfl
    · rw [hm.link_eq, hempty]
      simp [Repointed]
  have hrep : ∀ x, st.Repointed (st.mentions source) x ↔ x ∈ st.mentions source := by
    intro x
    constructor
    · rintro ⟨m, hmem, rfl, -⟩
      obtain ⟨hzero, -⟩ := htext m hmem
      rwa [← hzero]
    · intro hx
      obtain ⟨hzero, ht⟩ := htext x hx
      exact ⟨x, hx, by rw [← hzero], ht⟩
  have hlink : ∀ x, st'.link x = if x ∈ st.mentions source then some target else st.link x := by
    simpa only [hrep] using hm.link_eq
  refine ⟨fun k x hx => ?_, fun x k hx => ?_, fun k => ?_⟩
  · rw [hm.mentions_eq] at hx
    rw [hlink]
    by_cases hs : k = source
    · simp [hs] at hx
    rw [if_neg hs] at hx
    by_cases ht : k = target
    · rw [if_pos ht] at hx
      by_cases hmem : x ∈ st.mentions source
      · rw [if_pos hmem, ht]
      · rw [if_neg hmem, ht]
        exact h.link_eq target x ((List.mem_append.mp hx).resolve_right hmem)
    · rw [if_neg ht] at hx
      have hmem : x ∉ st.mentions source := fun hmem =>
        hs (Option.some_inj.mp ((h.link_eq k x hx).symm.trans (h.link_eq source x hmem)))
      rw [if_neg hmem, h.link_eq k x hx]
  · rw [hlink] at hx
    have htarget : st'.mentions target = st.mentions target ++ st.mentions source := by
      rw [hm.mentions_eq, if_neg hne, if_pos rfl]
    by_cases hmem : x ∈ st.mentions source
    · exact ⟨target, htarget ▸ List.mem_append_right _ hmem⟩
    · rw [if_neg hmem] at hx
      have hold := h.mem hx
      have hs : k ≠ source := fun hs => hmem (hs ▸ hold)
      by_cases ht : k = target
      · exact ⟨target, htarget ▸ List.mem_append_left _ (ht ▸ hold)⟩
      · exact ⟨k, by rw [hm.mentions_eq, if_neg hs, if_neg ht]; exact hold⟩
  · rw [hm.mentions_eq]
    split
    · exact Nat.zero_le _
    · split
      · rwa [List.length_append]
      · exact h.length_le k

theorem merged_linked_iff (h : Linked st) {target source : Nat} (hm : Merged st target source st') :
    Linked st' ↔ MergeOk st target source :=
  ⟨h.mergeOk hm, h.merged hm⟩

end EntityManager

end Knp
