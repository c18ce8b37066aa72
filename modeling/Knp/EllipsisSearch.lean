import Knp.Ellipsis

/-!
# The completions that zero anaphora scores

`completions` lists the completions of a branch. The search scores them one after the
other, each call leaving the entries of its branch and the marks as they were; and the
list has each completion once.

> `ellipsis_analysis` scores every completion once and nothing else, and restores the
> marks, if and only if for every completion the marks of its slots are set within the
> array.
-/

namespace Knp

variable (env : EllipsisEnv) (cf : CaseFrame)

/-- The entity `k` may fill a slot when the branch is `b`. -/
def MayFill (b : Completion) (k : Nat) : Prop :=
  passes env k = true ∧ k ∉ blockedEntities env (b.map Prod.snd)

instance (b : Completion) (k : Nat) : Decidable (MayFill env b k) :=
  inferInstanceAs (Decidable (_ ∧ _))

/-- The entities that are tried for a case, each with its slot. -/
def fillings (pp : Nat → Int) (c : EllipsisCase) (i : Nat) (b : Completion) : List (Nat × Nat) :=
  match firstSlot env cf pp c i with
  | none => []
  | some e =>
    if filledElement cf (b.map Prod.fst) e then []
    else ((List.range env.num).filter fun k => MayFill env b k).map fun k => (e, k)

/-- The completions of a branch, in the order in which they are scored. -/
def completions (pp : Nat → Int) : List EllipsisCase → Nat → Completion → List Completion
  | [], _, b => [b]
  | c :: cs, i, b =>
    ((fillings env cf pp c i b).flatMap fun p => completions pp cs (i + 1) (b ++ [p])) ++
      completions pp cs (i + 1) b

variable {env cf} {pp : Nat → Int} {c : EllipsisCase} {cs : List EllipsisCase} {i r : Nat}
variable {b b' : Completion} {st st' st'' : EllipsisState}

theorem mem_fillings {e k : Nat} : (e, k) ∈ fillings env cf pp c i b ↔
    firstSlot env cf pp c i = some e ∧ filledElement cf (b.map Prod.fst) e = false ∧
      k < env.num ∧ MayFill env b k := by
  unfold fillings
  cases hslot : firstSlot env cf pp c i with
  | none => simp
  | some e' =>
    dsimp only
    by_cases hfilled : filledElement cf (b.map Prod.fst) e' = true
    · simp only [hfilled, if_true, List.not_mem_nil, Option.some_inj, false_iff]
      rintro ⟨rfl, hfree, -⟩
      exact absurd hfilled (by simp [hfree])
    · rw [if_neg hfilled]
      simp only [List.mem_map, List.mem_filter, List.mem_range, decide_eq_true_eq, Prod.mk.injEq,
        Option.some_inj]
      constructor
      · rintro ⟨k', ⟨hk, hmay⟩, rfl, rfl⟩
        exact ⟨rfl, Bool.eq_false_of_not_eq_true hfilled, hk, hmay⟩
      · rintro ⟨rfl, -, hk, hmay⟩
        exact ⟨k, ⟨hk, hmay⟩, rfl, rfl⟩

theorem mem_completions : b' ∈ completions env cf pp cs i b ↔ Completes env cf pp cs i b b' := by
  induction cs generalizing i b with
  | nil =>
    rw [completions, List.mem_singleton]
    constructor
    · rintro rfl
      exact Completes.done i b'
    · intro h
      cases h
      rfl
  | cons c cs ih =>
    rw [completions, List.mem_append, List.mem_flatMap]
    constructor
    · rintro (⟨⟨e, k⟩, hmem, hrest⟩ | hrest)
      · obtain ⟨hslot, hfree, hk, hpass, hblock⟩ := mem_fillings.mp hmem
        exact Completes.give e k hslot hfree hk hpass hblock (ih.mp hrest)
      · exact Completes.leave c (ih.mp hrest)
    · intro h
      cases h with
      | leave _ hrest => exact Or.inr (ih.mpr hrest)
      | give e k hslot hfree hk hpass hblock hrest =>
        exact Or.inl ⟨(e, k), mem_fillings.mpr ⟨hslot, hfree, hk, hpass, hblock⟩, ih.mpr hrest⟩

/-- All cases may be left. -/
theorem mem_completions_self : b ∈ completions env cf pp cs i b := by
  induction cs generalizing i with
  | nil => exact List.mem_singleton_self b
  | cons c cs ih => exact List.mem_append_right _ ih

/-! ## Each completion once -/

/-- The slots of the cases from the `i`th on. -/
def LaterSlot (env : EllipsisEnv) (cf : CaseFrame) (pp : Nat → Int) (cs : List EllipsisCase) (i e : Nat) :
    Prop :=
  ∃ j c, cs[j]? = some c ∧ firstSlot env cf pp c (i + j) = some e

theorem laterSlot_cons {e : Nat} : LaterSlot env cf pp (c :: cs) i e ↔
    firstSlot env cf pp c i = some e ∨ LaterSlot env cf pp cs (i + 1) e := by
  constructor
  · rintro ⟨j, c', hc, hslot⟩
    cases j with
    | zero =>
      obtain rfl : c = c' := by simpa using hc
      exact Or.inl hslot
    | succ j => exact Or.inr ⟨j, c', by simpa using hc, by rwa [Nat.add_assoc, Nat.add_comm 1]⟩
  · rintro (hslot | ⟨j, c', hc, hslot⟩)
    · exact ⟨0, c, rfl, hslot⟩
    · exact ⟨j + 1, c', by simpa using hc, by rwa [Nat.add_assoc, Nat.add_comm 1] at hslot⟩

/-- A completion begins with the branch, and what is added are slots of the cases. -/
theorem exists_eq_append (h : b' ∈ completions env cf pp cs i b) :
    ∃ added, b' = b ++ added ∧ ∀ p ∈ added, LaterSlot env cf pp cs i p.1 := by
  induction cs generalizing i b with
  | nil => exact ⟨[], by simpa [completions] using h, by simp⟩
  | cons c cs ih =>
    rw [completions, List.mem_append, List.mem_flatMap] at h
    rcases h with ⟨⟨e, k⟩, hmem, hrest⟩ | hrest
    · obtain ⟨added, rfl, hadded⟩ := ih hrest
      refine ⟨(e, k) :: added, by simp, fun p hp => laterSlot_cons.mpr ?_⟩
      rcases List.mem_cons.mp hp with rfl | hp
      · exact Or.inl (mem_fillings.mp hmem).1
      · exact Or.inr (hadded p hp)
    · obtain ⟨added, rfl, hadded⟩ := ih hrest
      exact ⟨added, rfl, fun p hp => laterSlot_cons.mpr (Or.inr (hadded p hp))⟩

/-- No two of the cases have the same first slot. -/
def SlotsApart (env : EllipsisEnv) (cf : CaseFrame) (pp : Nat → Int) :
    List EllipsisCase → Nat → Prop
  | [], _ => True
  | c :: cs, i => (∀ e, firstSlot env cf pp c i = some e → ¬LaterSlot env cf pp cs (i + 1) e) ∧
      SlotsApart env cf pp cs (i + 1)

theorem firstSlot_noun (hnoun : env.cfType = .noun) {e : Nat}
    (h : firstSlot env cf pp c i = some e) : e = i := by
  have htest := List.find?_some h
  simp only [hnoun, Bool.and_eq_true, decide_eq_true_eq] at htest
  exact htest.1

theorem firstSlot_pred (hpred : env.cfType = .pred) {e : Nat}
    (h : firstSlot env cf pp c i = some e) : pp e = c.code := by
  have htest := List.find?_some h
  simpa only [hpred, decide_eq_true_eq] using htest

theorem slotsApart_noun (hnoun : env.cfType = .noun) (cs : List EllipsisCase) (i : Nat) :
    SlotsApart env cf pp cs i := by
  induction cs generalizing i with
  | nil => trivial
  | cons c cs ih =>
    refine ⟨fun e he ⟨j, c', _, hslot⟩ => ?_, ih (i + 1)⟩
    have h₁ := firstSlot_noun hnoun he
    have h₂ := firstSlot_noun hnoun hslot
    omega

theorem slotsApart_pred (hpred : env.cfType = .pred) (hcodes : (cs.map EllipsisCase.code).Nodup)
    (i : Nat) : SlotsApart env cf pp cs i := by
  induction cs generalizing i with
  | nil => trivial
  | cons c cs ih =>
    obtain ⟨hnew, hrest⟩ := List.nodup_cons.mp hcodes
    refine ⟨fun e he ⟨j, c', hc, hslot⟩ => hnew ?_, ih hrest (i + 1)⟩
    rw [← firstSlot_pred hpred he, firstSlot_pred hpred hslot]
    exact List.mem_map_of_mem (List.mem_of_getElem? hc)

theorem slotsApart_caseList (env : EllipsisEnv) (cf : CaseFrame) (pp : Nat → Int) :
    SlotsApart env cf pp (ellipsisCaseList env.cfType) 0 := by
  cases htype : env.cfType with
  | pred => exact slotsApart_pred htype (by decide) 0
  | noun => exact slotsApart_noun htype _ 0

theorem nodup_fillings : (fillings env cf pp c i b).Nodup := by
  unfold fillings
  split
  · exact List.nodup_nil
  · split
    · exact List.nodup_nil
    · exact (List.nodup_range.filter _).map fun k k' h => (Prod.mk.inj h).2

theorem nodup_completions (hapart : SlotsApart env cf pp cs i) (b : Completion) :
    (completions env cf pp cs i b).Nodup := by
  induction cs generalizing i b with
  | nil => exact List.nodup_singleton b
  | cons c cs ih =>
    obtain ⟨hslot, hrest⟩ := hapart
    -- what is added first tells the completions apart
    have hhead : ∀ p, ∀ x ∈ completions env cf pp cs (i + 1) (b ++ [p]), x[b.length]? = some p := by
      intro p x hx
      obtain ⟨added, rfl, -⟩ := exists_eq_append hx
      simp
    rw [completions, List.nodup_append]
    refine ⟨?_, ih hrest b, ?_⟩
    · rw [List.nodup_flatMap]
      refine ⟨fun p _ => ih hrest (b ++ [p]), nodup_fillings.imp fun {p q} hne x hxp hxq => hne ?_⟩
      exact Option.some_inj.mp ((hhead p x hxp).symm.trans (hhead q x hxq))
    · rintro x hx y hy rfl
      obtain ⟨⟨e, k⟩, hmem, hxp⟩ := List.mem_flatMap.mp hx
      obtain ⟨added, rfl, hadded⟩ := exists_eq_append hy
      have hfirst := hhead (e, k) _ hxp
      rw [List.getElem?_append_right le_rfl, Nat.sub_self] at hfirst
      exact hslot e (mem_fillings.mp hmem).1 (hadded (e, k) (List.mem_of_getElem? hfirst))

/-! ## Slots and entities -/

theorem mem_blockedEntities {entities : List Nat} {k : Nat} (h : k ∈ entities) :
    k ∈ blockedEntities env entities := by
  obtain ⟨j, hj, rfl⟩ := List.getElem_of_mem h
  have hzip : (entities[j], j) ∈ entities.zipIdx := by
    rw [List.mem_zipIdx_iff_getElem?]
    exact List.getElem?_eq_getElem hj
  simp only [blockedEntities, List.mem_append, List.mem_flatMap]
  exact Or.inl (Or.inl (Or.inl ⟨_, hzip, List.mem_cons_self⟩))

theorem not_mem_of_free {slots : List Nat} {e : Nat} (h : filledElement cf slots e = false) :
    e ∉ slots := fun hmem =>
  absurd ((filledElement_iff.mpr (Or.inl hmem)).symm.trans h) (by simp)

/-- The slots of a completion are distinct. -/
theorem Completes.nodup_slots (h : Completes env cf pp cs i b b') (hb : (b.map Prod.fst).Nodup) :
    (b'.map Prod.fst).Nodup := by
  induction h with
  | done i b => exact hb
  | leave c _ ih => exact ih hb
  | give e k hslot hfree hk hpass hblock _ ih =>
    refine ih ?_
    rw [List.map_append]
    refine List.nodup_append.mpr ⟨hb, List.nodup_singleton e, fun x hx y hy heq => ?_⟩
    obtain rfl : y = e := List.mem_singleton.mp hy
    exact not_mem_of_free hfree (heq ▸ hx)

/-- The entities that are added are distinct, and not those of the branch. -/
theorem Completes.nodup_entities (h : Completes env cf pp cs i b b') :
    ∃ added, b' = b ++ added ∧ (added.map Prod.snd).Nodup ∧
      ∀ p ∈ added, p.2 ∉ b.map Prod.snd := by
  induction h with
  | done i b => exact ⟨[], by simp, List.nodup_nil, by simp⟩
  | leave c _ ih => exact ih
  | give e k hslot hfree hk hpass hblock _ ih =>
    obtain ⟨added, rfl, hnodup, hnew⟩ := ih
    refine ⟨(e, k) :: added, by simp, ?_, fun p hp => ?_⟩
    · rw [List.map_cons, List.nodup_cons]
      refine ⟨fun hmem => ?_, hnodup⟩
      obtain ⟨p, hp, hpk⟩ := List.mem_map.mp hmem
      exact hnew p hp (by simp [hpk])
    · rcases List.mem_cons.mp hp with rfl | hp
      · exact fun hmem => hblock (mem_blockedEntities hmem)
      · exact fun hmem => hnew p hp (by simp [List.mem_append, hmem])

/-! ## The search -/

/-- The entries of the branch and the marks are those before, and the frame is the same. -/
structure SameBranch (env : EllipsisEnv) (r : Nat) (st st' : EllipsisState) : Prop where
  entry_eq : ∀ j < r, st'.cfElementNum j = st.cfElementNum j ∧ st'.entityNum j = st.entityNum j
  filledElement_eq : st'.filledElement = st.filledElement
  filledEntity_eq : st'.filledEntity = st.filledEntity
  pp_eq : env.cfType = .pred → st'.pp = st.pp

/-- A call returns with the completions `l` scored. -/
structure Returns (env : EllipsisEnv) (r : Nat) (st st' : EllipsisState) (l : List Completion) : Prop
    extends SameBranch env r st st' where
  scored_eq : st'.scored = st.scored ++ l

theorem SameBranch.refl (env : EllipsisEnv) (r : Nat) (st : EllipsisState) :
    SameBranch env r st st :=
  ⟨fun _ _ => ⟨rfl, rfl⟩, rfl, rfl, fun _ => rfl⟩

theorem SameBranch.trans (h : SameBranch env r st st') (h' : SameBranch env r st' st'') :
    SameBranch env r st st'' where
  entry_eq j hj := ⟨(h'.entry_eq j hj).1.trans (h.entry_eq j hj).1,
    (h'.entry_eq j hj).2.trans (h.entry_eq j hj).2⟩
  filledElement_eq := h'.filledElement_eq.trans h.filledElement_eq
  filledEntity_eq := h'.filledEntity_eq.trans h.filledEntity_eq
  pp_eq hpred := (h'.pp_eq hpred).trans (h.pp_eq hpred)

theorem SameBranch.branch_eq (h : SameBranch env r st st') : st'.branch r = st.branch r := by
  refine List.map_congr_left fun j hj => ?_
  obtain ⟨h₁, h₂⟩ := h.entry_eq j (List.mem_range.mp hj)
  rw [h₁, h₂]

/-- What comes of scoring the completions `l`: nothing, if the marks of one are out of range. -/
def Outcome (env : EllipsisEnv) (cf : CaseFrame) (r : Nat) (st : EllipsisState)
    (l : List Completion) : Option EllipsisState → Prop
  | some st' => (∀ b ∈ l, MarksInRange cf (b.map Prod.fst)) ∧ Returns env r st st' l
  | none => ∃ b ∈ l, ¬MarksInRange cf (b.map Prod.fst)

theorem Outcome.bind {l l' : List Completion} {o : Option EllipsisState}
    {f : EllipsisState → Option EllipsisState} (h : Outcome env cf r st l o)
    (hf : ∀ st', SameBranch env r st st' → Outcome env cf r st' l' (f st')) :
    Outcome env cf r st (l ++ l') (o >>= f) := by
  cases o with
  | none =>
    obtain ⟨b, hb, hout⟩ := h
    exact ⟨b, List.mem_append_left l' hb, hout⟩
  | some st' =>
    obtain ⟨hin, hret⟩ := h
    have hrest := hf st' hret.toSameBranch
    rw [Option.bind_eq_bind, Option.bind_some]
    cases hf' : f st' with
    | none =>
      rw [hf'] at hrest
      obtain ⟨b, hb, hout⟩ := hrest
      exact ⟨b, List.mem_append_right l hb, hout⟩
    | some st'' =>
      rw [hf'] at hrest
      obtain ⟨hin', hret'⟩ := hrest
      refine ⟨fun b hb => (List.mem_append.mp hb).elim (hin b) (hin' b),
        hret.toSameBranch.trans hret'.toSameBranch, ?_⟩
      rw [hret'.scored_eq, hret.scored_eq, List.append_assoc]

/-- A loop over the entities. -/
theorem Outcome.foldlM {f : EllipsisState → Nat → Option EllipsisState} {g : Nat → List Completion}
    (ks : List Nat) (hf : ∀ k st', SameBranch env r st st' → Outcome env cf r st' (g k) (f st' k))
    (hst : SameBranch env r st st') : Outcome env cf r st' (ks.flatMap g) (ks.foldlM f st') := by
  induction ks generalizing st' with
  | nil => exact ⟨by simp, SameBranch.refl env r st', (List.append_nil _).symm⟩
  | cons k ks ih =>
    rw [List.flatMap_cons, List.foldlM_cons]
    exact (hf k st' hst).bind fun st'' h => ih (hst.trans h)

theorem give_branch (e k r : Nat) (st : EllipsisState) :
    (give e k r st).branch (r + 1) = st.branch r ++ [(e, k)] := by
  rw [EllipsisState.branch, List.range_succ, List.map_append]
  refine congrArg₂ (· ++ ·) (List.map_congr_left fun j hj => ?_) (by simp [give])
  have hne : j ≠ r := (List.mem_range.mp hj).ne
  simp [give, Function.update_of_ne hne]

/-- The call for a case that is filled. -/
theorem Outcome.give {e k : Nat} {l : List Completion} {o : Option EllipsisState}
    (h : Outcome env cf (r + 1) (Knp.give e k r st) l o) : Outcome env cf r st l o := by
  cases o with
  | none => exact h
  | some st' =>
    obtain ⟨hin, hret⟩ := h
    refine ⟨hin, ⟨fun j hj => ?_, hret.filledElement_eq, hret.filledEntity_eq, hret.pp_eq⟩,
      hret.scored_eq⟩
    obtain ⟨h₁, h₂⟩ := hret.entry_eq j (by omega)
    have hne : j ≠ r := by omega
    exact ⟨h₁.trans (Function.update_of_ne hne _ _), h₂.trans (Function.update_of_ne hne _ _)⟩

theorem firstSlot_congr (cf : CaseFrame) {pp' : Nat → Int} (h : env.cfType = .pred → pp' = pp)
    (c : EllipsisCase) (i : Nat) : firstSlot env cf pp' c i = firstSlot env cf pp c i := by
  cases htype : env.cfType with
  | pred => rw [h htype]
  | noun => simp [firstSlot, htype]

theorem flatMap_filter {α β : Type*} (p : α → Bool) (f : α → List β) (l : List α) :
    (l.filter p).flatMap f = l.flatMap fun x => if p x then f x else [] := by
  induction l with
  | nil => rfl
  | cons x l ih =>
    rw [List.filter_cons, List.flatMap_cons, ← ih]
    split <;> simp [*]

/-- The completions in which a case is filled, one entity after the other. -/
theorem flatMap_fillings {e : Nat} (hslot : firstSlot env cf pp c i = some e)
    (hfree : filledElement cf (b.map Prod.fst) e = false) (f : Nat × Nat → List Completion) :
    (fillings env cf pp c i b).flatMap f =
      (List.range env.num).flatMap fun k => if MayFill env b k then f (e, k) else [] := by
  simp only [fillings, hslot, hfree, Bool.false_eq_true, if_false, List.flatMap_map,
    flatMap_filter, decide_eq_true_eq]

/-- A call restores the marks at the end. -/
theorem Outcome.restore {l : List Completion} {o : Option EllipsisState}
    (h : Outcome env cf r (setMarks env cf r st) l o) :
    Outcome env cf r st l (o >>= fun st' => some (Knp.restore st st')) := by
  cases o with
  | none => exact h
  | some st' =>
    obtain ⟨hin, hret⟩ := h
    exact ⟨hin, ⟨hret.entry_eq, rfl, rfl, hret.pp_eq⟩, hret.scored_eq⟩

/-- The renamed slots of a noun's frame are none that matters. -/
theorem Outcome.named {l : List Completion} {o : Option EllipsisState} (slot : Option Nat)
    (h : Outcome env cf r { st with pp := renameSlots env cf slot st.pp } l o) :
    Outcome env cf r st l o := by
  cases o with
  | none => exact h
  | some st' =>
    obtain ⟨hin, hret⟩ := h
    refine ⟨hin, ⟨hret.entry_eq, hret.filledElement_eq, hret.filledEntity_eq, fun hpred => ?_⟩,
      hret.scored_eq⟩
    refine (hret.pp_eq hpred).trans (funext fun e => ?_)
    simp [renameSlots, hpred]

theorem fillings_of_none (h : firstSlot env cf pp c i = none) (b : Completion) :
    fillings env cf pp c i b = [] := by
  simp [fillings, h]

theorem fillings_of_filled {e : Nat} (h : firstSlot env cf pp c i = some e)
    (hfilled : filledElement cf (b.map Prod.fst) e = true) : fillings env cf pp c i b = [] := by
  simp [fillings, h, hfilled]

/-- An entity is tried just if it may fill the slot. -/
theorem tryEntity_outcome {next : Nat → EllipsisState → Option EllipsisState} {e k : Nat}
    {l : List Completion} (hmarks : st'.filledEntity = (setMarks env cf r st).filledEntity)
    (hnext : Outcome env cf (r + 1) (give e k r st') l (next (r + 1) (give e k r st'))) :
    Outcome env cf r st' (if MayFill env (st.branch r) k then l else [])
      (tryEntity env next e r st' k) := by
  have hblocked : st'.filledEntity k = true ↔
      k ∈ blockedEntities env ((st.branch r).map Prod.snd) := by
    rw [hmarks]
    exact List.contains_iff_mem
  by_cases hmay : MayFill env (st.branch r) k
  · obtain ⟨hpass, hfree⟩ := hmay
    have hunmarked : st'.filledEntity k = false :=
      Bool.eq_false_of_not_eq_true fun h => hfree (hblocked.mp h)
    rw [if_pos ⟨hpass, hfree⟩, tryEntity, if_pos (by simp [hpass, hunmarked])]
    exact hnext.give
  · have hnot : ¬(passes env k && !st'.filledEntity k) = true := by
      intro h
      rw [Bool.and_eq_true, Bool.not_eq_true'] at h
      exact hmay ⟨h.1, fun hmem => by simp [hblocked.mpr hmem] at h⟩
    rw [if_neg hmay, tryEntity, if_neg hnot]
    exact ⟨by simp, SameBranch.refl env r st', (List.append_nil _).symm⟩

/-- A case, when the calls for the next one score the completions of the longer branches. -/
theorem fillCase_outcome {next : Nat → EllipsisState → Option EllipsisState}
    (hnext : ∀ r st, (env.cfType = .pred → st.pp = pp) →
      Outcome env cf r st (completions env cf pp cs (i + 1) (st.branch r)) (next r st))
    (hpp : env.cfType = .pred → st.pp = pp) (c : EllipsisCase) :
    Outcome env cf r (setMarks env cf r st) (completions env cf pp (c :: cs) i (st.branch r))
      (fillCase env cf next c i r (setMarks env cf r st)) := by
  refine Outcome.named (firstSlot env cf st.pp c i) ?_
  set named : EllipsisState := { setMarks env cf r st with
    pp := renameSlots env cf (firstSlot env cf st.pp c i) (setMarks env cf r st).pp } with hnamed
  have hpp' : env.cfType = .pred → named.pp = pp := fun hpred => by
    rw [← hpp hpred]
    exact funext fun e => by simp [hnamed, renameSlots, hpred, setMarks]
  have hleave : ∀ st', SameBranch env r named st' →
      Outcome env cf r st' (completions env cf pp cs (i + 1) (st.branch r)) (next r st') := by
    intro st' hsame
    have hbranch : st'.branch r = st.branch r := hsame.branch_eq
    rw [← hbranch]
    exact hnext r st' fun hpred => (hsame.pp_eq hpred).trans (hpp' hpred)
  have hslot := firstSlot_congr cf hpp c i
  rw [completions]
  cases hfirst : firstSlot env cf st.pp c i with
  | none =>
    have hcase : fillCase env cf next c i r (setMarks env cf r st) = next r named := by
      rw [hnamed]
      simp [fillCase, setMarks, hfirst]
    rw [fillings_of_none (hslot.symm.trans hfirst), List.flatMap_nil, List.nil_append, hcase]
    exact hleave named (SameBranch.refl env r named)
  | some e =>
    by_cases hfilled : filledElement cf ((st.branch r).map Prod.fst) e = true
    · have hcase : fillCase env cf next c i r (setMarks env cf r st) = next r named := by
        rw [hnamed]
        simp [fillCase, setMarks, hfirst, hfilled]
      rw [fillings_of_filled (hslot.symm.trans hfirst) hfilled, List.flatMap_nil, List.nil_append,
        hcase]
      exact hleave named (SameBranch.refl env r named)
    · have hcase : fillCase env cf next c i r (setMarks env cf r st) =
          ((List.range env.num).foldlM (tryEntity env next e r) named >>= next r) := by
        rw [hnamed]
        simp [fillCase, setMarks, hfirst, hfilled]
      rw [flatMap_fillings (hslot.symm.trans hfirst) (Bool.eq_false_of_not_eq_true hfilled), hcase]
      refine Outcome.bind (Outcome.foldlM _ (fun k st' hsame => ?_) (SameBranch.refl env r named))
        hleave
      refine tryEntity_outcome hsame.filledEntity_eq ?_
      have hbranch : (give e k r st').branch (r + 1) = st.branch r ++ [(e, k)] := by
        rw [give_branch]
        exact congrArg (· ++ [(e, k)]) hsame.branch_eq
      rw [← hbranch]
      exact hnext (r + 1) (give e k r st') fun hpred => (hsame.pp_eq hpred).trans (hpp' hpred)

theorem ellipsisAnalysis_eq_none (hrange : ¬MarksInRange cf ((st.branch r).map Prod.fst))
    (cs : List EllipsisCase) (i : Nat) : ellipsisAnalysis env cf cs i r st = none := by
  cases cs <;> simp [ellipsisAnalysis, markBranch, hrange]

/-- The search scores the completions of its branch, or has no result. -/
theorem ellipsisAnalysis_outcome (cs : List EllipsisCase) (i r : Nat) (st : EllipsisState)
    (hpp : env.cfType = .pred → st.pp = pp) :
    Outcome env cf r st (completions env cf pp cs i (st.branch r))
      (ellipsisAnalysis env cf cs i r st) := by
  induction cs generalizing i r st with
  | nil =>
    by_cases hrange : MarksInRange cf ((st.branch r).map Prod.fst)
    · rw [ellipsisAnalysis, markBranch, if_pos hrange]
      refine ⟨fun b hb => ?_, ⟨fun _ _ => ⟨rfl, rfl⟩, rfl, rfl, fun _ => rfl⟩, rfl⟩
      rw [List.mem_singleton.mp hb]
      exact hrange
    · rw [ellipsisAnalysis_eq_none hrange]
      exact ⟨st.branch r, mem_completions_self, hrange⟩
  | cons c cs ih =>
    by_cases hrange : MarksInRange cf ((st.branch r).map Prod.fst)
    · rw [ellipsisAnalysis, markBranch, if_pos hrange]
      exact (fillCase_outcome (fun r st hst => ih (i + 1) r st hst) hpp c).restore
    · rw [ellipsisAnalysis_eq_none hrange]
      exact ⟨st.branch r, mem_completions_self, hrange⟩

/-- From the result of the case analysis the search scores each completion once and nothing else,
with distinct slots and distinct entities added, and returns with the marks as they were. -/
def CompletesExactly (env : EllipsisEnv) (cf : CaseFrame) (st : EllipsisState) : Prop :=
  ∃ st' l, ellipsisAnalysis env cf (ellipsisCaseList env.cfType) 0 env.caseResultNum st = some st' ∧
    st'.scored = st.scored ++ l ∧ l.Nodup ∧
    (∀ b, b ∈ l ↔ Completes env cf st.pp (ellipsisCaseList env.cfType) 0
      (st.branch env.caseResultNum) b) ∧
    (∀ b ∈ l, (b.map Prod.fst).Nodup ∧
      ∃ added, b = st.branch env.caseResultNum ++ added ∧ (added.map Prod.snd).Nodup) ∧
    st'.filledElement = st.filledElement ∧ st'.filledEntity = st.filledEntity

/-- The search is exact just if no mark of a completion is out of the array. -/
theorem ellipsisAnalysis_iff (env : EllipsisEnv) (cf : CaseFrame) (st : EllipsisState)
    (hslots : ((st.branch env.caseResultNum).map Prod.fst).Nodup) :
    CompletesExactly env cf st ↔
      ∀ b, Completes env cf st.pp (ellipsisCaseList env.cfType) 0 (st.branch env.caseResultNum) b →
        MarksInRange cf (b.map Prod.fst) := by
  have hout : Outcome env cf env.caseResultNum st _
      (ellipsisAnalysis env cf (ellipsisCaseList env.cfType) 0 env.caseResultNum st) :=
    ellipsisAnalysis_outcome (ellipsisCaseList env.cfType) 0 env.caseResultNum st fun _ => rfl
  constructor
  · rintro ⟨st', l, heq, -⟩ b hb
    rw [heq] at hout
    exact hout.1 b (mem_completions.mpr hb)
  · intro hrange
    cases heq : ellipsisAnalysis env cf (ellipsisCaseList env.cfType) 0 env.caseResultNum st with
    | none =>
      rw [heq] at hout
      obtain ⟨b, hb, hb'⟩ := hout
      exact absurd (hrange b (mem_completions.mp hb)) hb'
    | some st' =>
      rw [heq] at hout
      obtain ⟨-, hret⟩ := hout
      refine ⟨st', _, heq, hret.scored_eq, nodup_completions (slotsApart_caseList env cf st.pp) _,
        fun b => mem_completions, fun b hb => ?_, hret.filledElement_eq, hret.filledEntity_eq⟩
      have hcomplete := mem_completions.mp hb
      obtain ⟨added, hadded, hnodup, -⟩ := hcomplete.nodup_entities
      exact ⟨hcomplete.nodup_slots hslots, added, hadded, hnodup⟩

/-- An entity of the text that may fill a slot, with the number `k`. -/
def plainEntity (k : Nat) : AnaEntity := ⟨k, 0, true, false, 0, true, ⟨[], 0, false, []⟩⟩

/-- A predicate with the entity 2, among `n` entities, and `r` results of the case analysis. -/
def plainPred (n r : Nat) : EllipsisEnv where
  cfType := .pred
  analyzeTag := .pred
  sentNum := 1
  entityNum := 2
  paraNormal := false
  parent := none
  unnamedEntity := true
  num := n
  entity := plainEntity
  caseResultNum := r
  elemB _ := ⟨[], 0, false, []⟩

/-- The slots ガ and ヲ; the entries say that ヲ is filled by the entity 0. -/
def gaWoEntries : EllipsisState where
  pp e := (e : Int) + 1
  filledElement _ := false
  filledEntity _ := false
  cfElementNum _ := 1
  entityNum _ := 0
  type _ := 'C'
  resultNum := 1
  scored := []

/-- The slots ガ and ヲ with the similar cases `pairs`. -/
def gaWoWith (pairs : List (Int × Int)) : CaseFrame where
  elementNum := 2
  adjacent _ := false
  pp e := [(e : Int) + 1]
  sp _ := 0
  weight _ := 0
  samecase := pairs

theorem gaWo_completed : CompletesExactly (plainPred 3 1) (gaWoWith []) gaWoEntries := by
  refine (ellipsisAnalysis_iff (plainPred 3 1) (gaWoWith []) gaWoEntries (by decide)).mpr
    fun b hb => ?_
  have hall : ∀ b ∈ completions (plainPred 3 1) (gaWoWith []) gaWoEntries.pp
      (ellipsisCaseList .pred) 0 (gaWoEntries.branch 1), MarksInRange (gaWoWith []) (b.map Prod.fst) := by
    decide
  exact hall b (mem_completions.mpr hb)

/-- ガ and ノ are similar, with the codes 1 and 41, and ヲ is filled, the slot 1. -/
theorem gaNo_not_completed :
    ¬∀ (env : EllipsisEnv) (cf : CaseFrame) (st : EllipsisState),
      ((st.branch env.caseResultNum).map Prod.fst).Nodup → CompletesExactly env cf st := by
  intro h
  obtain ⟨st', l, heq, -⟩ := h (plainPred 3 1) (gaWoWith [(1, 41)]) gaWoEntries (by decide)
  have hrange : ¬MarksInRange (gaWoWith [(1, 41)])
      ((gaWoEntries.branch (plainPred 3 1).caseResultNum).map Prod.fst) := by decide
  rw [ellipsisAnalysis_eq_none hrange] at heq
  exact nomatch heq

end Knp
