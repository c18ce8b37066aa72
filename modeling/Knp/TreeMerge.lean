import Knp.ParaMask
import Knp.TreeConv

/-!
# Trees with merged bunsetsu

After `tag_bnst_postprocess` a head may have been merged into a preceding
bunsetsu. `make_simple_tree` then makes the modifier a child of the bunsetsu one
step before the head, whereas `get_correct_postprocessed_bnst_num` goes back to
the one that took the head in.

> Every modifier becomes a child of the bunsetsu that took in its head exactly
> if one step back is enough and no bunsetsu has more than 31 modifiers.
-/

namespace Knp

open TreeData

/-! ## The heads with coordination -/

section Heads

variable {env : TreeEnv} {d : TreeData} {i m : Nat}

/-- Bunsetsu `i` stands in a part of the manager and depends on its last end. -/
def coordinates (env : TreeEnv) (m i : Nat) : Bool :=
  let mgr := env.para.manager m
  (List.range mgr.last).any fun j => i = mgr.stop j ||
    (mgr.start j ≤ i && i ≤ mgr.stop j && env.mask i (mgr.stop j) = 3)

/-- The head of a bunsetsu, which is the last end of the last manager that
coordinates it. -/
def headOf (env : TreeEnv) (d : TreeData) (i : Nat) : Int :=
  match (List.range env.para.paraMNum).reverse.find? (coordinates env · i) with
  | some m => (env.para.manager m).stop (env.para.manager m).last
  | none => d.dpndHead i

theorem headBuffer_eq : headBuffer env d = headOf env d := by
  funext i
  unfold headBuffer headOf
  refine Loop.upTo_induction _ (fun n (buffer : Nat → Int) => buffer i =
    match (List.range n).reverse.find? (coordinates env · i) with
    | some m => ((env.para.manager m).stop (env.para.manager m).last : Int)
    | none => d.dpndHead i) (Nat.zero_le _) (fun m buffer _ _ hm => ?_) rfl
  rw [List.range_succ, List.reverse_append, List.reverse_singleton, List.singleton_append,
    List.find?_cons]
  generalize hmgr : env.para.manager m = mgr
  have hturn : Loop.upTo 0 mgr.last (fun j (buffer : Nat → Int) =>
      let buffer := Function.update buffer (mgr.stop j) (mgr.stop mgr.last : Int)
      fun k => if mgr.start j ≤ k ∧ k ≤ mgr.stop j ∧ env.mask k (mgr.stop j) = 3 then
        (mgr.stop mgr.last : Int) else buffer k) buffer i =
      if coordinates env m i then (mgr.stop mgr.last : Int) else buffer i := by
    unfold coordinates
    rw [hmgr]
    refine Loop.upTo_induction _ (fun n (b : Nat → Int) => b i =
      if (List.range n).any (fun j => i = mgr.stop j ||
        (mgr.start j ≤ i && i ≤ mgr.stop j && env.mask i (mgr.stop j) = 3)) then
        (mgr.stop mgr.last : Int) else buffer i) (Nat.zero_le _) (fun j b _ _ hj => ?_) rfl
    rw [List.range_succ, List.any_append, List.any_cons, List.any_nil, Bool.or_false]
    rw [Function.update_apply, hj]
    split_ifs <;> grind
  dsimp only at hturn ⊢
  rw [hturn, hm]
  cases coordinates env m i with
  | true => simp [hmgr]
  | false => simp

end Heads

/-! ## The merged sentence -/

section Merged

variable {n b : Nat} {merge : Nat → Bool} {d d₀ d' : TreeData} {i p : Nat}

/-- The bunsetsu numbered in their order, each but the last one with a head
behind it. -/
structure CompleteHeads (n : Nat) (d : TreeData) : Prop where
  num_eq : ∀ i < n, d.num i = i
  head_lt : ∀ i, i + 1 < n → i < d.dpndHead i ∧ d.dpndHead i < n
  last_head : ∀ i, i + 1 = n → d.dpndHead i = -1

/-- The bunsetsu below `b` have been merged. Each bunsetsu that is left has the
head of the last one it has taken in. -/
structure MergedTo (n : Nat) (merge : Nat → Bool) (d₀ : TreeData) (b : Nat) (d : TreeData) :
    Prop where
  num_eq : ∀ i < n, d.num i = if i < b ∧ merge i then -1 else (i : Int)
  head_eq : ∀ i < n, d.merged i = false → ∃ e, i ≤ e ∧ e < n ∧
    (∀ k, i < k → k ≤ e → d.merged k = true) ∧ d.dpndHead i = d₀.dpndHead e

theorem MergedTo.merged_iff (h : MergedTo n merge d₀ b d) (hi : i < n) :
    d.merged i = true ↔ i < b ∧ merge i = true := by
  rw [merged_eq_true_iff, h.num_eq i hi]
  split_ifs with hm
  · exact iff_of_true rfl hm
  · exact iff_of_false not_false hm

theorem CompleteHeads.mergedTo (h : CompleteHeads n d₀) : MergedTo n merge d₀ 0 d₀ where
  num_eq i hi := by
    rw [if_neg fun h0 => absurd h0.1 (Nat.not_lt_zero i)]
    exact h.num_eq i hi
  head_eq i hi _ := ⟨i, le_rfl, hi, fun k hk hki => absurd hk (Nat.not_lt_of_le hki), rfl⟩

/-- A search downwards from `n - 1`. -/
theorem find?_reverse_range_eq_some {n a : Nat} {p : Nat → Bool} :
    (List.range n).reverse.find? p = some a ↔
      a < n ∧ p a = true ∧ ∀ k, a < k → k < n → p k = false := by
  induction n with
  | zero => simp
  | succ n ih =>
      rw [List.range_succ, List.reverse_append, List.reverse_singleton, List.singleton_append,
        List.find?_cons]
      cases hn : p n with
      | true =>
          simp only [Option.some.injEq]
          refine ⟨fun h => h ▸ ⟨Nat.lt_succ_self n, hn, fun k hk hkn => by omega⟩, fun h => ?_⟩
          by_contra hne
          rw [h.2.2 n (by omega) (Nat.lt_succ_self n)] at hn
          cases hn
      | false =>
          simp only [ih]
          refine ⟨fun h => ⟨by omega, h.2.1, fun k hk hkn => ?_⟩, fun h => ⟨?_, h.2.1, fun k hk hkn =>
            h.2.2 k hk (by omega)⟩⟩
          · rcases Nat.lt_succ_iff_lt_or_eq.mp hkn with hlt | rfl
            · exact h.2.2 k hk hlt
            · exact hn
          · have hne : a ≠ n := fun heq => by
              rw [heq, hn] at h
              cases h.2.1
            omega

/-- The absorbing bunsetsu is the nearest one that is left. -/
theorem mergeTo_spec (h : MergedTo n merge d₀ b d) (hb : b < n) (hfirst : merge 0 = false)
    (hmerge : merge b = true) : ∃ a < b, mergeTo d b = some a ∧ d.merged a = false ∧
      ∀ k, a < k → k < b → d.merged k = true := by
  have hpos : 0 < b := Nat.pos_of_ne_zero fun h0 => by
    rw [h0, hfirst] at hmerge
    cases hmerge
  have hleft : ∀ i < n, d.merged i = false ↔ 0 ≤ d.num i := by
    intro i hi
    rw [merged_eq_false_iff, h.num_eq i hi]
    split_ifs <;> simp
  cases hto : mergeTo d b with
  | none =>
      have hzero := List.find?_eq_none.mp hto 0 (by simpa using hpos)
      rw [decide_eq_true_eq, ← hleft 0 (by omega), ← Bool.not_eq_true, h.merged_iff (by omega),
        not_not, hfirst] at hzero
      cases hzero.2
  | some a =>
      obtain ⟨hab, ha, hbetween⟩ := find?_reverse_range_eq_some.mp hto
      refine ⟨a, hab, rfl, (hleft a (by omega)).mpr (of_decide_eq_true ha), fun k hk hkb => ?_⟩
      rw [← Bool.not_eq_false, hleft k (by omega)]
      exact of_decide_eq_false (hbetween k hk hkb)

theorem MergedTo.step (h : MergedTo n merge d₀ b d) (hb : b < n) (hfirst : merge 0 = false) :
    ∃ d', (if merge b then mergeBnst b d else some d) = some d' ∧
      MergedTo n merge d₀ (b + 1) d' := by
  by_cases hmerge : merge b = true
  · obtain ⟨a, hab, hto, ha, hbetween⟩ := mergeTo_spec h hb hfirst hmerge
    rw [if_pos hmerge]
    unfold mergeBnst
    rw [hto, Option.map_some]
    refine ⟨_, rfl, fun i hi => ?_, fun i hi hleft => ?_⟩
    · dsimp only
      by_cases hib : i = b
      · rw [hib, Function.update_self, if_pos ⟨Nat.lt_succ_self b, hmerge⟩]
      · have hiff : i < b ∧ merge i = true ↔ i < b + 1 ∧ merge i = true :=
          and_congr_left' (by omega)
        rw [Function.update_of_ne hib, h.num_eq i hi]
        simp only [hiff]
    · have hkeep : ∀ k, d.merged k = true → Function.update d.num b (-1) k = -1 := by
        intro k hk
        rw [Function.update_apply]
        split_ifs
        · rfl
        · exact merged_eq_true_iff.mp hk
      have hib : i ≠ b := by
        rintro rfl
        exact merged_eq_false_iff.mp hleft (Function.update_self _ _ _)
      have hold : d.merged i = false := by
        rw [merged_eq_false_iff] at hleft ⊢
        dsimp only at hleft
        rwa [Function.update_of_ne hib] at hleft
      dsimp only
      by_cases hia : i = a
      · subst hia
        obtain ⟨e, hbe, hen, hrun, hhead⟩ := h.head_eq b hb (by
          rw [← Bool.not_eq_true, h.merged_iff hb]
          exact fun hlt => lt_irrefl b hlt.1)
        have heb : e = b := by
          by_contra hne
          have := (h.merged_iff hen).mp (hrun e (by omega) le_rfl)
          omega
        rw [Function.update_self, hhead, heb]
        refine ⟨b, hab.le, hb, fun k hk hkb => ?_, rfl⟩
        rcases Nat.lt_or_eq_of_le hkb with hlt | rfl
        · exact merged_eq_true_iff.mpr (hkeep k (hbetween k hk hlt))
        · exact merged_eq_true_iff.mpr (Function.update_self _ _ _)
      · obtain ⟨e, hie, hen, hrun, hhead⟩ := h.head_eq i hi hold
        rw [Function.update_of_ne hia]
        exact ⟨e, hie, hen, fun k hk hke => merged_eq_true_iff.mpr (hkeep k (hrun k hk hke)), hhead⟩
  · rw [if_neg hmerge]
    refine ⟨d, rfl, fun i hi => ?_, h.head_eq⟩
    rw [h.num_eq i hi]
    have hiff : i < b ∧ merge i = true ↔ i < b + 1 ∧ merge i = true := by
      refine ⟨fun h => ⟨by omega, h.2⟩, fun h => ⟨?_, h.2⟩⟩
      have hne : i ≠ b := fun heq => hmerge (heq ▸ h.2)
      omega
    simp only [hiff]

/-- `tag_bnst_postprocess` leaves each bunsetsu with the head of the last one
that it has taken in. -/
theorem bnstPostprocess_mergedTo (h : CompleteHeads n d₀) (hfirst : merge 0 = false) :
    ∃ d, bnstPostprocess n merge d₀ = some d ∧ MergedTo n merge d₀ n d := by
  unfold bnstPostprocess
  exact Loop.upTo?_total _ (fun b d => MergedTo n merge d₀ b d) (Nat.zero_le n)
    (fun b d _ hb hd => hd.step hb hfirst) h.mergedTo

end Merged

/-! ## What every run does -/

section Sound

variable {env : TreeEnv} {buffer : Nat → Int} {d d' d₁ : TreeData} {s s' : LinkState} {i j n p x : Nat}

/-- The pointers to parents that a run has set are those of the heads. -/
structure ParentsFrom (buffer : Nat → Int) (d d' : TreeData) : Prop where
  num_eq : d'.num = d.num
  sound : ∀ x p, d'.parent x = some p →
    d.parent x = some p ∨ ∃ j, d.links buffer j x ∧ p = d.target j

theorem ParentsFrom.refl : ParentsFrom buffer d d := ⟨rfl, fun _ _ h => Or.inl h⟩

theorem ParentsFrom.trans (h : ParentsFrom buffer d d₁) (h' : ParentsFrom buffer d₁ d') :
    ParentsFrom buffer d d' := by
  refine ⟨h'.num_eq.trans h.num_eq, fun x p hp => ?_⟩
  rcases h'.sound x p hp with hold | ⟨j, hlink, rfl⟩
  · exact h.sound x p hold
  · unfold links at hlink ⊢
    rw [merged_congr h.num_eq] at hlink
    exact Or.inr ⟨j, hlink, by rw [target_congr h.num_eq]⟩

theorem setChild_parentsFrom {k : Nat} {v : Option Nat} (h : d.setChild p k v = some d') :
    ParentsFrom buffer d d' := by
  unfold setChild at h
  split_ifs at h
  obtain rfl := Option.some.inj h
  exact ⟨rfl, fun _ _ h => Or.inl h⟩

theorem addModifier_parentsFrom (h : addModifier j i s = some s') :
    ParentsFrom buffer s.data s'.data := by
  unfold addModifier at h
  split_ifs at h
  all_goals
    obtain ⟨d, hset, rfl⟩ := Option.map_eq_some_iff.mp h
    exact setChild_parentsFrom hset

theorem linkParent_parentsFrom (h : d.links buffer j i) :
    ParentsFrom buffer d (linkParent env j i d) := by
  refine ⟨rfl, fun x p hp => ?_⟩
  unfold linkParent at hp
  dsimp only at hp
  by_cases hx : x = i
  · rw [hx, Function.update_self] at hp
    exact Or.inr ⟨j, hx ▸ h, (Option.some.inj hp).symm⟩
  · rw [Function.update_of_ne hx] at hp
    exact Or.inl hp

theorem linkModifiers_parentsFrom : ∀ (n : Nat) {s s' : LinkState},
    linkModifiers env buffer j n s = some s' → ParentsFrom buffer s.data s'.data
  | 0, _, _, h => by
      obtain rfl := Option.some.inj h
      exact .refl
  | i + 1, s, s', h => by
      unfold linkModifiers at h
      split_ifs at h with hi hbuf hskip
      · exact linkModifiers_parentsFrom i h
      · exact linkModifiers_parentsFrom i h
      · obtain ⟨s₁, hadd, hrest⟩ := Option.bind_eq_some_iff.mp h
        have hfirst : ParentsFrom buffer s.data s₁.data := addModifier_parentsFrom hadd
        have hlink : s₁.data.links buffer j i := by
          rw [links_iff, merged_congr hfirst.num_eq]
          exact ⟨by simpa using hi, hbuf, hskip⟩
        split_ifs at hrest with hroom
        · obtain rfl := Option.some.inj hrest
          exact hfirst
        · exact hfirst.trans ((linkParent_parentsFrom hlink).trans
            (linkModifiers_parentsFrom i hrest))
      · exact linkModifiers_parentsFrom i h

theorem linkHeads_parentsFrom : ∀ (n : Nat) {pre : Nat} {d d' : TreeData},
    linkHeads env buffer n pre d = some d' → ParentsFrom buffer d d'
  | 0, _, _, _, h => by
      obtain rfl := Option.some.inj h
      exact .refl
  | j + 1, pre, d, d', h => by
      obtain ⟨⟨pre', d₁⟩, hhead, hrest⟩ := Option.bind_eq_some_iff.mp h
      obtain ⟨s, hrun, hclose⟩ := Option.bind_eq_some_iff.mp hhead
      obtain ⟨d₂, hset, heq⟩ := Option.map_eq_some_iff.mp hclose
      obtain ⟨-, rfl⟩ := Prod.mk.inj heq
      exact (linkModifiers_parentsFrom j hrun).trans
        ((setChild_parentsFrom hset).trans (linkHeads_parentsFrom j hrest))

theorem sortHeads_parentsFrom : ∀ (n : Nat) {d d' : TreeData},
    sortHeads n d = some d' → ParentsFrom buffer d d'
  | 0, _, _, h => by
      obtain rfl := Option.some.inj h
      exact .refl
  | j + 1, d, d', h => by
      obtain ⟨d₁, hhead, hrest⟩ := Option.bind_eq_some_iff.mp h
      obtain ⟨c, -, rfl⟩ := Option.map_eq_some_iff.mp hhead
      have hlater := sortHeads_parentsFrom j hrest
      exact ⟨hlater.num_eq, hlater.sound⟩

theorem makeSimpleTree_parentsFrom (h : makeSimpleTree env d = some d') :
    ParentsFrom (headOf env d) d d' := by
  obtain ⟨d₁, hlink, hsort⟩ := Option.bind_eq_some_iff.mp h
  rw [headBuffer_eq] at hlink
  exact (linkHeads_parentsFrom _ hlink).trans (sortHeads_parentsFrom _ hsort)

end Sound

/-! ## Modifiers and their heads -/

/-- The parts of all managers follow each other in the sentence. -/
def ManagersFit (env : TreeEnv) : Prop :=
  ∀ m < env.para.paraMNum, Parted (env.para.manager m) ∧
    (env.para.manager m).stop (env.para.manager m).last < env.bnstNum

/-- The bunsetsu that are left, but for the one with the last bunsetsu. -/
def modifiers (env : TreeEnv) (d : TreeData) : List Nat :=
  (List.range env.bnstNum).filter fun i =>
    !d.merged i && getCorrectPostprocessedBnstNum d (env.bnstNum - 1) ≠ some i

/-- `c` stands once among the children of `p`, which a NULL ends in the array. -/
def IsChild (d : TreeData) (p c : Nat) : Prop :=
  ∃ l, l.length < PARA_PART_MAX ∧ NullArray.Reads (d.child p) l ∧ l.count c = 1

/-- `make_simple_tree` makes every modifier a child of the bunsetsu that took in
its head, and a descendant of the root. -/
def AttachesAll (env : TreeEnv) (d : TreeData) : Prop :=
  ∃ d', makeSimpleTree env (initBnstTreeProperty d) = some d' ∧ ∀ i ∈ modifiers env d,
    (∃ p, getCorrectPostprocessedBnstNum d (headOf env d i).toNat = some p ∧
      d'.parent i = some p ∧ IsChild d' p i) ∧
    ∃ r, getCorrectPostprocessedBnstNum d (env.bnstNum - 1) = some r ∧
      Relation.ReflTransGen (IsChild d') r i

/-- One step back from a merged head is the bunsetsu that took it in, and not
the modifier itself, and no bunsetsu has too many modifiers. -/
structure StepSuffices (env : TreeEnv) (d : TreeData) : Prop where
  one_back : ∀ i ∈ modifiers env d, ∀ j : Nat, headOf env d i = j → d.merged j = true →
    d.merged (j - 1) = false ∧ j ≠ i + 1
  few : ∀ p < env.bnstNum, d.merged p = false → ((modifiers env d).filter fun i =>
    getCorrectPostprocessedBnstNum d (headOf env d i).toNat = some p).length < PARA_PART_MAX

section Modifiers

variable {env : TreeEnv} {d d₀ d' : TreeData} {merge : Nat → Bool} {i j a r p : Nat}

theorem getCorrect_eq_some_iff : getCorrectPostprocessedBnstNum d j = some a ↔
    a ≤ j ∧ d.merged a = false ∧ ∀ k, a < k → k ≤ j → d.merged k = true := by
  unfold getCorrectPostprocessedBnstNum
  rw [find?_reverse_range_eq_some]
  simp

theorem getCorrect_self (h : d.merged j = false) : getCorrectPostprocessedBnstNum d j = some j :=
  getCorrect_eq_some_iff.mpr ⟨le_rfl, h, fun _ hk hkj => absurd hk (Nat.not_lt_of_le hkj)⟩

/-- The bunsetsu one step back. -/
theorem getCorrect_pred (hj : d.merged j = true) (hpred : d.merged (j - 1) = false) :
    getCorrectPostprocessedBnstNum d j = some (j - 1) := by
  refine getCorrect_eq_some_iff.mpr ⟨Nat.sub_le j 1, hpred, fun k hk hkj => ?_⟩
  obtain rfl : k = j := by omega
  exact hj

theorem mem_modifiers : i ∈ modifiers env d ↔ i < env.bnstNum ∧ d.merged i = false ∧
    getCorrectPostprocessedBnstNum d (env.bnstNum - 1) ≠ some i := by
  simp [modifiers]

theorem modifiers_nodup : (modifiers env d).Nodup := List.Nodup.filter _ List.nodup_range

theorem coordinates_bound (hfit : ManagersFit env) {m : Nat} (hm : m < env.para.paraMNum)
    (h : coordinates env m i = true) :
    i < (env.para.manager m).stop (env.para.manager m).last ∧
      (env.para.manager m).stop (env.para.manager m).last < env.bnstNum := by
  obtain ⟨hparted, hlast⟩ := hfit m hm
  refine ⟨?_, hlast⟩
  unfold coordinates at h
  obtain ⟨j, hj, hi⟩ := List.any_eq_true.mp h
  have hlt := hparted.stop_lt_stop (List.mem_range.mp hj) hparted.last_lt
  simp only [Bool.or_eq_true, Bool.and_eq_true, decide_eq_true_eq] at hi
  omega

variable (env d i) in
theorem headOf_cases : (∃ m < env.para.paraMNum, coordinates env m i = true ∧
    headOf env d i = (env.para.manager m).stop (env.para.manager m).last) ∨
      headOf env d i = d.dpndHead i := by
  unfold headOf
  cases hm : (List.range env.para.paraMNum).reverse.find? (coordinates env · i) with
  | none => exact Or.inr rfl
  | some m =>
      obtain ⟨hlt, hcoord, -⟩ := find?_reverse_range_eq_some.mp hm
      exact Or.inl ⟨m, hlt, hcoord, rfl⟩

theorem headOf_lt (hcomplete : CompleteHeads env.bnstNum d₀)
    (hmerged : MergedTo env.bnstNum merge d₀ env.bnstNum d) (hfit : ManagersFit env)
    (hi : i < env.bnstNum) (hleft : d.merged i = false) : headOf env d i < env.bnstNum := by
  rcases headOf_cases env d i with ⟨m, hm, hcoord, heq⟩ | heq
  · rw [heq]
    exact_mod_cast (coordinates_bound hfit hm hcoord).2
  · obtain ⟨e, hie, hen, -, hhead⟩ := hmerged.head_eq i hi hleft
    rw [heq, hhead]
    rcases Nat.lt_or_eq_of_le (Nat.succ_le_of_lt hen) with hlt | hlast
    · exact (hcomplete.head_lt e hlt).2
    · rw [hcomplete.last_head e hlast]
      omega

/-- The head of a modifier lies behind it. -/
theorem modifier_head (hcomplete : CompleteHeads env.bnstNum d₀)
    (hmerged : MergedTo env.bnstNum merge d₀ env.bnstNum d) (hfit : ManagersFit env)
    (hi : i ∈ modifiers env d) : ∃ j : Nat, headOf env d i = j ∧ i < j ∧ j < env.bnstNum := by
  obtain ⟨hin, hleft, hne⟩ := mem_modifiers.mp hi
  rcases headOf_cases env d i with ⟨m, hm, hcoord, heq⟩ | heq
  · exact ⟨_, heq, coordinates_bound hfit hm hcoord⟩
  · obtain ⟨e, hie, hen, hrun, hhead⟩ := hmerged.head_eq i hin hleft
    have hlt : e + 1 < env.bnstNum := by
      refine Nat.lt_of_le_of_ne hen fun hlast => hne (getCorrect_eq_some_iff.mpr ⟨by omega, hleft,
        fun k hk hkn => hrun k hk (by omega)⟩)
    obtain ⟨hlo, hhi⟩ := hcomplete.head_lt e hlt
    refine ⟨(d₀.dpndHead e).toNat, ?_, ?_, ?_⟩
    · rw [heq, hhead]
      omega
    · omega
    · omega

/-! ## When one step back is enough -/

/-- In a tree that attaches all modifiers, each is one step from its head. -/
theorem AttachesAll.stepSuffices (hbnst : env.bnstNum ≤ BNST_MAX) (h : AttachesAll env d) :
    StepSuffices env d := by
  obtain ⟨d', hrun, hall⟩ := h
  refine ⟨fun i hi j hj hmerged => ?_, fun p _ _ => ?_⟩
  · obtain ⟨⟨p, hp, hparent, -⟩, -⟩ := hall i hi
    rw [hj, Int.toNat_natCast] at hp
    rcases (makeSimpleTree_parentsFrom hrun).sound i p hparent with hinit | ⟨k, hlink, rfl⟩
    · have hin := (mem_modifiers.mp hi).1
      rw [initBnstTreeProperty_parent (hin.trans_le hbnst)] at hinit
      cases hinit
    · obtain ⟨-, hbuf, hskip⟩ := links_iff.mp hlink
      obtain rfl : j = k := by
        have := hj.symm.trans hbuf
        omega
      have htarget : (initBnstTreeProperty d).target j = j - 1 := if_pos hmerged
      rw [htarget] at hp
      exact ⟨(getCorrect_eq_some_iff.mp hp).2.1, fun heq => hskip ⟨hmerged, heq⟩⟩
  · -- all modifiers of `p` stand in its array
    set ms := (modifiers env d).filter fun i =>
      getCorrectPostprocessedBnstNum d (headOf env d i).toNat = some p with hms
    have hchild : ∀ i ∈ ms, IsChild d' p i := by
      intro i hi
      obtain ⟨himod, hip⟩ := List.mem_filter.mp hi
      obtain ⟨⟨q, hq, -, hchild⟩, -⟩ := hall i himod
      obtain rfl := Option.some.inj ((of_decide_eq_true hip).symm.trans hq)
      exact hchild
    cases hcons : ms with
    | nil => exact Nat.zero_lt_succ _
    | cons i₀ rest =>
        obtain ⟨l, hlen, hreads, -⟩ := hchild i₀ (hcons ▸ List.mem_cons_self)
        have hsub : ms ⊆ l := by
          intro i hi
          obtain ⟨l', -, hreads', hcount⟩ := hchild i hi
          rw [hreads.unique hreads']
          exact List.count_pos_iff.mp (hcount ▸ Nat.one_pos)
        rw [← hcons]
        exact ((modifiers_nodup.filter _).subperm hsub).length_le.trans_lt hlen

/-- If one step back is enough, all children of a bunsetsu fit into its array. -/
theorem StepSuffices.kids_lt (h : StepSuffices env d)
    (hp : p < env.bnstNum) : (d.kids (headOf env d) p).length < PARA_PART_MAX := by
  cases hmerged : d.merged p with
  | true =>
      -- only the root can have such a head
      have hroot : ∀ i ∈ d.kids (headOf env d) p,
          getCorrectPostprocessedBnstNum d (env.bnstNum - 1) = some i := by
        intro i hi
        obtain ⟨j, hij, hj⟩ := mem_kids.mp hi
        obtain ⟨hlt, hlink⟩ := mem_attached.mp hij
        obtain ⟨hleft, hbuf, -⟩ := links_iff.mp hlink
        by_contra hne
        have hjm : d.merged j = true ∧ j - 1 = p := by
          unfold target at hj
          split_ifs at hj with hjm
          · exact ⟨hjm, hj⟩
          · exact absurd (hj ▸ hmerged) hjm
        have hmod : i ∈ modifiers env d := mem_modifiers.mpr ⟨by omega, hleft, hne⟩
        have hpred := (h.one_back i hmod j hbuf hjm.1).1
        rw [hjm.2, hmerged] at hpred
        cases hpred
      cases hkids : d.kids (headOf env d) p with
      | nil => exact Nat.zero_lt_succ _
      | cons i₀ rest =>
          have hsub : d.kids (headOf env d) p ⊆ [i₀] := by
            intro i hi
            have hi₀ := hroot i₀ (hkids ▸ List.mem_cons_self)
            rw [List.mem_singleton]
            exact Option.some.inj ((hroot i hi).symm.trans hi₀)
          rw [← hkids]
          exact (kids_nodup.subperm hsub).length_le.trans_lt (by rw [List.length_singleton]; decide)
  | false =>
      refine (kids_nodup.subperm fun i hi => ?_).length_le.trans_lt (h.few p hp hmerged)
      obtain ⟨j, hij, hj⟩ := mem_kids.mp hi
      obtain ⟨hlt, hlink⟩ := mem_attached.mp hij
      obtain ⟨hleft, hbuf, hskip⟩ := links_iff.mp hlink
      have hip : i < p := by
        unfold target at hj
        split_ifs at hj with hjm
        · have : j ≠ i + 1 := fun heq => hskip ⟨hjm, heq⟩
          omega
        · omega
      refine List.mem_filter.mpr ⟨mem_modifiers.mpr ⟨by omega, hleft, fun hroot => ?_⟩, ?_⟩
      · rw [(getCorrect_eq_some_iff.mp hroot).2.2 p hip (by omega)] at hmerged
        cases hmerged
      · rw [decide_eq_true_eq, hbuf, Int.toNat_natCast]
        unfold target at hj
        split_ifs at hj with hjm
        · rw [← hj] at hmerged ⊢
          exact getCorrect_pred hjm hmerged
        · rw [← hj] at hmerged ⊢
          exact getCorrect_self hmerged

/-- The bunsetsu that took in the head of a modifier. -/
theorem StepSuffices.target (h : StepSuffices env d) (hi : i ∈ modifiers env d)
    (hj : headOf env d i = j) (hij : i < j) : i ∈ d.attached (headOf env d) j j ∧
      getCorrectPostprocessedBnstNum d j = some (d.target j) ∧ i < d.target j := by
  have hleft := (mem_modifiers.mp hi).2.1
  cases hjm : d.merged j with
  | true =>
      obtain ⟨hpred, hne⟩ := h.one_back i hi j hj hjm
      have htarget : d.target j = j - 1 := if_pos hjm
      rw [htarget]
      exact ⟨mem_attached.mpr ⟨hij, links_iff.mpr ⟨hleft, hj, fun hskip => hne hskip.2⟩⟩,
        getCorrect_pred hjm hpred, by omega⟩
  | false =>
      have htarget : d.target j = j := if_neg (by simp [hjm])
      rw [htarget]
      exact ⟨mem_attached.mpr ⟨hij, links_iff.mpr ⟨hleft, hj, fun hskip => by
        rw [hjm] at hskip
        cases hskip.1⟩⟩, getCorrect_self hjm, hij⟩

theorem StepSuffices.attachesAll (hfirst : 0 < env.bnstNum → d.merged 0 = false)
    (hhead : ∀ i ∈ modifiers env d, ∃ j : Nat, headOf env d i = j ∧ i < j ∧ j < env.bnstNum)
    (hlt : ∀ i < env.bnstNum, d.merged i = false → headOf env d i < env.bnstNum)
    (h : StepSuffices env d) : AttachesAll env d := by
  have hbuf : headBuffer env (initBnstTreeProperty d) = headOf env d := headBuffer_eq
  obtain ⟨d', hrun, htree⟩ := makeSimpleTree_spec env (d := initBnstTreeProperty d) hfirst
    (by rw [hbuf]; exact hlt) (by rw [hbuf]; exact fun p hp => h.kids_lt hp)
  rw [hbuf] at htree
  have hattach : ∀ i ∈ modifiers env d, ∃ p,
      getCorrectPostprocessedBnstNum d (headOf env d i).toNat = some p ∧
        d'.parent i = some p ∧ IsChild d' p i ∧ i < p := by
    intro i hi
    obtain ⟨j, hj, hij, hjn⟩ := hhead i hi
    obtain ⟨hmem, htarget, hip⟩ := h.target hi hj hij
    have hle : d.target j ≤ j := (getCorrect_eq_some_iff.mp htarget).1
    obtain ⟨l, hperm, hreads⟩ := htree.reads (d.target j) (by omega)
    refine ⟨d.target j, by rw [hj, Int.toNat_natCast, htarget], htree.parent_eq j i hjn hmem,
      ⟨l, ?_, hreads, ?_⟩, hip⟩
    · exact hperm.length_eq.trans_lt (h.kids_lt (by omega))
    · rw [hperm.count_eq]
      exact List.count_eq_one_of_mem kids_nodup (mem_kids.mpr ⟨j, hmem, rfl⟩)
  refine ⟨d', hrun, fun i hi => ⟨?_, ?_⟩⟩
  · obtain ⟨p, hp, hparent, hchild, -⟩ := hattach i hi
    exact ⟨p, hp, hparent, hchild⟩
  · have hin := mem_modifiers.mp hi
    obtain ⟨r, hr⟩ : ∃ r, getCorrectPostprocessedBnstNum d (env.bnstNum - 1) = some r := by
      refine Option.isSome_iff_exists.mp (List.find?_isSome.mpr ⟨i, ?_, ?_⟩)
      · rw [List.mem_reverse, List.mem_range]
        omega
      · rw [hin.2.1]
        rfl
    refine ⟨r, hr, ?_⟩
    -- upwards along the parents
    have hreach : ∀ k i, i ∈ modifiers env d → env.bnstNum - i ≤ k →
        Relation.ReflTransGen (IsChild d') r i := by
      intro k
      induction k with
      | zero =>
          intro i hi hk
          have := (mem_modifiers.mp hi).1
          omega
      | succ k ih =>
          intro i hi hk
          obtain ⟨p, hp, -, hchild, hip⟩ := hattach i hi
          obtain ⟨-, hleft, -⟩ := getCorrect_eq_some_iff.mp hp
          by_cases hpr : p = r
          · exact .single (hpr ▸ hchild)
          · have hpn : p < env.bnstNum := by
              obtain ⟨j, hj, -, hjn⟩ := hhead i hi
              rw [hj, Int.toNat_natCast] at hp
              exact (getCorrect_eq_some_iff.mp hp).1.trans_lt hjn
            have hmod : p ∈ modifiers env d := mem_modifiers.mpr ⟨hpn, hleft, fun heq =>
              hpr (Option.some.inj (heq.symm.trans hr))⟩
            exact (ih p hmod (by omega)).tail hchild
    exact hreach _ i hi le_rfl

/-- After any merges, `make_simple_tree` makes every modifier a child of the
bunsetsu that took in its head exactly if one step back is enough. -/
theorem attachesAll_iff (hbnst : env.bnstNum ≤ BNST_MAX) (hcomplete : CompleteHeads env.bnstNum d₀)
    (hfit : ManagersFit env) (hfirst : merge 0 = false)
    (hpost : bnstPostprocess env.bnstNum merge d₀ = some d) :
    AttachesAll env d ↔ StepSuffices env d := by
  obtain ⟨d₁, hpost', hmerged⟩ := bnstPostprocess_mergedTo hcomplete hfirst
  obtain rfl := Option.some.inj (hpost.symm.trans hpost')
  have hhead : ∀ i ∈ modifiers env d, ∃ j : Nat, headOf env d i = j ∧ i < j ∧ j < env.bnstNum :=
    fun i hi => modifier_head hcomplete hmerged hfit hi
  refine ⟨AttachesAll.stepSuffices hbnst, StepSuffices.attachesAll ?_ hhead
    fun i hi hleft => headOf_lt hcomplete hmerged hfit hi hleft⟩
  intro hpos
  rw [merged_eq_false_iff, hmerged.num_eq 0 hpos, hfirst]
  simp

end Modifiers

/-! ## Two sentences -/

/-- Bunsetsu with the given heads. -/
def bunsetsuOf (heads : List Int) : TreeData where
  num i := i
  dpndHead i := heads.getD i (-1)
  parent _ := none
  child _ _ := none
  paraTopP _ := false
  paraType _ := .nil
  toParaP _ := false

/-- A sentence without coordination. -/
def plainEnv (bnstNum : Nat) : TreeEnv where
  bnstNum := bnstNum
  mask _ _ := 1
  para := initParaManager fun _ _ => .not

theorem plainEnv_fit (n : Nat) : ManagersFit (plainEnv n) := fun m hm =>
  absurd hm (Nat.not_lt_zero m)

/-- The last of three bunsetsu is merged, the head of the first one. -/
theorem mergedHead_attachesAll : ∃ d, bnstPostprocess 3 (· = 2) (bunsetsuOf [2, 2]) = some d ∧
    AttachesAll (plainEnv 3) d := by
  obtain ⟨d, hpost⟩ : ∃ d, bnstPostprocess 3 (· = 2) (bunsetsuOf [2, 2]) = some d := ⟨_, rfl⟩
  have hcomplete : CompleteHeads 3 (bunsetsuOf [2, 2]) :=
    ⟨fun _ _ => rfl, fun i hi => by
      rcases (by omega : i = 0 ∨ i = 1) with rfl | rfl <;> decide,
      fun i hi => by
        obtain rfl : i = 2 := by omega
        rfl⟩
  have hrun : (bnstPostprocess 3 (· = 2) (bunsetsuOf [2, 2])).map (fun d =>
      (modifiers (plainEnv 3) d, headOf (plainEnv 3) d 0, d.merged 1)) = some ([0], 2, false) := by
    decide
  rw [hpost, Option.map_some, Option.some.injEq, Prod.mk.injEq, Prod.mk.injEq] at hrun
  obtain ⟨hmods, hhead, hleft⟩ := hrun
  refine ⟨d, hpost, (attachesAll_iff (by decide) hcomplete (plainEnv_fit 3)
    rfl hpost).mpr ⟨fun i hi j hj _ => ?_, fun p _ _ => ?_⟩⟩
  · rw [hmods, List.mem_singleton] at hi
    subst hi
    obtain rfl : j = 2 := by omega
    exact ⟨hleft, by decide⟩
  · rw [hmods]
    exact (List.length_filter_le _ _).trans_lt (by decide)

/-- Two bunsetsu in a row are merged. The modifier of the second one becomes a
child of the first, which is no longer in the tree. -/
theorem mergedRow_not_attachesAll : ∃ d d',
    bnstPostprocess 5 (fun b => b = 2 || b = 3) (bunsetsuOf [3, 2, 3, 4]) = some d ∧
      makeSimpleTree (plainEnv 5) (initBnstTreeProperty d) = some d' ∧
      getCorrectPostprocessedBnstNum d (headOf (plainEnv 5) d 0).toNat = some 1 ∧
      d'.parent 0 = some 2 ∧ ¬ AttachesAll (plainEnv 5) d := by
  obtain ⟨d, hpost⟩ : ∃ d, bnstPostprocess 5 (fun b => b = 2 || b = 3) (bunsetsuOf [3, 2, 3, 4]) =
    some d := ⟨_, rfl⟩
  have hrun : (bnstPostprocess 5 (fun b => b = 2 || b = 3) (bunsetsuOf [3, 2, 3, 4])).bind (fun d =>
      (makeSimpleTree (plainEnv 5) (initBnstTreeProperty d)).map fun d' =>
        (getCorrectPostprocessedBnstNum d (headOf (plainEnv 5) d 0).toNat, d'.parent 0,
          modifiers (plainEnv 5) d)) = some (some 1, some 2, [0, 1]) := by
    decide +kernel
  rw [hpost, Option.bind_some] at hrun
  obtain ⟨d', htree, heq⟩ := Option.map_eq_some_iff.mp hrun
  simp only [Prod.mk.injEq] at heq
  obtain ⟨hcorrect, hparent, hmods⟩ := heq
  refine ⟨d, d', hpost, htree, hcorrect, hparent, fun h => ?_⟩
  obtain ⟨d₁, htree', hall⟩ := h
  obtain rfl := Option.some.inj (htree.symm.trans htree')
  obtain ⟨⟨p, hp, hparent', -⟩, -⟩ := hall 0 (by rw [hmods]; decide)
  rw [hcorrect, ← hparent'] at hp
  rw [hparent] at hp
  cases hp

end Knp
