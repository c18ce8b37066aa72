import Mathlib.Data.Finset.Card
import Knp.ScopeSpan
import Knp.ParaForest

/-!
# The scopes of the managers

`para_revise_scope` widens every manager to the left by its first child and to
the right by its last one. That is enough for all its children: they stand in
the order of the coordinations through which they were attached, and only the
first can begin before the manager, only the last end after it.

> After the revision the span of every manager contains the spans of its
> children.

The recursion visits every manager below a root. A manager holds its original
bounds until its turn and its final ones afterwards, so nothing depends on the
order of the visits.
-/

namespace Knp

open Scopes ScopeGroups

/-! ## Heights -/

/-- In an acyclic relation among finitely many numbers every element has a
height below their number. -/
theorem exists_height {r : Nat → Nat → Prop} {n : Nat} (hlt : ∀ a b, r a b → a < n ∧ b < n)
    (hacyc : ∀ a, ¬ Relation.TransGen r a a) :
    ∃ h : Nat → Nat, (∀ a b, r a b → h a < h b) ∧ ∀ a < n, h a < n := by
  classical
  let below (a : Nat) : Finset Nat := (Finset.range n).filter fun k => Relation.TransGen r k a
  refine ⟨fun a => (below a).card, fun a b hab => ?_, fun a ha => ?_⟩
  · refine Finset.card_lt_card (Finset.ssubset_iff_of_subset ?_ |>.mpr ⟨a, ?_, ?_⟩)
    · intro k hk
      obtain ⟨hkn, hka⟩ := Finset.mem_filter.mp hk
      exact Finset.mem_filter.mpr ⟨hkn, hka.tail hab⟩
    · exact Finset.mem_filter.mpr ⟨Finset.mem_range.mpr (hlt a b hab).1, .single hab⟩
    · exact fun hk => hacyc a (Finset.mem_filter.mp hk).2
  · have hsub : below a ⊂ Finset.range n :=
      Finset.ssubset_iff_of_subset (Finset.filter_subset _ _) |>.mpr
        ⟨a, Finset.mem_range.mpr ha, fun hk => hacyc a (Finset.mem_filter.mp hk).2⟩
    exact (Finset.card_lt_card hsub).trans_eq (Finset.card_range n)

/-! ## What one correction does -/

section Widen

variable {mgr : Nat → ParaManager} {m first last k : Nat}

/-- 左側の修正 -/
def widenStart (mgr : Nat → ParaManager) (m first : Nat) : Nat → ParaManager :=
  if (mgr first).firstStart < (mgr m).firstStart then
    Function.update mgr m { mgr m with startPos := (mgr m).startPos.set 0 (mgr first).firstStart }
  else mgr

/-- 右側の修正 -/
def widenEnd (mgr : Nat → ParaManager) (m last : Nat) : Nat → ParaManager :=
  if (mgr m).lastEnd < (mgr last).lastEnd then
    Function.update mgr m
      { mgr m with endPos := (mgr m).endPos.set ((mgr m).endPos.length - 1) (mgr last).lastEnd }
  else mgr

theorem widen_eq : widen mgr m first last = widenEnd (widenStart mgr m first) m last := rfl

theorem widenStart_of_ne (h : k ≠ m) : widenStart mgr m first k = mgr k := by
  unfold widenStart
  split_ifs
  · exact Function.update_of_ne h ..
  · rfl

theorem widenEnd_of_ne (h : k ≠ m) : widenEnd mgr m last k = mgr k := by
  unfold widenEnd
  split_ifs
  · exact Function.update_of_ne h ..
  · rfl

theorem widenStart_endPos (k : Nat) : (widenStart mgr m first k).endPos = (mgr k).endPos := by
  by_cases hk : k = m
  · unfold widenStart
    split_ifs
    · rw [hk, Function.update_self]
    · rfl
  · rw [widenStart_of_ne hk]

theorem widenEnd_startPos (k : Nat) : (widenEnd mgr m last k).startPos = (mgr k).startPos := by
  by_cases hk : k = m
  · unfold widenEnd
    split_ifs
    · rw [hk, Function.update_self]
    · rfl
  · rw [widenEnd_of_ne hk]

theorem widen_of_ne (h : k ≠ m) : widen mgr m first last k = mgr k := by
  rw [widen_eq, widenEnd_of_ne h, widenStart_of_ne h]

theorem widen_firstStart :
    (widen mgr m first last m).firstStart = min (mgr m).firstStart (mgr first).firstStart := by
  rw [widen_eq, ParaManager.firstStart, widenEnd_startPos, widenStart]
  split_ifs with h
  · rw [Function.update_self]
    cases hs : (mgr m).startPos with
    | nil =>
        rw [ParaManager.firstStart, ParaManager.firstStart, hs] at h
        exact absurd h (Nat.not_lt_zero _)
    | cons s ss => exact (min_eq_right h.le).symm
  · exact (min_eq_left (not_lt.mp h)).symm

theorem getLastD_set {l : List Nat} {v : Nat} (h : l ≠ []) :
    (l.set (l.length - 1) v).getLastD 0 = v := by
  have hlt : l.length - 1 < l.length := Nat.sub_one_lt_of_lt (List.length_pos_of_ne_nil h)
  rw [List.getLastD_eq_getLast?, List.getLast?_eq_getElem?]
  simp [hlt]

theorem widenStart_lastEnd (k : Nat) : (widenStart mgr m first k).lastEnd = (mgr k).lastEnd := by
  rw [ParaManager.lastEnd, ParaManager.lastEnd, widenStart_endPos]

theorem widen_lastEnd (hend : (mgr m).endPos ≠ []) :
    (widen mgr m first last m).lastEnd = max (mgr m).lastEnd (mgr last).lastEnd := by
  rw [widen_eq, widenEnd, widenStart_lastEnd, widenStart_lastEnd]
  split_ifs with h
  · rw [Function.update_self, ParaManager.lastEnd, widenStart_endPos, getLastD_set hend]
    exact (max_eq_right h.le).symm
  · rw [widenStart_lastEnd]
    exact (max_eq_left (not_lt.mp h)).symm

theorem widen_endPos_length (k : Nat) :
    (widen mgr m first last k).endPos.length = (mgr k).endPos.length := by
  by_cases hk : k = m
  · rw [widen_eq, widenEnd]
    split_ifs
    · rw [hk, Function.update_self]
      dsimp only
      rw [List.length_set, widenStart_endPos]
    · rw [widenStart_endPos]
  · rw [widen_of_ne hk]

end Widen

/-! ## The final bounds -/

/-- The managers below `m`, with `m`. -/
def Descends (mgr₀ : Nat → ParaManager) (m k : Nat) : Prop :=
  Relation.ReflTransGen (fun a b => b ∈ (mgr₀ a).child) m k

section Heights

variable {mgr₀ : Nat → ParaManager} {height : Nat → Nat}

/-- The left bound of a manager after the revision. -/
def leftBound (hheight : ∀ m, ∀ c ∈ (mgr₀ m).child, height c < height m) (m : Nat) : Nat :=
  match _hc : (mgr₀ m).child.head? with
  | none => (mgr₀ m).firstStart
  | some c => min (mgr₀ m).firstStart (leftBound hheight c)
termination_by height m
decreasing_by exact hheight m c (List.mem_of_mem_head? _hc)

/-- The right bound of a manager after the revision. -/
def rightBound (hheight : ∀ m, ∀ c ∈ (mgr₀ m).child, height c < height m) (m : Nat) : Nat :=
  match _hc : (mgr₀ m).child.getLast? with
  | none => (mgr₀ m).lastEnd
  | some c => max (mgr₀ m).lastEnd (rightBound hheight c)
termination_by height m
decreasing_by exact hheight m c (List.mem_of_mem_getLast? _hc)

variable (hheight : ∀ m, ∀ c ∈ (mgr₀ m).child, height c < height m)

theorem leftBound_eq (m : Nat) : leftBound hheight m =
    (mgr₀ m).child.head?.elim (mgr₀ m).firstStart fun c =>
      min (mgr₀ m).firstStart (leftBound hheight c) := by
  rw [leftBound]
  split <;> rename_i hc <;> rw [hc] <;> rfl

theorem rightBound_eq (m : Nat) : rightBound hheight m =
    (mgr₀ m).child.getLast?.elim (mgr₀ m).lastEnd fun c =>
      max (mgr₀ m).lastEnd (rightBound hheight c) := by
  rw [rightBound]
  split <;> rename_i hc <;> rw [hc] <;> rfl

/-- A state of the revision: every manager has its original bounds or its final
ones, and those of `D` have their final ones. -/
structure Revising (D : Nat → Prop) (mgr : Nat → ParaManager) : Prop where
  links : ∀ k, (mgr k).parent = (mgr₀ k).parent ∧ (mgr k).child = (mgr₀ k).child
  length_eq : ∀ k, (mgr k).endPos.length = (mgr₀ k).endPos.length
  start_or : ∀ k, (mgr k).firstStart = (mgr₀ k).firstStart ∨
    (mgr k).firstStart = leftBound hheight k
  end_or : ∀ k, (mgr k).lastEnd = (mgr₀ k).lastEnd ∨ (mgr k).lastEnd = rightBound hheight k
  done : ∀ k, D k → (mgr k).firstStart = leftBound hheight k ∧
    (mgr k).lastEnd = rightBound hheight k

variable {hheight} {D : Nat → Prop} {mgr : Nat → ParaManager} {m k c : Nat}

theorem Revising.mono {D' : Nat → Prop} (h : Revising hheight D mgr) (hD : ∀ k, D' k → D k) :
    Revising hheight D' mgr :=
  { h with done := fun k hk => h.done k (hD k hk) }

/-- A manager without children has its final bounds from the start. -/
theorem Revising.leaf (h : Revising hheight D mgr) (hm : (mgr₀ m).child = []) :
    Revising hheight (fun k => D k ∨ Descends mgr₀ m k) mgr :=
  { h with
    done := fun k hk => by
      rcases hk with hk | hk
      · exact h.done k hk
      · have hmk : m = k := by
          rcases Relation.ReflTransGen.cases_head hk with heq | ⟨c, hc, -⟩
          · exact heq
          · rw [hm] at hc
            cases hc
        subst hmk
        have hleft := leftBound_eq hheight m
        have hright := rightBound_eq hheight m
        rw [hm] at hleft hright
        exact ⟨(h.start_or m).elim (fun hs => hs.trans hleft.symm) id,
          (h.end_or m).elim (fun he => he.trans hright.symm) id⟩ }

/-- A manager whose children have their final bounds gets its own. -/
theorem Revising.widen {first last : Nat} (h : Revising hheight D mgr)
    (hend : (mgr₀ m).endPos ≠ []) (hfirst : (mgr₀ m).child.head? = some first)
    (hlast : (mgr₀ m).child.getLast? = some last)
    (hD : ∀ c ∈ (mgr₀ m).child, D c) :
    Revising hheight (fun k => D k ∨ k = m) (widen mgr m first last) := by
  have hf := (h.done first (hD first (List.mem_of_mem_head? hfirst))).1
  have hl := (h.done last (hD last (List.mem_of_mem_getLast? hlast))).2
  have hleft := leftBound_eq hheight m
  have hright := rightBound_eq hheight m
  rw [hfirst] at hleft
  rw [hlast] at hright
  have hstart : (Knp.widen mgr m first last m).firstStart = leftBound hheight m := by
    rw [widen_firstStart, hf]
    rcases h.start_or m with hs | hs
    · rw [hs, hleft]
      rfl
    · rw [hs, hleft]
      exact min_eq_left (min_le_right _ _)
  have hend' : (Knp.widen mgr m first last m).lastEnd = rightBound hheight m := by
    have hne : (mgr m).endPos ≠ [] := by
      rw [← List.length_pos_iff, h.length_eq, List.length_pos_iff]
      exact hend
    rw [widen_lastEnd hne, hl]
    rcases h.end_or m with he | he
    · rw [he, hright]
      rfl
    · rw [he, hright]
      exact max_eq_left (le_max_right _ _)
  refine ⟨fun k => ?_, fun k => ?_, fun k => ?_, fun k => ?_, fun k hk => ?_⟩
  · rw [(widen_node _).parent_eq, (widen_node _).child_eq]
    exact h.links k
  · rw [widen_endPos_length]
    exact h.length_eq k
  · by_cases hk : k = m
    · exact Or.inr (hk ▸ hstart)
    · rw [widen_of_ne hk]
      exact h.start_or k
  · by_cases hk : k = m
    · exact Or.inr (hk ▸ hend')
    · rw [widen_of_ne hk]
      exact h.end_or k
  · by_cases hkm : k = m
    · subst hkm
      exact ⟨hstart, hend'⟩
    · rw [widen_of_ne hkm]
      exact h.done k (hk.resolve_right hkm)

/-- **The recursion** ends within the height of a manager, with the final bounds
for everything below it. -/
theorem paraReviseScope_total (hend : ∀ k, (mgr₀ k).child ≠ [] → (mgr₀ k).endPos ≠ []) :
    ∀ (depth m : Nat) (D : Nat → Prop) (mgr : Nat → ParaManager), height m < depth →
      Revising hheight D mgr → ∃ mgr', paraReviseScope depth m mgr = some mgr' ∧
        Revising hheight (fun k => D k ∨ Descends mgr₀ m k) mgr'
  | 0, _, _, _, hlt, _ => absurd hlt (Nat.not_lt_zero _)
  | depth + 1, m, D, mgr, hlt, h => by
      unfold paraReviseScope
      cases hchild : (mgr₀ m).child with
      | nil =>
          rw [(h.links m).2, hchild]
          exact ⟨mgr, rfl, h.leaf hchild⟩
      | cons c cs =>
          rw [(h.links m).2, hchild]
          obtain ⟨mgr₁, hfold, h₁⟩ := Loop.foldlM_total
            (f := fun mgr c => paraReviseScope depth c mgr)
            (fun done s => Revising hheight (fun k => D k ∨ ∃ c ∈ done, Descends mgr₀ c k) s)
            (c :: cs) [] mgr
            (fun done a s ha hs => by
              have hlt' := hheight m a (hchild ▸ ha)
              obtain ⟨s', hs', hr⟩ := paraReviseScope_total hend depth a _ s (by omega) hs
              refine ⟨s', hs', hr.mono fun k hk => ?_⟩
              rcases hk with hk | ⟨b, hb, hbk⟩
              · exact Or.inl (Or.inl hk)
              · rcases List.mem_append.mp hb with hb | hb
                · exact Or.inl (Or.inr ⟨b, hb, hbk⟩)
                · exact Or.inr (List.mem_singleton.mp hb ▸ hbk))
            (h.mono fun k hk => hk.resolve_right (by rintro ⟨_, hc, _⟩; cases hc))
          dsimp only
          rw [hfold]
          refine ⟨_, rfl, ?_⟩
          have hne : c :: cs ≠ [] := List.cons_ne_nil c cs
          have hfirst : (mgr₀ m).child.head? = some c := by rw [hchild]; rfl
          have hlast : (mgr₀ m).child.getLast? = some ((c :: cs).getLast hne) := by
            rw [hchild, List.getLast?_eq_some_getLast hne]
          have hw := h₁.widen (hend m (hchild ▸ hne)) hfirst hlast
            fun b hb => Or.inr ⟨b, hchild ▸ hb, .refl⟩
          refine hw.mono fun k hk => ?_
          rcases hk with hk | hk
          · exact Or.inl (Or.inl hk)
          · rcases Relation.ReflTransGen.cases_head hk with heq | ⟨b, hb, hbk⟩
            · exact Or.inr heq.symm
            · exact Or.inl (Or.inr ⟨b, hchild ▸ hb, hbk⟩)

end Heights

/-! ## The managers as a least forest -/

section Forest

variable {sp : ParaSentence} {rel : RelMatrix} {st₀ st : ParaState}
  {hbad : badPair sp = none} {g : Grouped sp (finalRel sp rel) sp.paraNum st₀}
  {att : Nat → Nat} {x X P C : Coord sp} {m : Nat}

open Classical in
/-- The coordination that leads a manager. -/
noncomputable def Grouped.coordOf (g : Grouped sp (finalRel sp rel) sp.paraNum st₀) (m : Nat) :
    Option (Coord sp) :=
  if h : ∃ a, g.mgr a = m then some (g.leader h.choose) else none

theorem Grouped.coordOf_eq_some_iff : g.coordOf m = some X ↔ g.leader X = X ∧ g.mgr X = m := by
  unfold Grouped.coordOf
  split_ifs with h
  · rw [Option.some_inj]
    constructor
    · rintro rfl
      refine ⟨g.leader_eq_iff.mpr (g.leader_spec _).1, (g.leader_spec _).1.trans h.choose_spec⟩
    · rintro ⟨hX, rfl⟩
      exact (g.leader_eq_iff.mpr h.choose_spec).trans hX
  · refine iff_of_false (by simp) fun hX => h ⟨X, hX.2⟩

theorem Grouped.coordOf_mgr (x : Coord sp) : g.coordOf (g.mgr x) = some (g.leader x) :=
  Grouped.coordOf_eq_some_iff.mpr ⟨g.leader_eq_iff.mpr (g.leader_spec x).1, (g.leader_spec x).1⟩

open Classical in
/-- The parent of a manager, both by their first coordinations. -/
noncomputable def upperOf (g : Grouped sp (finalRel sp rel) sp.paraNum st₀) (st : ParaState)
    (X : Coord sp) : Option (Coord sp) :=
  if g.leader X = X then (st.manager (g.mgr X)).parent.bind g.coordOf else none

theorem upperOf_eq_some_iff : upperOf g st X = some P ↔
    (g.leader X = X ∧ g.leader P = P) ∧ (st.manager (g.mgr X)).parent = some (g.mgr P) := by
  unfold upperOf
  split_ifs with hX
  · rw [Option.bind_eq_some_iff]
    constructor
    · rintro ⟨m, hm, hP⟩
      obtain ⟨hlead, rfl⟩ := Grouped.coordOf_eq_some_iff.mp hP
      exact ⟨⟨hX, hlead⟩, hm⟩
    · rintro ⟨⟨-, hlead⟩, hm⟩
      exact ⟨g.mgr P, hm, Grouped.coordOf_eq_some_iff.mpr ⟨hlead, rfl⟩⟩
  · exact iff_of_false (by simp) fun h => hX h.1.1

open Classical in
/-- The coordination through which a manager was last attached. -/
noncomputable def attOf (g : Grouped sp (finalRel sp rel) sp.paraNum st₀) (att : Nat → Nat)
    (X : Coord sp) : Coord sp :=
  if h : ∃ i : Coord sp, i.index = att (g.mgr X) then h.choose else X

theorem attOf_eq {i : Coord sp} (h : i.index = att (g.mgr X)) : attOf g att X = i := by
  have hex : ∃ i : Coord sp, i.index = att (g.mgr X) := ⟨i, h⟩
  rw [attOf, dif_pos hex]
  exact Coord.index_injective (hex.choose_spec.trans h.symm)

/-- The managers choose upper groups of least rank. -/
noncomputable def Linked.forest (h : Linked hbad g (fun _ _ => True) att st) :
    LeastForest (g.groups hbad) where
  upper := upperOf g st
  att := attOf g att
  upper_ne_none X Y hup := by
    obtain ⟨x, y, rfl, -, hb⟩ := hup
    obtain ⟨p, hp, -⟩ := h.covered x y trivial hb
    have hx : g.mgr (g.leader x) = g.mgr x := (g.leader_spec x).1
    have hsome : upperOf g st (g.leader x) = some (g.leader p) :=
      upperOf_eq_some_iff.mpr ⟨⟨g.leader_eq_iff.mpr hx, g.leader_eq_iff.mpr (g.leader_spec p).1⟩, by
        rw [hx, (g.leader_spec p).1]
        exact hp⟩
    exact fun hnone => by
      have := hsome.symm.trans hnone
      cases this
  upper_att X P hup := by
    obtain ⟨⟨hX, hP⟩, hp⟩ := upperOf_eq_some_iff.mp hup
    obtain ⟨i, j, -, hb, ⟨hi, hj⟩, hatt⟩ := h.source _ _ hp
    rw [attOf_eq hatt]
    exact ⟨(g.leader_eq_iff.mpr hi).trans hX, j, (g.leader_eq_iff.mpr hj).trans hP, hb⟩
  least X P Y hup hXY := by
    obtain ⟨⟨hX, hP⟩, hp⟩ := upperOf_eq_some_iff.mp hup
    obtain ⟨x, y, rfl, rfl, hb⟩ := hXY
    obtain ⟨p, hp', hle⟩ := h.covered x y trivial hb
    have hx : g.mgr ((g.groups hbad).root x) = g.mgr x := (g.leader_spec x).1
    rw [hx, hp'] at hp
    have hpP : g.leader p = P := (g.leader_eq_iff.mpr (Option.some.inj hp)).trans hP
    rw [mgrRank, hpP] at hle
    exact hle

/-! ## The bounds of the managers -/

theorem Grouped.chained_mgr (X : Coord sp) :
    Chained sp (finalRel sp rel) sp.paraNum (st₀.manager (g.mgr X)) (g.leader X).index := by
  obtain ⟨a, hc, -, -⟩ := g.chained (g.mgr X) (g.mgr_lt X)
  have ha : a = (g.leader X).index :=
    Option.some.inj (hc.head.symm.trans (g.leader_spec X).2.1)
  exact ha ▸ hc

theorem Linked.firstStart_eq (h : Linked hbad g (fun _ _ => True) att st) (X : Coord sp) :
    (st.manager (g.mgr X)).firstStart = (g.leader X).data.start := by
  rw [ParaManager.firstStart, h.same.start_eq, (Grouped.chained_mgr X).startPos_eq]
  rfl

theorem Linked.endPos_ne_nil (h : Linked hbad g (fun _ _ => True) att st) (X : Coord sp) :
    (st.manager (g.mgr X)).endPos ≠ [] := by
  rw [h.same.end_eq, (Grouped.chained_mgr X).endPos_eq]
  exact List.cons_ne_nil _ _

/-- The end of a manager is the end of the last coordination it lists. -/
theorem Linked.lastEnd_eq (h : Linked hbad g (fun _ _ => True) att st) (X : Coord sp) :
    ∃ z : Coord sp, (st₀.manager (g.mgr X)).paraDataNum.getLast? = some z.index ∧
      (st.manager (g.mgr X)).lastEnd = z.data.jendPos := by
  have hc := Grouped.chained_mgr (g := g) X
  have hne := hc.ne_nil
  obtain ⟨hzn, hzl⟩ := g.live_of_mem (g.mgr_lt X) (List.getLast_mem hne)
  refine ⟨.mk' _ hzn hzl, List.getLast?_eq_some_getLast hne, ?_⟩
  rw [ParaManager.lastEnd, h.same.end_eq, hc.endPos_eq, List.getLastD_cons,
    List.getLastD_eq_getLast?, List.getLast?_map, List.getLast?_eq_some_getLast hne]
  rfl

/-- No coordination of a manager ends after its last one. -/
theorem Linked.jend_le_lastEnd (h : Linked hbad g (fun _ _ => True) att st)
    (hx : g.mgr x = g.mgr X) : x.data.jendPos ≤ (st.manager (g.mgr X)).lastEnd := by
  obtain ⟨z, hz, heq⟩ := h.lastEnd_eq X
  rw [heq]
  have hmem := hx ▸ g.mem_mgr x
  have hc := Grouped.chained_mgr (g := g) X
  have hpair := hc.pairwise hbad rel
  have hlast : (st₀.manager (g.mgr X)).paraDataNum.getLast hc.ne_nil = z.index := by
    rw [List.getLast?_eq_some_getLast hc.ne_nil] at hz
    exact Option.some.inj hz
  rw [← List.dropLast_append_getLast hc.ne_nil, hlast] at hpair hmem
  rcases List.mem_append.mp hmem with hdrop | hx
  · have hends := (List.pairwise_append.mp hpair).2.2 x.index hdrop z.index
      (List.mem_singleton_self _)
    exact hends.1.trans hends.2.le
  · rw [Coord.index_injective (List.mem_singleton.mp hx)]

section Widening

variable (h : Linked hbad g (fun _ _ => True) att st) {height : Nat → Nat}
  (hheight : ∀ m, ∀ c ∈ (st.manager m).child, height c < height m)

/-- A coordination that leads a listed child. -/
theorem Linked.upperOf_of_mem (h : Linked hbad g (fun _ _ => True) att st)
    (hP : g.leader P = P) {c : Nat} (hc : c ∈ (st.manager (g.mgr P)).child)
    (hC : g.coordOf c = some C) : upperOf g st C = some P := by
  obtain ⟨hlead, rfl⟩ := Grouped.coordOf_eq_some_iff.mp hC
  exact upperOf_eq_some_iff.mpr ⟨⟨hlead, hP⟩, (h.mem_child_iff _ _).mp hc⟩

/-- Every listed child is led by a coordination. -/
theorem Linked.coordOf_of_mem (h : Linked hbad g (fun _ _ => True) att st) {c : Nat}
    (hc : c ∈ (st.manager m).child) : ∃ C, g.coordOf c = some C ∧ g.mgr C = c := by
  obtain ⟨i, _, _, _, ⟨rfl, _⟩, _⟩ := h.source c m ((h.mem_child_iff m c).mp hc)
  exact ⟨g.leader i, Grouped.coordOf_mgr i, (g.leader_spec i).1⟩

/-- Children stand in the order of the coordinations through which they were attached. -/
theorem Linked.att_lt (h : Linked hbad g (fun _ _ => True) att st) {D : Coord sp}
    (hC : upperOf g st C = some P) (hD : upperOf g st D = some P)
    (hlt : att (g.mgr C) < att (g.mgr D)) :
    (attOf g att C).data.keyPos < (attOf g att D).data.keyPos := by
  have hatt : ∀ X, upperOf g st X = some P → (attOf g att X).index = att (g.mgr X) := by
    intro X hX
    obtain ⟨i, _, _, _, _, hi⟩ := h.source _ _ (upperOf_eq_some_iff.mp hX).2
    rw [attOf_eq hi, hi]
  rw [Coord.key_lt_key_iff, hatt C hC, hatt D hD]
  exact hlt

/-- The revised bounds are a widening of the forest of managers. -/
noncomputable def Linked.widening : h.forest.Widening where
  fin P := (st.manager (g.mgr P)).lastEnd
  first P := (st.manager (g.mgr P)).child.head?.bind g.coordOf
  last P := (st.manager (g.mgr P)).child.getLast?.bind g.coordOf
  left P := leftBound hheight (g.mgr P)
  right P := rightBound hheight (g.mgr P)
  fin_mem P hP := by
    obtain ⟨z, hz, heq⟩ := h.lastEnd_eq P
    have hmem := g.member_of_mem hbad (List.mem_of_getLast? hz)
    rw [show g.leader P = P from hP] at hmem
    exact ⟨z, hmem, heq⟩
  stop_le_fin x := h.jend_le_lastEnd (g.leader_spec x).1.symm
  first_upper P C hP hC := by
    obtain ⟨c, hc, hcC⟩ := Option.bind_eq_some_iff.mp hC
    exact h.upperOf_of_mem hP (List.mem_of_mem_head? hc) hcC
  first_le P D hD := by
    obtain ⟨⟨hDD, hPP⟩, hp⟩ := upperOf_eq_some_iff.mp hD
    have hmem := (h.mem_child_iff _ _).mpr hp
    have hsorted := h.sorted (g.mgr P)
    cases hchild : (st.manager (g.mgr P)).child with
    | nil =>
        rw [hchild] at hmem
        cases hmem
    | cons c cs =>
        have hc : c ∈ (st.manager (g.mgr P)).child := hchild ▸ List.mem_cons_self
        obtain ⟨C, hC, rfl⟩ := h.coordOf_of_mem hc
        refine ⟨C, hC, ?_⟩
        rw [hchild] at hmem hsorted
        rcases List.mem_cons.mp hmem with heq | hcs
        · rw [← heq, Grouped.coordOf_mgr, hDD] at hC
          exact Or.inl (Option.some.inj hC)
        · exact Or.inr (h.att_lt (h.upperOf_of_mem hPP hc hC) hD
            ((List.pairwise_cons.mp hsorted).1 _ hcs))
  last_upper P C hP hC := by
    obtain ⟨c, hc, hcC⟩ := Option.bind_eq_some_iff.mp hC
    exact h.upperOf_of_mem hP (List.mem_of_mem_getLast? hc) hcC
  last_le P D hD := by
    obtain ⟨⟨hDD, hPP⟩, hp⟩ := upperOf_eq_some_iff.mp hD
    have hmem := (h.mem_child_iff _ _).mpr hp
    have hsorted := h.sorted (g.mgr P)
    have hne := List.ne_nil_of_mem hmem
    have hc := List.getLast_mem hne
    obtain ⟨C, hC, hmC⟩ := h.coordOf_of_mem hc
    refine ⟨C, ?_, ?_⟩
    · rw [List.getLast?_eq_some_getLast hne]
      exact hC
    · rw [← List.dropLast_append_getLast hne] at hmem hsorted
      rcases List.mem_append.mp hmem with hdrop | hlast
      · refine Or.inr (h.att_lt hD (h.upperOf_of_mem hPP hc hC) ?_)
        rw [hmC]
        exact (List.pairwise_append.mp hsorted).2.2 _ hdrop _ (List.mem_singleton_self _)
      · rw [← List.mem_singleton.mp hlast, Grouped.coordOf_mgr, hDD] at hC
        exact Or.inl (Option.some.inj hC).symm
  left_eq P hP := by
    have hstart : (st.manager (g.mgr P)).firstStart = (scopesOf sp hbad).start P := by
      rw [h.firstStart_eq, show g.leader P = P from hP]
      rfl
    rw [leftBound_eq, hstart]
    cases hc : (st.manager (g.mgr P)).child.head? with
    | none => rfl
    | some c =>
        obtain ⟨C, hC, rfl⟩ := h.coordOf_of_mem (List.mem_of_mem_head? hc)
        rw [Option.bind_some, hC]
        rfl
  right_eq P hP := by
    rw [rightBound_eq]
    cases hc : (st.manager (g.mgr P)).child.getLast? with
    | none => rfl
    | some c =>
        obtain ⟨C, hC, rfl⟩ := h.coordOf_of_mem (List.mem_of_mem_getLast? hc)
        rw [Option.bind_some, hC]
        rfl

end Widening

end Forest

/-! ## The whole revision -/

theorem ParaState.IsForest.parent_of_mem {st : ParaState} (h : st.IsForest) {m c : Nat}
    (hc : c ∈ (st.manager m).child) : (st.manager c).parent = some m := by
  cases hp : (st.manager c).parent with
  | none => exact absurd hc (h.unlisted c hp m)
  | some p =>
      by_cases hmp : m = p
      · rw [hmp]
      · exact absurd hc ((h.listed_once c p hp).2 m hmp)

/-- Every manager lies below one without a parent. -/
theorem ParaState.IsForest.exists_root {st : ParaState} (h : st.IsForest) {height : Nat → Nat}
    (hheight : ∀ a b, (st.manager a).parent = some b → height a < height b)
    (hlt : ∀ a < st.paraMNum, height a < st.paraMNum) {k : Nat} (hk : k < st.paraMNum) :
    ∃ r < st.paraMNum, (st.manager r).parent = none ∧ Descends st.manager r k := by
  cases hp : (st.manager k).parent with
  | none => exact ⟨k, hk, hp, .refl⟩
  | some p =>
      have hpk := (h.parent_lt k p hp).2
      obtain ⟨r, hr, hroot, hrp⟩ := h.exists_root hheight hlt hpk
      refine ⟨r, hr, hroot, hrp.tail ?_⟩
      exact List.count_pos_iff.mp ((h.listed_once k p hp).1 ▸ Nat.one_pos)
termination_by st.paraMNum - height k
decreasing_by
  have := hheight k p hp
  have := hlt p hpk
  omega

/-- The loop over the roots ends with the final bounds for every manager. -/
theorem revisePass_total {st : ParaState} (h : st.IsForest)
    (hend : ∀ k, (st.manager k).child ≠ [] → (st.manager k).endPos ≠ []) {height : Nat → Nat}
    (hheight : ∀ a b, (st.manager a).parent = some b → height a < height b)
    (hlt : ∀ a < st.paraMNum, height a < st.paraMNum) :
    ∃ st', revisePass st.paraMNum st = some st' ∧
      Revising (fun m c hc => hheight c m (h.parent_of_mem hc))
        (fun k => k < st.paraMNum) st'.manager := by
  obtain ⟨mgr, hloop, hr⟩ := Loop.upTo?_total
    (fun i mgr =>
      if (mgr i).parent = none then paraReviseScope st.paraMNum i mgr else some mgr)
    (fun i mgr => Revising (fun m c hc => hheight c m (h.parent_of_mem hc))
      (fun k => ∃ r < i, (st.manager r).parent = none ∧ Descends st.manager r k) mgr)
    (Nat.zero_le st.paraMNum)
    (fun i mgr _ hi hr => by
      rw [(hr.links i).1]
      split_ifs with hroot
      · obtain ⟨mgr', hrun, hr'⟩ := paraReviseScope_total hend _ i _ mgr (hlt i hi) hr
        refine ⟨mgr', hrun, hr'.mono fun k hk => ?_⟩
        obtain ⟨r, hri, hrk⟩ := hk
        rcases (Nat.lt_succ_iff.mp hri).lt_or_eq with hlt | rfl
        · exact Or.inl ⟨r, hlt, hrk⟩
        · exact Or.inr hrk.2
      · refine ⟨mgr, rfl, hr.mono fun k hk => ?_⟩
        obtain ⟨r, hri, hrk⟩ := hk
        rcases (Nat.lt_succ_iff.mp hri).lt_or_eq with hlt | rfl
        · exact ⟨r, hlt, hrk⟩
        · exact absurd hrk.1 hroot)
    (s := st.manager)
    ⟨fun _ => ⟨rfl, rfl⟩, fun _ => rfl, fun _ => Or.inl rfl, fun _ => Or.inl rfl,
      fun _ hk => absurd hk.choose_spec.1 (Nat.not_lt_zero _)⟩
  refine ⟨{ st with manager := mgr }, ?_, hr.mono fun k hk => h.exists_root hheight hlt hk⟩
  rw [revisePass, hloop]
  rfl

section Contained

variable {sp : ParaSentence} {rel : RelMatrix} {st₀ st : ParaState}
  {hbad : badPair sp = none} {g : Grouped sp (finalRel sp rel) sp.paraNum st₀} {att : Nat → Nat}

theorem Linked.exists_upperOf (h : Linked hbad g (fun _ _ => True) att st) {m c : Nat}
    (hc : c ∈ (st.manager m).child) :
    ∃ C P, upperOf g st C = some P ∧ g.mgr C = c ∧ g.mgr P = m := by
  have hp := (h.mem_child_iff m c).mp hc
  obtain ⟨i, j, -, -, ⟨rfl, rfl⟩, -⟩ := h.source c m hp
  refine ⟨g.leader i, g.leader j, upperOf_eq_some_iff.mpr ⟨⟨?_, ?_⟩, ?_⟩,
    (g.leader_spec i).1, (g.leader_spec j).1⟩
  · exact g.leader_eq_iff.mpr (g.leader_spec i).1
  · exact g.leader_eq_iff.mpr (g.leader_spec j).1
  · rw [(g.leader_spec i).1, (g.leader_spec j).1]
    exact hp

/-- The scope revision of the managers ends, with their final bounds. -/
theorem Linked.exists_revision (h : Linked hbad g (fun _ _ => True) att st) :
    ∃ (height : Nat → Nat) (hheight : ∀ m, ∀ c ∈ (st.manager m).child, height c < height m)
      (st' : ParaState), revisePass st.paraMNum st = some st' ∧
        Revising hheight (fun k => k < st.paraMNum) st'.manager := by
  have hforest := h.isForest
  obtain ⟨height, hheight, hlt⟩ := exists_height (r := fun a b => (st.manager a).parent = some b)
    hforest.parent_lt hforest.acyclic
  have hend : ∀ k, (st.manager k).child ≠ [] → (st.manager k).endPos ≠ [] := by
    intro k hk
    obtain ⟨c, hc⟩ := List.exists_mem_of_ne_nil _ hk
    obtain ⟨_, P, _, _, rfl⟩ := h.exists_upperOf hc
    exact h.endPos_ne_nil P
  obtain ⟨st', hrun, hr⟩ := revisePass_total hforest hend hheight hlt
  exact ⟨height, _, st', hrun, hr⟩

end Contained

/-- The span of every manager contains the spans of all managers below it. -/
def ParaState.SpansContained (st : ParaState) : Prop :=
  ∀ m k, Descends st.manager m k → (st.manager m).firstStart ≤ (st.manager k).firstStart ∧
    (st.manager k).lastEnd ≤ (st.manager m).lastEnd

/-- The scope revision ends, and every manager then spans its children. -/
theorem revisePass_spansContained {sp : ParaSentence} {rel : RelMatrix} {st : ParaState}
    (h : detectManagers sp rel = .ok st) :
    ∃ st', revisePass st.paraMNum st = some st' ∧ st'.SpansContained := by
  obtain ⟨hbad, st₀, g, att, hl⟩ := detectManagers_linked h
  obtain ⟨height, hheight, st', hrun, hr⟩ := hl.exists_revision
  refine ⟨st', hrun, fun m k hmk => ?_⟩
  induction hmk with
  | refl => exact ⟨le_rfl, le_rfl⟩
  | @tail p c _ hpc ih =>
      have hc : c ∈ (st.manager p).child := (hr.links p).2 ▸ hpc
      have hpar := hl.isForest.parent_lt c p ((hl.mem_child_iff p c).mp hc)
      obtain ⟨C, P, hup, rfl, rfl⟩ := hl.exists_upperOf hc
      let W := hl.widening hheight
      have hleft : W.left P ≤ W.left C := W.left_le hup
      have hright : W.right C ≤ W.right P := W.right_le hup
      obtain ⟨hCl, hCr⟩ := hr.done (g.mgr C) hpar.1
      obtain ⟨hPl, hPr⟩ := hr.done (g.mgr P) hpar.2
      rw [hPl, hPr] at ih
      rw [hCl, hCr]
      exact ⟨ih.1.trans hleft, hright.trans ih.2⟩

/-- The earlier coordination stops before the key of the later one and begins before it. -/
def prePair : ParaSentence :=
  .ofList 8 [⟨0, 1, 4, 5, .n⟩, ⟨2, 5, 7, 5, .n⟩] (by simp) (by simp)

theorem prePair_spansContained :
    ∃ st st', detectManagers prePair (fun _ _ => .not) = .ok st ∧
      (st.manager 1).firstStart = 2 ∧ (st.manager 1).child = [0] ∧
      revisePass st.paraMNum st = some st' ∧ st'.SpansContained := by
  obtain ⟨st, hst, hstart, hchild⟩ : ∃ st, detectManagers prePair (fun _ _ => .not) = .ok st ∧
      (st.manager 1).firstStart = 2 ∧ (st.manager 1).child = [0] := ⟨_, rfl, by decide, by decide⟩
  obtain ⟨st', hrun, hspans⟩ := revisePass_spansContained hst
  exact ⟨st, st', hst, hstart, hchild, hrun, hspans⟩

end Knp
