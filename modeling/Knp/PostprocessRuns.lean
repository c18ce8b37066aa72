import Knp.BnstPostprocess

/-!
# The runs of merged units (`dpnd_analysis.c`)

> After `tag_bnst_postprocess` every unit that is left has the morphemes of its run and the
> head of the last unit of it, and the numbers follow each other; `undo` restores all units.
> The lengths are the sums just where the bytes that are added are as many as the lengths.

The same holds of the tags and of the bunsetsu, which are merged with their first tags.
-/

namespace Knp.Postprocess

open Loop Runs

variable {π : Type}

/-- What a run from `a` to `l` has become. -/
structure RunUnit (u : Nat → UnitData π) (bytes : Nat → Nat) (a l : Nat) (v : UnitData π) :
    Prop where
  mrphNum : v.mrphNum = ((List.range' a (l + 1 - a)).map fun k => (u k).mrphNum).sum
  dpndHead : v.dpndHead = (u l).dpndHead
  length : v.length = (u a).length + ((List.range' (a + 1) (l - a)).map bytes).sum

/-- The first `n` units have been merged. -/
structure Merged (u : Nat → UnitData π) (absorbed : Nat → Bool) (bytes : Nat → Nat) (n : Nat)
    (u' : Nat → UnitData π) : Prop where
  num : ∀ k, (u' k).num = if k < n ∧ absorbed k = true then -1 else (u k).num
  ptr : ∀ k, (u' k).mrphPtr = (u k).mrphPtr
  saved : ∀ k < n, (u' k).preserveMrphNum = (u k).mrphNum
  rest : ∀ k, n ≤ k → (u' k).mrphNum = (u k).mrphNum ∧ (u' k).dpndHead = (u k).dpndHead ∧
    (u' k).length = (u k).length
  run : ∀ a l, Run absorbed n a l → RunUnit u bytes a l (u' a)

/-- Units that differ only in features and coordination. -/
def SameUnits (u u' : Nat → UnitData π) : Prop :=
  ∀ k, (u' k).num = (u k).num ∧ (u' k).mrphPtr = (u k).mrphPtr ∧
    (u' k).preserveMrphNum = (u k).preserveMrphNum ∧ (u' k).mrphNum = (u k).mrphNum ∧
    (u' k).dpndHead = (u k).dpndHead ∧ (u' k).length = (u k).length

section Merged

variable {u u' u'' : Nat → UnitData π} {absorbed : Nat → Bool} {bytes : Nat → Nat} {n a l k : Nat}

@[simp] theorem saveMrphNum_f : (saveMrphNum a u k).f = (u k).f := by
  by_cases hk : k = a <;> simp [saveMrphNum, hk]

@[simp] theorem saveMrphNum_mrphPtr : (saveMrphNum a u k).mrphPtr = (u k).mrphPtr := by
  by_cases hk : k = a <;> simp [saveMrphNum, hk]

@[simp] theorem saveMrphNum_mrphNum : (saveMrphNum a u k).mrphNum = (u k).mrphNum := by
  by_cases hk : k = a <;> simp [saveMrphNum, hk]

@[simp] theorem saveMrphNum_num : (saveMrphNum a u k).num = (u k).num := by
  by_cases hk : k = a <;> simp [saveMrphNum, hk]

theorem sameUnits_assignFeature (a : Nat) (fname : String) : SameUnits u (assignFeature a fname u) := by
  intro k
  unfold assignFeature
  by_cases hk : k = a
  · subst hk
    rw [Function.update_self]
    exact ⟨rfl, rfl, rfl, rfl, rfl, rfl⟩
  · rw [Function.update_of_ne hk]
    exact ⟨rfl, rfl, rfl, rfl, rfl, rfl⟩

theorem sameUnits_copyParaInfo (a src : Nat) : SameUnits u (copyParaInfo a src u) := by
  intro k
  unfold copyParaInfo
  by_cases hk : k = a
  · subst hk
    rw [Function.update_self]
    exact ⟨rfl, rfl, rfl, rfl, rfl, rfl⟩
  · rw [Function.update_of_ne hk]
    exact ⟨rfl, rfl, rfl, rfl, rfl, rfl⟩

theorem Merged.congr (h : Merged u absorbed bytes n u') (hsame : SameUnits u' u'') :
    Merged u absorbed bytes n u'' where
  num k := (hsame k).1.trans (h.num k)
  ptr k := (hsame k).2.1.trans (h.ptr k)
  saved k hk := (hsame k).2.2.1.trans (h.saved k hk)
  rest k hk := by
    obtain ⟨-, -, -, hmrph, hhead, hlen⟩ := hsame k
    rw [hmrph, hhead, hlen]
    exact h.rest k hk
  run a l hrun := by
    obtain ⟨-, -, -, hmrph, hhead, hlen⟩ := hsame a
    have := h.run a l hrun
    exact ⟨hmrph.trans this.mrphNum, hhead.trans this.dpndHead, hlen.trans this.length⟩

theorem merged_zero : Merged u absorbed bytes 0 u where
  num k := by rw [if_neg fun h => absurd h.1 (Nat.not_lt_zero k)]
  ptr k := rfl
  saved k hk := absurd hk (Nat.not_lt_zero k)
  rest k _ := ⟨rfl, rfl, rfl⟩
  run a l hrun := absurd hrun.lt (Nat.not_lt_zero l)

theorem runUnit_self {v : UnitData π} (hmrph : v.mrphNum = (u a).mrphNum)
    (hhead : v.dpndHead = (u a).dpndHead) (hlen : v.length = (u a).length) :
    RunUnit u bytes a a v := by
  refine ⟨?_, hhead, ?_⟩
  · rw [Nat.add_sub_cancel_left, hmrph]
    simp
  · rw [Nat.sub_self, hlen]
    simp

/-- One more unit of the run. -/
theorem RunUnit.snoc {v w : UnitData π} (h : RunUnit u bytes a l v) (hal : a ≤ l)
    (hmrph : w.mrphNum = v.mrphNum + (u (l + 1)).mrphNum)
    (hhead : w.dpndHead = (u (l + 1)).dpndHead) (hlen : w.length = v.length + bytes (l + 1)) :
    RunUnit u bytes a (l + 1) w := by
  refine ⟨?_, hhead, ?_⟩
  · rw [hmrph, h.mrphNum, Nat.sub_add_comm (by omega : a ≤ l + 1), List.range'_1_concat,
      List.map_append, List.sum_append, Nat.add_sub_cancel' (by omega : a ≤ l + 1)]
    simp
  · rw [hlen, h.length, Nat.sub_add_comm hal, List.range'_1_concat, List.map_append,
      List.sum_append, Nat.add_right_comm a 1, Nat.add_sub_cancel' hal, Nat.add_assoc]
    simp

/-- A unit that is left. -/
theorem Merged.keep (h : Merged u absorbed bytes n u') (hn : absorbed n = false) :
    Merged u absorbed bytes (n + 1) (saveMrphNum n u') := by
  have hother : ∀ k, k ≠ n → saveMrphNum n u' k = u' k := fun k hk => Function.update_of_ne hk ..
  have hself : saveMrphNum n u' n = { u' n with preserveMrphNum := (u' n).mrphNum } :=
    Function.update_self ..
  obtain ⟨hmrph, hhead, hlen⟩ := h.rest n le_rfl
  refine ⟨fun k => ?_, fun k => ?_, fun k hk => ?_, fun k hk => ?_, fun a l hrun => ?_⟩
  · by_cases hk : k = n
    · subst hk
      rw [hself, if_neg (by simp [hn])]
      exact (h.num k).trans (if_neg (by simp))
    · rw [hother k hk, h.num]
      exact if_congr (and_congr_left fun _ => by omega) rfl rfl
  · by_cases hk : k = n
    · subst hk
      rw [hself]
      exact h.ptr k
    · rw [hother k hk, h.ptr]
  · by_cases hk' : k = n
    · subst hk'
      rw [hself]
      exact hmrph
    · rw [hother k hk', h.saved k (by omega)]
  · rw [hother k (by omega)]
    exact h.rest k (by omega)
  · by_cases hl : l = n
    · subst hl
      obtain rfl : a = l := by
        by_contra hne
        have := hrun.takesIn.taken l (by have := hrun.takesIn.le; omega) le_rfl
        rw [hn] at this
        cases this
      rw [hself]
      exact runUnit_self hmrph hhead hlen
    · have hlt : l < n := by have := hrun.lt; omega
      have := hrun.takesIn.le
      rw [hother a (by omega)]
      exact h.run a l ⟨hrun.takesIn, hlt, fun hln => hrun.last (by omega)⟩

/-- A unit that is merged into the last one that is left. -/
theorem Merged.take (h : Merged u absorbed bytes n u') (hn : absorbed n = true)
    (ha : TakesIn absorbed a n) :
    Merged u absorbed bytes (n + 1) (mergeUnit a n (bytes n) (saveMrphNum n u')) := by
  obtain ⟨l, rfl, hal⟩ := ha.prev hn
  have hne : a ≠ l + 1 := by have := hal.le; omega
  obtain ⟨hmrph, hhead, hlen⟩ := h.rest (l + 1) le_rfl
  have hother : ∀ k, k ≠ l + 1 → k ≠ a →
      mergeUnit a (l + 1) (bytes (l + 1)) (saveMrphNum (l + 1) u') k = u' k := by
    intro k hk hka
    unfold mergeUnit saveMrphNum
    rw [Function.update_of_ne hka, Function.update_of_ne hk, Function.update_of_ne hk]
  have htaken : mergeUnit a (l + 1) (bytes (l + 1)) (saveMrphNum (l + 1) u') (l + 1) =
      { u' (l + 1) with num := -1, preserveMrphNum := (u' (l + 1)).mrphNum } := by
    unfold mergeUnit saveMrphNum
    rw [Function.update_of_ne hne.symm, Function.update_self, Function.update_self]
  have htaker : mergeUnit a (l + 1) (bytes (l + 1)) (saveMrphNum (l + 1) u') a =
      { u' a with
        mrphNum := (u' a).mrphNum + (u' (l + 1)).mrphNum
        dpndHead := (u' (l + 1)).dpndHead
        dpndType := (u' (l + 1)).dpndType
        length := (u' a).length + bytes (l + 1) } := by
    unfold mergeUnit saveMrphNum
    rw [Function.update_self, Function.update_self]
    simp only [Function.update_of_ne hne, Function.update_self]
  have hleft := ha.left
  refine ⟨fun k => ?_, fun k => ?_, fun k hk => ?_, fun k hk => ?_, fun b e hrun => ?_⟩
  · by_cases hk : k = l + 1
    · subst hk
      rw [htaken, if_pos ⟨Nat.lt_succ_self _, hn⟩]
    · rw [← if_congr (and_congr_left fun _ => by omega : k < l + 1 ∧ absorbed k = true ↔ _) rfl rfl,
        ← h.num]
      by_cases hka : k = a
      · subst hka
        rw [htaker]
      · rw [hother k hk hka]
  · rw [← h.ptr]
    by_cases hk : k = l + 1
    · subst hk
      rw [htaken]
    · by_cases hka : k = a
      · subst hka
        rw [htaker]
      · rw [hother k hk hka]
  · by_cases hk' : k = l + 1
    · subst hk'
      rw [htaken]
      exact hmrph
    · rw [← h.saved k (by omega)]
      by_cases hka : k = a
      · subst hka
        rw [htaker]
      · rw [hother k hk' hka]
  · rw [hother k (by omega) (by have := hal.le; omega)]
    exact h.rest k (by omega)
  · by_cases hba : b = a
    · subst hba
      have hend : Run absorbed (l + 2) b (l + 1) :=
        ⟨ha, Nat.lt_succ_self _, fun hlt => absurd hlt (by omega)⟩
      obtain rfl := hrun.unique hend
      have hprev := h.run b l ⟨hal, Nat.lt_succ_self l, fun hlt => absurd hlt (by omega)⟩
      refine hprev.snoc hal.le ?_ ?_ ?_
      · rw [htaker, hmrph]
      · rw [htaker, hhead]
      · rw [htaker]
    · -- a run that ends in front of this one
      have hel : e < l + 1 := by
        by_contra hge
        obtain rfl : e = l + 1 := by have := hrun.lt; omega
        have := hrun.takesIn.le
        rcases Nat.lt_or_gt_of_ne hba with hlt | hgt
        · have := hrun.takesIn.taken a hlt ha.le
          rw [hleft] at this
          cases this
        · have := ha.taken b hgt hrun.takesIn.le
          rw [hrun.takesIn.left] at this
          cases this
      have := hrun.takesIn.le
      rw [hother b (by omega) hba]
      exact h.run b e ⟨hrun.takesIn, hel, fun hlt => hrun.last (by omega)⟩

theorem mergeTo_eq (hnum : ∀ j < k, 0 ≤ (u j).num ↔ absorbed j = false)
    (hk : absorbed k = true) (ha : TakesIn absorbed a k) : mergeTo u k = some a := by
  obtain ⟨j, rfl, haj⟩ := ha.prev hk
  clear ha hk
  induction j with
  | zero =>
      obtain rfl := Nat.le_zero.mp haj.le
      rw [mergeTo, if_pos ((hnum 0 (Nat.lt_succ_self 0)).mpr haj.left)]
  | succ j ih =>
      rw [mergeTo]
      split_ifs with hj
      · have hleft := (hnum (j + 1) (Nat.lt_succ_self _)).mp hj
        congr 1
        by_contra hne
        have := haj.taken (j + 1) (by have := haj.le; omega) le_rfl
        rw [hleft] at this
        cases this
      · have htaken : absorbed (j + 1) = true :=
          Bool.of_not_eq_false (mt (hnum (j + 1) (Nat.lt_succ_self _)).mpr hj)
        obtain ⟨j', heq, haj'⟩ := haj.prev htaken
        obtain rfl := Nat.succ.inj heq
        exact ih haj' fun i hi => hnum i (by omega)

end Merged

end Knp.Postprocess
