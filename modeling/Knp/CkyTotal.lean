import Knp.CkyHeads

/-!
# The chart is closed (`cky.c`)

A bunsetsu whose `dep_check` is still -1 has depended on nothing so far, and
may depend on the end of the sentence. One whose `dep_check` is set has been
put together with a bunsetsu that is not the last: every phrase that it ended
was made longer there.

> With `OptParaFix` there is a phrase of the whole sentence, whatever the
> matrices and the barriers are.
-/

namespace Knp

variable {env : CkyEnv} {chart : Chart} {i j k d : Nat}

/-! ## Spans that get longer -/

/-- Where every end of a span can be passed, by a span that goes on there or by a longer one,
every start has a span to the last element. -/
theorem span_to_last {filled : Nat → Nat → Prop} {last : Nat} (hself : ∀ i ≤ last, filled i i)
    (hpass : ∀ m < last,
      (∀ i ≤ m, filled i m → filled (m + 1) last → filled i last) ∨
      ∃ m', m < m' ∧ m' ≤ last ∧ ∀ i ≤ m, filled i m → filled i m') :
    ∀ i ≤ last, filled i last := by
  suffices h : ∀ fuel i m, last - i + (last - m) < fuel → i ≤ m → m ≤ last → filled i m →
      filled i last from
    fun i hi => h _ i i (Nat.lt_succ_self _) le_rfl hi (hself i hi)
  intro fuel
  induction fuel with
  | zero => intro i m hlt; omega
  | succ fuel ih =>
      intro i m hlt him hm hfilled
      rcases Nat.eq_or_lt_of_le hm with rfl | hlt'
      · exact hfilled
      · rcases hpass m hlt' with hnext | ⟨m', hmm', hm', hlonger⟩
        · have hrest : filled (m + 1) last :=
            ih (m + 1) (m + 1) (by omega) le_rfl hlt' (hself _ hlt')
          exact hnext i him hfilled hrest
        · exact ih i m' (by omega) (by omega) hm' (hlonger i him hfilled)

/-! ## One cut -/

/-- The cell has a phrase. -/
def Filled (chart : Chart) (i j : Nat) : Prop := chart.matrix i j ≠ []

/-- `dep` may depend on `gov`, where its `dep_check` is `wall`. -/
def MayDepend (env : CkyEnv) (dep gov : Nat) (wall : Int) : Prop :=
  ∃ dpndType, checkDpndPossibility env dep gov dep (gov + 1 = env.bnstNum && wall = -1) =
      some dpndType ∧ (dpndType = 'P' ∨ wall ≤ 0 ∨ (gov : Int) ≤ wall)

/-- There is a phrase (i .. d) + (d+1 .. j). -/
structure Merges (env : CkyEnv) (chart : Chart) (i j d : Nat) : Prop where
  left : Filled chart i d
  right : Filled chart (d + 1) j
  passes : MayDepend env d j (chart.depCheck d)

theorem takeUntil_ne_nil {α : Type*} {stop : α → Bool} :
    ∀ {l : List α}, l ≠ [] → takeUntil stop l ≠ []
  | [], h => absurd rfl h
  | a :: l, _ => by
      rw [takeUntil]
      split <;> exact List.cons_ne_nil _ _

theorem removeBest_cons (env : CkyEnv) (c : Cky) (l : List Cky) :
    ∃ p, removeBest env (c :: l) = some p := by
  rw [removeBest]
  split
  · exact ⟨_, rfl⟩
  · split <;> exact ⟨_, rfl⟩

theorem sortCkyPtrs_ne_nil {beam : Nat} : ∀ {l : List Cky}, l ≠ [] →
    sortCkyPtrs env (beam + 1) l ≠ []
  | [], h => absurd rfl h
  | c :: l, _ => by
      obtain ⟨⟨best, others⟩, hbest⟩ := removeBest_cons env c l
      rw [sortCkyPtrs, hbest]
      exact List.cons_ne_nil _ _

theorem prune_ne_nil_iff {l : List Cky} : prune env i j l ≠ [] ↔ l ≠ [] := by
  constructor
  · intro h
    obtain ⟨c, hc⟩ := List.exists_mem_of_ne_nil _ h
    exact List.ne_nil_of_mem (mem_of_mem_prune hc)
  · intro h
    rw [prune]
    split
    · next hbeam =>
        obtain ⟨beam, hsucc⟩ := Nat.exists_eq_succ_of_ne_zero hbeam.1
        rw [hsucc]
        simp [sortCkyPtrs_ne_nil h]
    · exact sortCkyPtrs_ne_nil h

theorem Merges.congr {chart' : Chart} (hmatrix : chart'.matrix = chart.matrix)
    (hwall : chart'.depCheck d = chart.depCheck d) :
    Merges env chart' i j d ↔ Merges env chart i j d := by
  constructor
  · rintro ⟨hleft, hright, hpasses⟩
    exact ⟨by rwa [Filled, hmatrix] at hleft, by rwa [Filled, hmatrix] at hright,
      by rwa [hwall] at hpasses⟩
  · rintro ⟨hleft, hright, hpasses⟩
    exact ⟨by rwa [Filled, hmatrix], by rwa [Filled, hmatrix], by rwa [hwall]⟩

section Barrier

variable {dep : Nat}

@[simp] theorem setBarrier_matrix : (setBarrier env dep j chart).matrix = chart.matrix := by
  unfold setBarrier
  dsimp only
  split_ifs <;> rfl

theorem setBarrier_of_ne (hd : d ≠ dep) :
    (setBarrier env dep j chart).depCheck d = chart.depCheck d := by
  unfold setBarrier
  dsimp only
  split_ifs <;> simp [Function.update_of_ne hd]

/-- In the last column nothing is set: don't check in case of relaxation. -/
theorem setBarrier_last (hj : j + 1 = env.bnstNum) : setBarrier env dep j chart = chart :=
  if_pos hj

/-- A bunsetsu that was put together with `j` has a barrier there, or none, or the old one. -/
theorem setBarrier_depCheck (chart : Chart) (dep : Nat) (hj : j + 1 ≠ env.bnstNum) :
    (setBarrier env dep j chart).depCheck dep = j ∨ (setBarrier env dep j chart).depCheck dep = 0 ∨
      (setBarrier env dep j chart).depCheck dep = chart.depCheck dep ∧ chart.depCheck dep ≠ -1 := by
  unfold setBarrier
  dsimp only
  rw [if_neg hj]
  by_cases hbarrier : ((env.optParaFix || (env.dpndMatrix dep j).isSome) && env.barrierFp dep &&
      env.barrierMatch dep j) = true
  · rw [if_pos hbarrier]
    exact .inl (Function.update_self ..)
  · rw [if_neg hbarrier]
    by_cases hunset : chart.depCheck dep = -1
    · rw [if_pos hunset]
      split_ifs <;> simp
    · rw [if_neg hunset]
      exact .inr (.inr ⟨rfl, hunset⟩)

theorem setBarrier_congr {chart' : Chart} (h : chart'.depCheck dep = chart.depCheck dep) :
    (setBarrier env dep j chart').depCheck dep = (setBarrier env dep j chart).depCheck dep := by
  unfold setBarrier
  dsimp only
  rw [h]
  split_ifs <;> simp [h]

end Barrier

/-! ## One cell -/

/-- The cuts of (i .. j) before `m` are tried: a barrier is set at those that give a phrase. -/
structure CutsTried (env : CkyEnv) (chart : Chart) (i j m : Nat) (s : Chart × List Cky) : Prop where
  matrix : s.1.matrix = chart.matrix
  other : ∀ d, d < i ∨ m ≤ d → s.1.depCheck d = chart.depCheck d
  merged : ∀ d, i ≤ d → d < m → Merges env chart i j d →
    s.1.depCheck d = (setBarrier env d j chart).depCheck d
  kept : ∀ d, i ≤ d → d < m → ¬ Merges env chart i j d → s.1.depCheck d = chart.depCheck d
  found : s.2 ≠ [] ↔ ∃ d, i ≤ d ∧ d < m ∧ Merges env chart i j d

theorem CutsTried.start : CutsTried env chart i j i (chart, []) where
  matrix := rfl
  other _ _ := rfl
  merged d hi hd := by omega
  kept d hi hd := by omega
  found := iff_of_false (by simp) (by rintro ⟨d, hi, hd, -⟩; omega)

theorem CutsTried.step {m : Nat} {s : Chart × List Cky} {found : List Cky}
    (hs : CutsTried env chart i j m s) (him : i ≤ m)
    (hfound : found ≠ [] ↔ Merges env chart i j m) :
    CutsTried env chart i j (m + 1)
      (if found.isEmpty then s.1 else setBarrier env m j s.1, s.2 ++ found) := by
  by_cases hmerge : Merges env chart i j m
  · have hne := hfound.mpr hmerge
    rw [if_neg (by simpa using hne)]
    refine ⟨?_, fun d hd => ?_, fun d hi hd hmerges => ?_, fun d hi hd hmerges => ?_,
      iff_of_true (by simp [hne]) ⟨m, him, Nat.lt_succ_self m, hmerge⟩⟩
    · rw [setBarrier_matrix, hs.matrix]
    · rw [setBarrier_of_ne (by omega), hs.other d (by omega)]
    · rcases Nat.lt_succ_iff_lt_or_eq.mp hd with hlt | rfl
      · rw [setBarrier_of_ne (by omega), hs.merged d hi hlt hmerges]
      · exact setBarrier_congr (hs.other _ (.inr le_rfl))
    · rcases Nat.lt_succ_iff_lt_or_eq.mp hd with hlt | rfl
      · rw [setBarrier_of_ne (by omega), hs.kept d hi hlt hmerges]
      · exact absurd hmerge hmerges
  · obtain rfl : found = [] := by
      by_contra hne
      exact hmerge (hfound.mp hne)
    rw [List.append_nil]
    refine ⟨hs.matrix, fun d hd => hs.other d (by omega), fun d hi hd hmerges => ?_,
      fun d hi hd hmerges => ?_, ?_⟩
    · rcases Nat.lt_succ_iff_lt_or_eq.mp hd with hlt | rfl
      · exact hs.merged d hi hlt hmerges
      · exact absurd hmerges hmerge
    · rcases Nat.lt_succ_iff_lt_or_eq.mp hd with hlt | rfl
      · exact hs.kept d hi hlt hmerges
      · exact hs.other _ (.inr le_rfl)
    · rw [hs.found]
      constructor
      · rintro ⟨d, hi, hd, hmerges⟩
        exact ⟨d, hi, by omega, hmerges⟩
      · rintro ⟨d, hi, hd, hmerges⟩
        rcases Nat.lt_succ_iff_lt_or_eq.mp hd with hlt | rfl
        · exact ⟨d, hi, hlt, hmerges⟩
        · exact absurd hmerges hmerge

/-- What `fillCell` leaves. -/
structure FilledCell (env : CkyEnv) (chart : Chart) (i j : Nat) (chart' : Chart) : Prop where
  matrix : ∀ a b, a ≠ i ∨ b ≠ j → chart'.matrix a b = chart.matrix a b
  filled : Filled chart' i j ↔ ∃ d, i ≤ d ∧ d < j ∧ Merges env chart i j d
  other : ∀ d, d < i ∨ j ≤ d → chart'.depCheck d = chart.depCheck d
  merged : ∀ d, i ≤ d → d < j → Merges env chart i j d →
    chart'.depCheck d = (setBarrier env d j chart).depCheck d
  kept : ∀ d, i ≤ d → d < j → ¬ Merges env chart i j d → chart'.depCheck d = chart.depCheck d

theorem FilledCell.filled_iff {chart' : Chart} (h : FilledCell env chart i j chart') {a b : Nat}
    (hab : a ≠ i ∨ b ≠ j) : Filled chart' a b ↔ Filled chart a b := by
  rw [Filled, Filled, h.matrix a b hab]

section ParaFix

variable (hfix : env.optParaFix = true)
include hfix

theorem checkDpndPossibility_start (dep gov start start' : Nat) (relaxFlag : Bool) :
    checkDpndPossibility env dep gov start relaxFlag =
      checkDpndPossibility env dep gov start' relaxFlag := by
  simp [checkDpndPossibility, hfix]

theorem phrase_isSome_iff {left right : Cky} (hleft : left.bPtr = i + k) (hright : right.bPtr = j) :
    (phrase env chart i j k left right).isSome ↔ MayDepend env (i + k) j (chart.depCheck (i + k)) := by
  unfold phrase MayDepend
  dsimp only
  rw [hleft, hright, checkDpndPossibility_start hfix _ _ i (i + k)]
  cases checkDpndPossibility env (i + k) j (i + k)
      (j + 1 = env.bnstNum && chart.depCheck (i + k) = -1) with
  | none => simp
  | some dpndType =>
      by_cases hP : dpndType = 'P' <;> simp [hP, hfix]

/-- Whether anything is found does not depend on which phrases of the two cells are tried. -/
theorem phrases_ne_nil_iff (hall : AllBuilt env chart)
    (hnoL : ∀ dep gov, env.dpndMatrix dep gov ≠ some 'L') :
    phrases env chart i j k ≠ [] ↔ Merges env chart i j (i + k) := by
  constructor
  · intro h
    obtain ⟨c, hc⟩ := List.exists_mem_of_ne_nil _ h
    simp only [phrases, List.mem_flatMap, List.mem_filterMap] at hc
    obtain ⟨left, hleft, right, hright, hphrase⟩ := hc
    have hl := mem_of_mem_takeUntil hleft
    have hr := mem_of_mem_takeUntil hright
    refine ⟨List.ne_nil_of_mem hl, List.ne_nil_of_mem hr, ?_⟩
    exact (phrase_isSome_iff hfix ((hall _ _ _ hl).bPtr_eq hnoL)
      ((hall _ _ _ hr).bPtr_eq hnoL)).mp (by rw [hphrase]; rfl)
  · rintro ⟨hleft, hright, hpasses⟩
    obtain ⟨left, hl⟩ := List.exists_mem_of_ne_nil
      (takeUntil (fun left => !env.optNbest && env.optParaFix &&
        (!env.yogen left.bPtr || env.renyo left.bPtr)) _) (takeUntil_ne_nil hleft)
    obtain ⟨right, hr⟩ := List.exists_mem_of_ne_nil
      (takeUntil (fun right => !env.optNbest && env.optParaFix && !env.yogen right.bPtr) _)
      (takeUntil_ne_nil hright)
    have hsome := (phrase_isSome_iff hfix ((hall _ _ _ (mem_of_mem_takeUntil hl)).bPtr_eq hnoL)
      ((hall _ _ _ (mem_of_mem_takeUntil hr)).bPtr_eq hnoL)).mpr hpasses
    obtain ⟨c, hc⟩ := Option.isSome_iff_exists.mp hsome
    refine List.ne_nil_of_mem (a := c) ?_
    simp only [phrases, List.mem_flatMap, List.mem_filterMap]
    exact ⟨left, hl, right, hr, hc⟩

theorem mergeCells_cutsTried (hij : i ≤ j) (hall : AllBuilt env chart)
    (hnoL : ∀ dep gov, env.dpndMatrix dep gov ≠ some 'L') :
    CutsTried env chart i j j (mergeCells env i j chart) := by
  have hloop := Loop.upTo_induction
    (fun k (s : Chart × List Cky) =>
      let found := phrases env s.1 i j k
      (if found.isEmpty then s.1 else setBarrier env (i + k) j s.1, s.2 ++ found))
    (fun k s => AllBuilt env s.1 ∧ CutsTried env chart i j (i + k) s) (Nat.zero_le (j - i)) ?_
    (s := (chart, [])) ⟨hall, .start⟩
  · rw [Nat.add_sub_cancel' hij] at hloop
    exact hloop.2
  rintro k s - - ⟨hall', hs⟩
  refine ⟨?_, hs.step (Nat.le_add_right i k) ((phrases_ne_nil_iff hfix hall' hnoL).trans
    (Merges.congr hs.matrix (hs.other _ (.inr le_rfl))))⟩
  dsimp only
  split
  · exact hall'
  · exact hall'.setBarrier _

theorem fillCell_filledCell (hij : i < j) (hall : AllBuilt env chart)
    (hnoL : ∀ dep gov, env.dpndMatrix dep gov ≠ some 'L') :
    FilledCell env chart i j (fillCell env i j chart) := by
  have hcuts := mergeCells_cutsTried hfix hij.le hall hnoL
  simp only [fillCell, if_neg hij.ne, hfix, if_true, List.append_nil]
  refine ⟨fun a b hab => ?_, ?_, fun d hd => hcuts.other d hd, hcuts.merged, hcuts.kept⟩
  · by_cases ha : a = i
    · obtain rfl := ha
      have hb : b ≠ j := by
        rcases hab with hne | hne
        · exact absurd rfl hne
        · exact hne
      simp [Function.update_of_ne hb, hcuts.matrix]
    · simp [Function.update_of_ne ha, hcuts.matrix]
  · rw [← hcuts.found]
    simp only [Filled, Function.update_self]
    exact prune_ne_nil_iff

end ParaFix

/-! ## One column -/

theorem mayDepend_relaxed (hlast : j + 1 = env.bnstNum) : MayDepend env d j (-1) := by
  obtain ⟨dpndType, htype⟩ : ∃ dpndType,
      checkDpndPossibility env d j d (j + 1 = env.bnstNum && (-1 : Int) = -1) = some dpndType := by
    unfold checkDpndPossibility
    split_ifs with _ _ hmatrix hrelax
    · exact ⟨_, rfl⟩
    · exact ⟨_, rfl⟩
    · simp only [Bool.and_eq_true] at hmatrix
      exact Option.isSome_iff_exists.mp hmatrix.1.1
    · exact ⟨_, rfl⟩
    · simp [hlast] at hrelax
  exact ⟨dpndType, htype, .inr (.inl (by decide))⟩

/-- Before the last column a barrier that is not in front of `j` makes no difference. -/
theorem mayDepend_iff_unset {wall : Int} (hj : j + 1 ≠ env.bnstNum) (hwall : wall ≤ 0 ∨ (j : Int) ≤ wall) :
    MayDepend env d j wall ↔ MayDepend env d j (-1) := by
  simp only [MayDepend, hj, decide_false, Bool.false_and]
  constructor
  · rintro ⟨dpndType, htype, -⟩
    exact ⟨dpndType, htype, .inr (.inl (by decide))⟩
  · rintro ⟨dpndType, htype, -⟩
    exact ⟨dpndType, htype, .inr hwall⟩

/-- Whatever ends with `d` was made longer, before column `j`. -/
def Longer (chart : Chart) (d j : Nat) : Prop :=
  ∃ j', d < j' ∧ j' < j ∧ ∀ i ≤ d, Filled chart i d → Filled chart i j'

/-- A bunsetsu `d`, when the rows from `r` on of column `j` are filled. -/
inductive WallState (env : CkyEnv) (chart : Chart) (j r d : Nat) : Prop
  | longer (h : Longer chart d j)
  | unset (hwall : chart.depCheck d = -1)
      (h : r ≤ d → d < j → ¬ (Filled chart (d + 1) j ∧ MayDepend env d j (-1)))
  | merged (hwall : chart.depCheck d = 0 ∨ chart.depCheck d = j) (hr : r ≤ d) (hd : d < j)
      (hright : Filled chart (d + 1) j) (hpasses : MayDepend env d j (-1))
      (hrows : ∀ i, r ≤ i → i ≤ d → Filled chart i d → Filled chart i j)

theorem FilledCell.longer {chart' : Chart} (h : FilledCell env chart i j chart')
    (hlonger : Longer chart d j) : Longer chart' d j := by
  obtain ⟨j', hdj', hj', hrows⟩ := hlonger
  refine ⟨j', hdj', hj', fun a ha hfilled => ?_⟩
  rw [h.filled_iff (.inr (by omega))] at hfilled ⊢
  exact hrows a ha hfilled

/-- One row further down: a bunsetsu that is put together with `j` in the row where it stands
alone is put together with `j` in every row below. -/
theorem WallState.step {chart' : Chart} (hj : j + 1 ≠ env.bnstNum) (hself : Filled chart i i)
    (hcell : FilledCell env chart i j chart') (h : WallState env chart j (i + 1) d) :
    WallState env chart' j i d := by
  cases h with
  | longer h => exact .longer (hcell.longer h)
  | unset hwall h =>
      by_cases hmerges : i ≤ d ∧ d < j ∧ Merges env chart i j d
      · obtain ⟨hid, hdj, hm⟩ := hmerges
        have hpasses : MayDepend env d j (-1) := hwall ▸ hm.passes
        obtain rfl : d = i := by
          by_contra hne
          exact h (by omega) hdj ⟨hm.right, hpasses⟩
        refine .merged ?_ le_rfl hdj ((hcell.filled_iff (.inl (by omega))).mpr hm.right) hpasses ?_
        · rw [hcell.merged d le_rfl hdj hm]
          rcases setBarrier_depCheck chart d hj with
            hset | hset | ⟨-, hne⟩
          · exact .inr hset
          · exact .inl hset
          · exact absurd hwall hne
        · intro a hda had _
          obtain rfl : a = d := le_antisymm had hda
          exact hcell.filled.mpr ⟨a, le_rfl, hdj, hm⟩
      · have hwall' : chart'.depCheck d = chart.depCheck d := by
          by_cases hd : i ≤ d ∧ d < j
          · exact hcell.kept d hd.1 hd.2 fun hm => hmerges ⟨hd.1, hd.2, hm⟩
          · exact hcell.other d (by omega)
        refine .unset (hwall'.trans hwall) ?_
        rintro hid hdj ⟨hright, hpasses⟩
        rw [hcell.filled_iff (.inl (by omega))] at hright
        rcases Nat.eq_or_lt_of_le hid with rfl | hlt
        · exact hmerges ⟨le_rfl, hdj, hself, hright, hwall ▸ hpasses⟩
        · exact h hlt hdj ⟨hright, hpasses⟩
  | merged hwall hr hdj hright hpasses hrows =>
      refine .merged ?_ (by omega) hdj ((hcell.filled_iff (.inl (by omega))).mpr hright) hpasses ?_
      · by_cases hm : Merges env chart i j d
        · rw [hcell.merged d (by omega) hdj hm]
          rcases setBarrier_depCheck chart d hj with
            hset | hset | ⟨hset, -⟩
          · exact .inr hset
          · exact .inl hset
          · rwa [hset]
        · rwa [hcell.kept d (by omega) hdj hm]
      · intro a hia had hfilled
        rw [hcell.filled_iff (.inr (by omega))] at hfilled
        rcases Nat.eq_or_lt_of_le hia with rfl | hlt
        · -- no barrier in front of `j` shuts the row out
          have hopen : chart.depCheck d ≤ 0 ∨ (j : Int) ≤ chart.depCheck d := by omega
          exact hcell.filled.mpr ⟨d, had, hdj, hfilled, hright,
            (mayDepend_iff_unset hj hopen).mpr hpasses⟩
        · exact (hcell.filled_iff (.inl (by omega))).mpr (hrows a hlt had hfilled)

/-! ## The chart -/

/-- The columns before `j` are filled. -/
structure Columns (env : CkyEnv) (j : Nat) (chart : Chart) : Prop where
  all : AllBuilt env chart
  self : ∀ i < j, Filled chart i i
  wall : ∀ d, chart.depCheck d = -1 ∨ Longer chart d j

theorem Columns.start : Columns env 0 ⟨fun _ _ => [], fun _ => -1⟩ where
  all _ _ _ hc := absurd hc List.not_mem_nil
  self i hi := absurd hi (Nat.not_lt_zero i)
  wall _ := .inl rfl

theorem fillCell_self : (fillCell env j j chart).matrix =
      Function.update chart.matrix j (Function.update (chart.matrix j) j [.leaf j]) ∧
    (fillCell env j j chart).depCheck = chart.depCheck := by
  simp [fillCell]

/-- The cell of one bunsetsu has no cuts. -/
theorem fillCell_self_filled : Filled (fillCell env j j chart) j j := by
  simp [Filled, fillCell_self.1]

theorem fillCell_self_filled_iff {a b : Nat} (hb : b ≠ j) :
    Filled (fillCell env j j chart) a b ↔ Filled chart a b := by
  rw [Filled, Filled, fillCell_self.1]
  by_cases ha : a = j
  · rw [ha, Function.update_self, Function.update_of_ne hb]
  · rw [Function.update_of_ne ha]

theorem fillCell_self_longer (h : Longer chart d j) : Longer (fillCell env j j chart) d j := by
  obtain ⟨j', hdj', hj', hrows⟩ := h
  refine ⟨j', hdj', hj', fun a ha hfilled => ?_⟩
  rw [fillCell_self_filled_iff (by omega)] at hfilled ⊢
  exact hrows a ha hfilled

/-- Column `j`, but the last, is filled down to row `r`. -/
structure Rows (env : CkyEnv) (j r : Nat) (chart : Chart) : Prop where
  all : AllBuilt env chart
  self : ∀ i < j, Filled chart i i
  top : r ≤ j → Filled chart j j
  wall : ∀ d, WallState env chart j r d

/-- The last column is filled down to row `r`. -/
structure LastRows (env : CkyEnv) (j r : Nat) (chart : Chart) : Prop where
  columns : Columns env j chart
  top : r ≤ j → Filled chart j j
  rows : ∀ i d, r ≤ i → i ≤ d → d < j → chart.depCheck d = -1 → Filled chart i d →
    Filled chart (d + 1) j → Filled chart i j

theorem Columns.rows (h : Columns env j chart) : Rows env j j (fillCell env j j chart) where
  all := h.all.fillCell
  self i hi := (fillCell_self_filled_iff (by omega)).mpr (h.self i hi)
  top _ := fillCell_self_filled
  wall d := by
    rcases h.wall d with hunset | hlonger
    · refine .unset ?_ fun hjd hdj => by omega
      rw [fillCell_self.2, hunset]
    · exact .longer (fillCell_self_longer hlonger)

theorem Columns.lastRows (h : Columns env j chart) : LastRows env j j (fillCell env j j chart) where
  columns := ⟨h.all.fillCell, fun i hi => (fillCell_self_filled_iff (by omega)).mpr (h.self i hi),
    fun d => by
      rw [fillCell_self.2]
      exact (h.wall d).imp_right fillCell_self_longer⟩
  top _ := fillCell_self_filled
  rows i d hji hid hdj := by omega

section ParaFix

variable (hfix : env.optParaFix = true) (hnoL : ∀ dep gov, env.dpndMatrix dep gov ≠ some 'L')
include hfix hnoL

theorem Rows.step (hj : j + 1 ≠ env.bnstNum) (hij : i < j) (h : Rows env j (i + 1) chart) :
    Rows env j i (fillCell env i j chart) := by
  have hcell := fillCell_filledCell hfix hij h.all hnoL
  exact ⟨h.all.fillCell, fun a ha => (hcell.filled_iff (.inr (by omega))).mpr (h.self a ha),
    fun _ => (hcell.filled_iff (.inl (by omega))).mpr (h.top hij),
    fun d => (h.wall d).step hj (h.self i hij) hcell⟩

theorem LastRows.step (hj : j + 1 = env.bnstNum) (hij : i < j) (h : LastRows env j (i + 1) chart) :
    LastRows env j i (fillCell env i j chart) := by
  have hcell := fillCell_filledCell hfix hij h.columns.all hnoL
  have hwall : ∀ d, (fillCell env i j chart).depCheck d = chart.depCheck d := by
    intro d
    by_cases hd : i ≤ d ∧ d < j
    · by_cases hm : Merges env chart i j d
      · rw [hcell.merged d hd.1 hd.2 hm, setBarrier_last hj]
      · exact hcell.kept d hd.1 hd.2 hm
    · exact hcell.other d (by omega)
  refine ⟨⟨h.columns.all.fillCell,
    fun a ha => (hcell.filled_iff (.inr (by omega))).mpr (h.columns.self a ha), fun d => ?_⟩,
    fun _ => (hcell.filled_iff (.inl (by omega))).mpr (h.top hij), ?_⟩
  · rw [hwall]
    exact (h.columns.wall d).imp_right hcell.longer
  · intro a d hia had hdj hunset hleft hright
    rw [hwall] at hunset
    rw [hcell.filled_iff (.inr (by omega))] at hleft
    rw [hcell.filled_iff (.inl (by omega))] at hright
    rcases Nat.eq_or_lt_of_le hia with rfl | hlt
    · exact hcell.filled.mpr ⟨d, had, hdj, hleft, hright, hunset ▸ mayDepend_relaxed hj⟩
    · exact (hcell.filled_iff (.inl (by omega))).mpr (h.rows a d hlt had hdj hunset hleft hright)

end ParaFix

/-- `for (i = j; i >= 0; i--)`: the row where `j` stands alone, and those below. -/
theorem column_induction (P : Nat → Chart → Prop) (hself : P j (fillCell env j j chart))
    (hstep : ∀ i < j, ∀ chart, P (i + 1) chart → P i (fillCell env i j chart)) :
    P 0 (Loop.upTo 0 (j + 1) (fun d chart => fillCell env (j - d) j chart) chart) := by
  have h := Loop.upTo_induction (fun d chart => fillCell env (j - d) j chart)
    (fun d chart' => (d = 0 → chart' = chart) ∧ (0 < d → P (j + 1 - d) chart'))
    (Nat.zero_le (j + 1)) (s := chart) ?_ ⟨fun _ => rfl, fun h => absurd h (lt_irrefl 0)⟩
  · simpa using h.2 (Nat.succ_pos j)
  rintro d chart' - hd ⟨hzero, hpos⟩
  refine ⟨fun h => absurd h (Nat.succ_ne_zero d), fun _ => ?_⟩
  rcases Nat.eq_zero_or_pos d with rfl | hd0
  · rw [hzero rfl]
    exact hself
  · have hprev := hpos hd0
    rw [show j + 1 - d = (j - d) + 1 by omega] at hprev
    have := hstep (j - d) (by omega) chart' hprev
    rwa [show j + 1 - (d + 1) = j - d by omega]

/-- `cky` never fails on a sentence: the last cell of the chart has a phrase. -/
theorem cky_filled (env : CkyEnv) (hfix : env.optParaFix = true)
    (hnoL : ∀ dep gov, env.dpndMatrix dep gov ≠ some 'L') (hn : 1 ≤ env.bnstNum) :
    (cky env).matrix 0 (env.bnstNum - 1) ≠ [] := by
  obtain ⟨last, hlast⟩ : ∃ last, env.bnstNum = last + 1 := ⟨env.bnstNum - 1, by omega⟩
  have hcky := Loop.upTo_induction
    (fun j chart => Loop.upTo 0 (j + 1) (fun d chart => fillCell env (j - d) j chart) chart)
    (fun j chart => (j < env.bnstNum → Columns env j chart) ∧
      (j = env.bnstNum → LastRows env last 0 chart)) (Nat.zero_le env.bnstNum)
    (s := ⟨fun _ _ => [], fun _ => -1⟩) ?_ ?_
  · have hrows : LastRows env last 0 (cky env) := hcky.2 rfl
    have hself : ∀ i ≤ last, Filled (cky env) i i := by
      intro i hi
      rcases Nat.eq_or_lt_of_le hi with rfl | hlt
      · exact hrows.top (Nat.zero_le _)
      · exact hrows.columns.self i hlt
    have htop := span_to_last hself (fun d hd => ?_) 0 (Nat.zero_le last)
    · rwa [hlast]
    rcases hrows.columns.wall d with hunset | ⟨j', hdj', hj', hlonger⟩
    · exact .inl fun i hid => hrows.rows i d (Nat.zero_le i) hid hd hunset
    · exact .inr ⟨j', hdj', hj'.le, hlonger⟩
  · rintro j chart - hj ⟨hcols, -⟩
    have hcols := hcols hj
    constructor
    · intro hnext
      have hrows := column_induction (Rows env j) hcols.rows
        fun i hij chart => Rows.step hfix hnoL hnext.ne hij
      refine ⟨hrows.all, fun i hi => ?_, fun d => ?_⟩
      · rcases Nat.lt_succ_iff_lt_or_eq.mp hi with hlt | rfl
        · exact hrows.self i hlt
        · exact hrows.top (Nat.zero_le _)
      · cases hrows.wall d with
        | longer h =>
            obtain ⟨j', hdj', hj', hlonger⟩ := h
            exact .inr ⟨j', hdj', hj'.trans (Nat.lt_succ_self j), hlonger⟩
        | unset hwall => exact .inl hwall
        | merged hwall hr hd hright hpasses hrows =>
            exact .inr ⟨j, hd, Nat.lt_succ_self j, fun i => hrows i (Nat.zero_le i)⟩
    · intro hnext
      obtain rfl : j = last := by omega
      exact column_induction (LastRows env j) hcols.lastRows
        fun i hij chart => LastRows.step hfix hnoL hnext hij
  · exact ⟨fun _ => .start, fun h => by omega⟩

/-- Bunsetsu 0 may only depend on bunsetsu 1, its barrier, and bunsetsu 2 on nothing. -/
def walledEnv : CkyEnv :=
  { plainSentenceEnv 4 true [(0, 1), (1, 2)] [] [] with
    barrierFp := fun b => b = 0
    barrierMatch := fun _ _ => true }

theorem walled_filled : (cky walledEnv).matrix 0 3 ≠ [] := by
  refine cky_filled walledEnv rfl (fun dep gov => ?_) (by decide)
  simp only [walledEnv, plainSentenceEnv]
  split <;> decide

end Knp
