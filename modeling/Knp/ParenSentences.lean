import Mathlib.Algebra.BigOperators.Group.Finset.Piecewise
import Mathlib.Data.Set.Card
import Knp.Paren

/-!
# Where the morphemes go (`quote.c`)

The table of `process_input_paren` places every morpheme: in the sentence, in one of the
extracted sentences, or nowhere. The loop that separates them is read as placing one morpheme
after the other.

> The groups are extracted where all of them open at level 0, unless they are too many or
> the sentence begins with one and ends with one.
-/

namespace Knp.Paren

open Loop BracketPairs

variable {ρ : Type*}

inductive Place
  | main
  | paren (k : Nat)
  | removed
deriving DecidableEq

/-- The groups that begin in front of `p`. -/
def begun (table : Nat → Option ParenMark) (p : Nat) : Nat :=
  (List.range p).countP fun q => table q = some .b

def placeOf (table : Nat → Option ParenMark) (p : Nat) : Place :=
  match table p with
  | none => .main
  | some .i => .paren (begun table p - 1)
  | some _ => .removed

/-- The morphemes of one place, in their order. -/
def placed (mrph : List (MrphData ρ)) (place : Nat → Place) (x : Place) : List (MrphData ρ) :=
  (mrph.zipIdx.filter fun m => place m.2 = x).map Prod.fst

def renumber (l : List (MrphData ρ)) : List (MrphData ρ) := l.mapIdx fun j m => { m with num := j }

section Placed

variable {l : List (MrphData ρ)} {m : MrphData ρ} {place : Nat → Place} {x : Place}
  {table : Nat → Option ParenMark} {i : Nat}

theorem placed_concat : placed (l ++ [m]) place x =
    placed l place x ++ if place l.length = x then [m] else [] := by
  unfold placed
  rw [List.zipIdx_append, List.filter_append, List.map_append]
  congr 1
  by_cases h : place l.length = x <;> simp [h]

theorem renumber_concat : renumber (l ++ [m]) = renumber l ++ [{ m with num := l.length }] :=
  List.mapIdx_concat

theorem length_renumber : (renumber l).length = l.length := List.length_mapIdx

theorem length_placed : (placed l place x).length =
    ((Finset.range l.length).filter fun p => place p = x).card := by
  induction l using List.reverseRecOn with
  | nil => rfl
  | append_singleton l m ih =>
      rw [placed_concat, List.length_append, ih, List.length_append, List.length_singleton,
        Finset.range_add_one, Finset.filter_insert]
      split_ifs
      · rw [Finset.card_insert_of_notMem (by simp)]
        rfl
      · rfl

theorem length_placed_le : (placed l place x).length ≤ l.length := by
  rw [length_placed]
  exact (Finset.card_filter_le _ _).trans_eq (Finset.card_range _)

/-- Every morpheme is counted in one place. -/
theorem sum_placed {n : Nat} (hn : ∀ p < l.length, ∀ k, place p = .paren k → k < n) :
    (placed l place .main).length + ((List.range n).map fun k =>
      (placed l place (.paren k)).length).sum + (placed l place .removed).length = l.length := by
  induction l using List.reverseRecOn with
  | nil => simp [placed]
  | append_singleton l m ih =>
      have hl := ih fun p hp => hn p (by rw [List.length_append]; omega)
      have hsum : ((List.range n).map fun k => (placed (l ++ [m]) place (.paren k)).length).sum =
          ((List.range n).map fun k => (placed l place (.paren k)).length).sum +
            ((List.range n).map fun k => if place l.length = .paren k then 1 else 0).sum := by
        rw [← List.sum_map_add]
        refine congrArg List.sum (List.map_congr_left fun k _ => ?_)
        rw [placed_concat, List.length_append]
        split_ifs <;> rfl
      have hlast := hn l.length (by simp)
      rw [hsum, placed_concat, placed_concat, List.length_append, List.length_append,
        List.length_append, List.length_singleton]
      cases hplace : place l.length with
      | main => simp; omega
      | removed => simp; omega
      | paren k =>
          have hk := hlast k hplace
          have hone : ((List.range n).map fun k' => if Place.paren k = .paren k' then 1 else 0).sum
              = 1 := by
            simp only [Place.paren.injEq]
            exact (Finset.sum_ite_eq ..).trans (if_pos (Finset.mem_range.mpr hk))
          rw [hone]
          simp
          omega

theorem begun_succ : begun table (i + 1) = begun table i + if table i = some .b then 1 else 0 := by
  unfold begun
  rw [List.range_succ, List.countP_append]
  by_cases h : table i = some .b <;> simp [h]

end Placed

/-! ## The separation -/

/-- The state of the separation in front of morpheme `i`, with `n` sentences. -/
structure Separating (mrph : List (MrphData ρ)) (table : Nat → Option ParenMark) (n i : Nat)
    (s : Separation ρ) : Prop where
  rest : ∀ p, i ≤ p → s.mrph[p]? = mrph[p]?
  main : s.mrph.take s.j = renumber (placed (mrph.take i) (placeOf table) .main)
  j : s.j = (placed (mrph.take i) (placeOf table) .main).length
  count : s.count = begun table i - 1
  parens : s.parens.length = n
  paren : ∀ k q, s.parens[k]? = some q → q.mrphNum = q.mrph.length ∧
    q.mrph = renumber (placed (mrph.take i) (placeOf table) (.paren k))

section Separating

variable {mrph : List (MrphData ρ)} {table : Nat → Option ParenMark} {n i : Nat}
  {s : Separation ρ} {m : MrphData ρ}

theorem take_modify_of_le {α : Type*} {l : List α} {f : α → α} {j : Nat} (h : j ≤ i) :
    (l.modify i f).take j = l.take j := by
  refine List.ext_getElem? fun p => ?_
  rw [List.getElem?_take, List.getElem?_take]
  split_ifs with hp
  · rw [List.getElem?_modify_ne _ _ (by omega)]
  · rfl

/-- A morpheme is placed behind those in front of it. -/
theorem placed_take_succ (hm : mrph[i]? = some m) (x : Place) :
    placed (mrph.take (i + 1)) (placeOf table) x =
      placed (mrph.take i) (placeOf table) x ++ if placeOf table i = x then [m] else [] := by
  have hi : i < mrph.length := (List.getElem?_eq_some_iff.mp hm).1
  rw [List.take_add_one, hm, Option.toList_some, placed_concat, List.length_take,
    Nat.min_eq_left hi.le]

/-- A bracket is placed nowhere. -/
theorem placed_take_removed (hm : mrph[i]? = some m) (hplace : placeOf table i = .removed)
    {x : Place} (hx : x ≠ .removed) : placed (mrph.take (i + 1)) (placeOf table) x =
      placed (mrph.take i) (placeOf table) x := by
  rw [placed_take_succ hm, hplace, if_neg hx.symm, List.append_nil]

theorem Separating.j_le (h : Separating mrph table n i s) : s.j ≤ i := by
  rw [h.j]
  exact length_placed_le.trans (List.length_take_le _ _)

/-- The rest of the sentence is moved together. -/
theorem Separating.stepMain (h : Separating mrph table n i s) (hm : mrph[i]? = some m)
    (hnum : m.num = i) (hmark : table i = none) :
    Separating mrph table n (i + 1) (separateTurn table i s) := by
  have hplace : placeOf table i = .main := by rw [placeOf, hmark]
  have hs : s.mrph[i]? = some m := (h.rest i le_rfl).trans hm
  have hi : i < s.mrph.length := (List.getElem?_eq_some_iff.mp hs).1
  have hj := h.j_le
  have hrow : renumber (placed (mrph.take (i + 1)) (placeOf table) .main) =
      s.mrph.take s.j ++ [{ m with num := s.j }] := by
    rw [placed_take_succ hm, if_pos hplace, renumber_concat, ← h.main, ← h.j]
  simp only [separateTurn, hs, hmark]
  refine ⟨fun p hp => ?_, ?_, ?_, ?_, h.parens, fun k q hq => ?_⟩
  · dsimp only
    split_ifs
    · rw [List.getElem?_modify_ne _ _ (by omega), List.getElem?_set_ne (by omega), h.rest p (by omega)]
    · exact h.rest p (by omega)
  · rw [hrow]
    dsimp only
    split_ifs with hne
    · rw [take_modify_of_le (by omega), List.take_add_one, List.take_set_of_le le_rfl,
        List.getElem?_set_self (by omega)]
      rfl
    · obtain rfl : i = s.j := not_not.mp hne
      rw [List.take_add_one, hs]
      rw [← hnum]
      rfl
  · rw [placed_take_succ hm, if_pos hplace, List.length_append, ← h.j]
    rfl
  · rw [begun_succ, hmark, h.count]
    simp
  · rw [placed_take_succ hm, hplace, if_neg (by simp), List.append_nil]
    exact h.paren k q hq

theorem Separating.stepBegin (h : Separating mrph table n i s) (hm : mrph[i]? = some m)
    (hmark : table i = some .b) : Separating mrph table n (i + 1) (separateTurn table i s) := by
  have hplace : placeOf table i = .removed := by rw [placeOf, hmark]
  have hs : s.mrph[i]? = some m := (h.rest i le_rfl).trans hm
  simp only [separateTurn, hs, hmark]
  refine ⟨fun p hp => h.rest p (by omega), ?_, ?_, ?_, ?_, fun k q hq => ?_⟩
  · rw [placed_take_removed hm hplace (by simp)]
    exact h.main
  · rw [placed_take_removed hm hplace (by simp)]
    exact h.j
  · dsimp only
    rw [begun_succ, if_pos hmark, h.count]
    push_cast
    omega
  · dsimp only
    rw [List.length_modify, h.parens]
  · dsimp only at hq
    rw [List.getElem?_modify] at hq
    obtain ⟨q', hq', rfl⟩ := Option.map_eq_some_iff.mp hq
    rw [placed_take_removed hm hplace (by simp)]
    have := h.paren k q' hq'
    split_ifs <;> exact this

theorem Separating.stepInside (h : Separating mrph table n i s) (hm : mrph[i]? = some m)
    (hbegun : 0 < begun table i) (hmark : table i = some .i) :
    Separating mrph table n (i + 1) (separateTurn table i s) := by
  have hplace : placeOf table i = .paren (begun table i - 1) := by rw [placeOf, hmark]
  have hs : s.mrph[i]? = some m := (h.rest i le_rfl).trans hm
  have hj := h.j_le
  have hcount : s.count.toNat = begun table i - 1 := by
    rw [h.count]
    omega
  simp only [separateTurn, hs, hmark]
  refine ⟨fun p hp => ?_, ?_, ?_, ?_, ?_, fun k q hq => ?_⟩
  · dsimp only
    rw [List.getElem?_modify_ne _ _ (by omega), h.rest p (by omega)]
  · dsimp only
    rw [take_modify_of_le hj, placed_take_succ hm, hplace, if_neg (by simp), List.append_nil]
    exact h.main
  · rw [placed_take_succ hm, hplace, if_neg (by simp), List.append_nil]
    exact h.j
  · rw [begun_succ, hmark, h.count]
    simp
  · dsimp only
    rw [List.length_modify, h.parens]
  · dsimp only at hq
    rw [List.getElem?_modify, hcount] at hq
    obtain ⟨q', hq', rfl⟩ := Option.map_eq_some_iff.mp hq
    obtain ⟨hlen, hrow⟩ := h.paren k q' hq'
    rw [placed_take_succ hm, hplace]
    by_cases hk : begun table i - 1 = k
    · rw [if_pos hk, if_pos (congrArg Place.paren hk), renumber_concat, ← hrow]
      dsimp only
      rw [List.length_append, hlen, hrow, length_renumber]
      exact ⟨rfl, rfl⟩
    · rw [if_neg hk, if_neg (by simpa using hk), List.append_nil]
      exact ⟨hlen, hrow⟩

theorem Separating.stepEnd (h : Separating mrph table n i s) (hm : mrph[i]? = some m)
    (hmark : table i = some .e) : Separating mrph table n (i + 1) (separateTurn table i s) := by
  have hplace : placeOf table i = .removed := by rw [placeOf, hmark]
  have hs : s.mrph[i]? = some m := (h.rest i le_rfl).trans hm
  simp only [separateTurn, hs, hmark]
  refine ⟨fun p hp => h.rest p (by omega), ?_, ?_, ?_, h.parens, fun k q hq => ?_⟩
  · rw [placed_take_removed hm hplace (by simp)]
    exact h.main
  · rw [placed_take_removed hm hplace (by simp)]
    exact h.j
  · rw [begun_succ, hmark, h.count]
    simp
  · rw [placed_take_removed hm hplace (by simp)]
    exact h.paren k q hq

/-- The whole loop. -/
theorem Separating.run {s : Separation ρ} (h : Separating mrph table n 0 s)
    (hnum : ∀ p (m : MrphData ρ), mrph[p]? = some m → m.num = p)
    (hbegun : ∀ p, table p = some .i → 0 < begun table p) :
    Separating mrph table n mrph.length (upTo 0 mrph.length (separateTurn table) s) := by
  refine upTo_induction _ (Separating mrph table n) (Nat.zero_le _) (fun i s _ hi hs => ?_) h
  have hm := List.getElem?_eq_getElem hi
  cases hmark : table i with
  | none => exact hs.stepMain hm (hnum i _ hm) hmark
  | some x =>
      cases x with
      | b => exact hs.stepBegin hm hmark
      | i => exact hs.stepInside hm (hbegun i hmark) hmark
      | e => exact hs.stepEnd hm hmark

end Separating

/-! ## The groups in the table -/

/-- A maximal group that is not empty. -/
structure Group (w : Nat → Int) (s e : Nat) : Prop where
  outer : Outer w s e
  inside : s + 1 < e

section Groups

variable {w : Nat → Int} {n p k : Nat} {s : ParenCheck} {groups : List (Nat × Nat)} {g : Nat × Nat}

theorem Checked.lt (h : Checked w n n s groups) (hg : g ∈ groups) : g.1 < g.2 ∧ g.2 < n := by
  obtain ⟨hgroup, hlt⟩ := (h.mem g).mp hg
  exact ⟨hgroup.pair.lt, hlt⟩

/-- In a list of groups one behind the other. -/
theorem countP_begun (hsorted : groups.Pairwise fun g h => g.2 < h.1)
    (hlt : ∀ g ∈ groups, g.1 < g.2) (hk : groups[k]? = some g) (hlo : g.1 < p) (hhi : p ≤ g.2) :
    groups.countP (fun g => g.1 < p) = k + 1 := by
  induction groups generalizing k with
  | nil => cases hk
  | cons g₀ groups ih =>
      obtain ⟨hhead, htail⟩ := List.pairwise_cons.mp hsorted
      cases k with
      | zero =>
          obtain rfl := Option.some.inj hk
          have hrest : groups.countP (fun g => g.1 < p) = 0 :=
            List.countP_eq_zero.mpr fun g' hg' => by
              have := hhead g' hg'
              simp only [decide_eq_true_eq]
              omega
          rw [List.countP_cons_of_pos (by simpa using hlo), hrest]
      | succ k =>
          have hk : groups[k]? = some g := hk
          have := hhead g (List.mem_of_getElem? hk)
          have := hlt g₀ List.mem_cons_self
          rw [List.countP_cons_of_pos (by simp only [decide_eq_true_eq]; omega),
            ih htail (fun g' hg' => hlt g' (List.mem_cons_of_mem _ hg')) hk]

theorem countP_start (hsorted : groups.Pairwise fun g h => g.2 < h.1)
    (hlt : ∀ g ∈ groups, g.1 < g.2) :
    groups.countP (fun g => g.1 = p) = if ∃ g ∈ groups, p = g.1 then 1 else 0 := by
  induction groups with
  | nil => rfl
  | cons g₀ groups ih =>
      obtain ⟨hhead, htail⟩ := List.pairwise_cons.mp hsorted
      have hih := ih htail fun g' hg' => hlt g' (List.mem_cons_of_mem _ hg')
      by_cases hp : g₀.1 = p
      · have hrest : ¬∃ g ∈ groups, p = g.1 := by
          rintro ⟨g', hg', heq⟩
          have := hhead g' hg'
          have := hlt g₀ List.mem_cons_self
          omega
        rw [List.countP_cons_of_pos (by simpa using hp), hih, if_neg hrest,
          if_pos ⟨g₀, List.mem_cons_self, hp.symm⟩]
      · rw [List.countP_cons_of_neg (by simpa using hp), hih]
        refine if_congr ⟨?_, ?_⟩ rfl rfl
        · exact fun ⟨g', hg', heq⟩ => ⟨g', List.mem_cons_of_mem _ hg', heq⟩
        · rintro ⟨g', hg', heq⟩
          rcases List.mem_cons.mp hg' with rfl | hg'
          · exact absurd heq.symm hp
          · exact ⟨g', hg', heq⟩

theorem Checked.begun (h : Checked w n n s groups) (p : Nat) :
    begun s.table p = groups.countP fun g => g.1 < p := by
  induction p with
  | zero => simp [Paren.begun]
  | succ p ih =>
      have hsplit : groups.countP (fun g => g.1 < p + 1) =
          groups.countP (fun g => g.1 < p) + groups.countP fun g => g.1 = p := by
        clear h ih
        induction groups with
        | nil => rfl
        | cons g groups ih =>
            simp only [List.countP_cons, ih, decide_eq_true_eq]
            split_ifs <;> omega
      rw [begun_succ, ih, hsplit, countP_start h.sorted fun g hg => (h.lt hg).1]
      congr 1
      exact if_congr (h.table p .b) rfl rfl

/-- The inside of the groups. -/
theorem Checked.place_paren (h : Checked w n n s groups) :
    placeOf s.table p = .paren k ↔ ∃ g, groups[k]? = some g ∧ g.1 < p ∧ p < g.2 := by
  have hcount : ∀ {k' : Nat} {g : Nat × Nat}, groups[k']? = some g → g.1 < p → p < g.2 →
      Paren.begun s.table p = k' + 1 := fun hk hlo hhi => by
    rw [h.begun, countP_begun h.sorted (fun g hg => (h.lt hg).1) hk hlo hhi.le]
  constructor
  · intro hplace
    unfold placeOf at hplace
    split at hplace
    · cases hplace
    · next hmark =>
        obtain ⟨g, hg, hlo, hhi⟩ := (h.table p .i).mp hmark
        obtain ⟨k', hk'⟩ := List.mem_iff_getElem?.mp hg
        have hbegun := hcount hk' hlo hhi
        obtain rfl : k' = k := by
          have := Place.paren.inj hplace
          omega
        exact ⟨g, hk', hlo, hhi⟩
    · cases hplace
  · rintro ⟨g, hk, hlo, hhi⟩
    have hmark := (h.table p .i).mpr ⟨g, List.mem_of_getElem? hk, hlo, hhi⟩
    simp only [placeOf, hmark, hcount hk hlo hhi, Nat.add_sub_cancel]

theorem Checked.place_removed (h : Checked w n n s groups) :
    placeOf s.table p = .removed ↔ ∃ g ∈ groups, p = g.1 ∨ p = g.2 := by
  have hmarks : placeOf s.table p = .removed ↔ s.table p = some .b ∨ s.table p = some .e := by
    unfold placeOf
    split
    · next hmark => simp [hmark]
    · next hmark => simp [hmark]
    · next x hne hmark => cases x <;> simp_all
  rw [hmarks, h.table p .b, h.table p .e]
  constructor
  · rintro (⟨g, hg, hp⟩ | ⟨g, hg, hp⟩)
    · exact ⟨g, hg, .inl hp⟩
    · exact ⟨g, hg, .inr hp⟩
  · rintro ⟨g, hg, hp | hp⟩
    · exact .inl ⟨g, hg, hp⟩
    · exact .inr ⟨g, hg, hp⟩

theorem Checked.begun_pos (h : Checked w n n s groups) (hp : s.table p = some .i) :
    0 < Paren.begun s.table p := by
  obtain ⟨g, hg, hlo, -⟩ := (h.table p .i).mp hp
  rw [h.begun]
  exact List.countP_pos_iff.mpr ⟨g, hg, by simpa using hlo⟩

/-- Where all maximal groups open at level 0, these are the groups of the table. -/
theorem Checked.mem_iff (h : Checked w n n s groups)
    (hzero : ∀ s e, Group w s e → levelAt w s = 0) (hend : ∀ e, w e = -1 → e < n) :
    g ∈ groups ↔ Group w g.1 g.2 := by
  rw [h.mem]
  constructor
  · rintro ⟨hgroup, -⟩
    exact ⟨.of_level_zero (fun s e ho hi => hzero s e ⟨ho, hi⟩) hgroup.pair hgroup.zero,
      hgroup.inside⟩
  · intro hgroup
    exact ⟨⟨hgroup.outer.pair, hzero _ _ hgroup, hgroup.inside⟩,
      hend _ hgroup.outer.pair.closes⟩

end Groups

/-! ## The extracted sentences -/

/-- The morphemes are those of the array and have the numbers of their positions. -/
structure SentenceData.WellFormed (sp : SentenceData ρ) : Prop where
  length : sp.mrph.length = sp.mrphNum
  num : ∀ p (m : MrphData ρ), sp.mrph[p]? = some m → m.num = p

/-- Each morpheme of `sp` is in the sentence `text`, in one of `parens` or one of the brackets
that have been removed. -/
structure Separated (sp : SentenceData ρ) (place : Nat → Place) (text : SentenceData ρ)
    (parens : List (SentenceData ρ)) : Prop where
  main : text.mrph.take text.mrphNum = renumber (placed sp.mrph place .main)
  mainNum : text.mrphNum = (placed sp.mrph place .main).length
  paren : ∀ k q, parens[k]? = some q → q.mrphNum = q.mrph.length ∧
    q.mrph = renumber (placed sp.mrph place (.paren k))
  bound : ∀ p k, place p = .paren k → k < parens.length
  removed : ∀ p, place p = .removed → goiAt sp.mrph p = PAREN_B ∨ goiAt sp.mrph p = PAREN_E
  total : text.mrphNum + (parens.map (·.mrphNum)).sum + (placed sp.mrph place .removed).length =
    sp.mrphNum

/-- The sentences are the insides of the maximal groups, whose brackets have been removed. -/
structure Extracts (w : Nat → Int) (place : Nat → Place) (n : Nat) : Prop where
  group : ∀ s e, Group w s e → place s = .removed ∧ place e = .removed ∧
    ∃ k < n, ∀ p, place p = .paren k ↔ s < p ∧ p < e
  sentence : ∀ k < n, ∃ s e, Group w s e ∧ ∀ p, place p = .paren k ↔ s < p ∧ p < e
  removed : ∀ p, place p = .removed → ∃ s e, Group w s e ∧ (p = s ∨ p = e)

def TooMany (w : Nat → Int) : Prop := PAREN_MAX ≤ {g : Nat × Nat | Group w g.1 g.2}.ncard

/-- The sentence begins with a group and ends with one. -/
def Embraced (w : Nat → Int) (n : Nat) : Prop := (∃ e, Group w 0 e) ∧ ∃ s, Group w s (n - 1)

section Sentences

variable {sp : SentenceData ρ} {w : Nat → Int} {n p : Nat} {s : ParenCheck}
  {groups : List (Nat × Nat)}

theorem weight_close (hwf : sp.WellFormed) {e : Nat} (he : weight sp.mrph e = -1) :
    e < sp.mrphNum := by
  by_contra hle
  have hnone : sp.mrph[e]? = none := List.getElem?_eq_none (by rw [hwf.length]; omega)
  have hgoi : goiAt sp.mrph e = "" := by rw [goiAt, hnone]; rfl
  rw [weight, hgoi] at he
  exact absurd he (by decide)

theorem Checked.goi_removed (h : Checked (weight sp.mrph) n n s groups)
    (hp : placeOf s.table p = .removed) :
    goiAt sp.mrph p = PAREN_B ∨ goiAt sp.mrph p = PAREN_E := by
  obtain ⟨g, hg, hpg⟩ := h.place_removed.mp hp
  have hpair := ((h.mem g).mp hg).1.pair
  have hw : weight sp.mrph p = 1 ∨ weight sp.mrph p = -1 := by
    rcases hpg with rfl | rfl
    · exact .inl hpair.opens
    · exact .inr hpair.closes
  unfold weight at hw
  split_ifs at hw with hb he
  · exact .inl hb
  · exact .inr he
  · exact absurd hw (by decide)

/-- What the loop has done in the end. -/
theorem Checked.separated (h : Checked (weight sp.mrph) sp.mrphNum sp.mrphNum s groups)
    (hwf : sp.WellFormed) {t : Separation ρ} {text : SentenceData ρ}
    (ht : Separating sp.mrph s.table groups.length sp.mrph.length t) (hmrph : text.mrph = t.mrph)
    (hnum : text.mrphNum = sp.mrphNum - s.mrphNum) :
    Separated sp (placeOf s.table) text t.parens := by
  have hmainNum : text.mrphNum = (placed sp.mrph (placeOf s.table) .main).length := by
    have hsplit := Finset.card_filter_add_card_filter_not (s := Finset.range sp.mrphNum)
      fun p => s.table p ≠ none
    have hplace : ∀ p, placeOf s.table p = .main ↔ ¬s.table p ≠ none := fun p => by
      unfold placeOf
      cases s.table p with
      | none => simp
      | some x => cases x <;> simp
    rw [Finset.card_range, ← h.mrphNum] at hsplit
    rw [length_placed, hwf.length, Finset.filter_congr fun p _ => hplace p, hnum]
    omega
  have hbound : ∀ p k, placeOf s.table p = .paren k → k < t.parens.length := by
    intro p k hp
    obtain ⟨g, hk, -⟩ := h.place_paren.mp hp
    rw [ht.parens]
    exact (List.getElem?_eq_some_iff.mp hk).1
  have hmain := ht.main
  have hj := ht.j
  have hparen := ht.paren
  rw [List.take_length] at hmain hj hparen
  refine ⟨?_, hmainNum, hparen, hbound, fun p hp => h.goi_removed hp, ?_⟩
  · rw [hmrph, hmainNum, ← hj, hmain]
  · have hparens : t.parens.map (·.mrphNum) = (List.range t.parens.length).map fun k =>
        (placed sp.mrph (placeOf s.table) (.paren k)).length := by
      refine List.ext_getElem (by simp) fun k hk _ => ?_
      rw [List.length_map] at hk
      obtain ⟨hlen, hrow⟩ := hparen k _ (List.getElem?_eq_getElem hk)
      rw [List.getElem_map, List.getElem_map, List.getElem_range, hlen, hrow, length_renumber]
    rw [hparens, hmainNum, sum_placed fun p _ k hp => hbound p k hp, hwf.length]

theorem Checked.extracts (h : Checked w n n s groups)
    (hzero : ∀ s e, Group w s e → levelAt w s = 0) (hend : ∀ e, w e = -1 → e < n) :
    Extracts w (placeOf s.table) groups.length := by
  have hinside : ∀ {k : Nat} {g : Nat × Nat}, groups[k]? = some g →
      ∀ p, placeOf s.table p = .paren k ↔ g.1 < p ∧ p < g.2 := by
    intro k g hk p
    rw [h.place_paren]
    constructor
    · rintro ⟨g', hk', hp⟩
      obtain rfl := Option.some.inj (hk.symm.trans hk')
      exact hp
    · exact fun hp => ⟨g, hk, hp⟩
  refine ⟨fun a e hgroup => ?_, fun k hk => ?_, fun p hp => ?_⟩
  · have hg : (a, e) ∈ groups := (h.mem_iff hzero hend).mpr hgroup
    obtain ⟨k, hk⟩ := List.mem_iff_getElem?.mp hg
    exact ⟨h.place_removed.mpr ⟨_, hg, .inl rfl⟩, h.place_removed.mpr ⟨_, hg, .inr rfl⟩, k,
      (List.getElem?_eq_some_iff.mp hk).1, hinside hk⟩
  · have hg := List.getElem?_eq_getElem hk
    exact ⟨_, _, (h.mem_iff hzero hend).mp (List.mem_of_getElem? hg), hinside hg⟩
  · obtain ⟨g, hg, hpg⟩ := h.place_removed.mp hp
    exact ⟨g.1, g.2, (h.mem_iff hzero hend).mp hg, hpg⟩

/-- Nothing is extracted just where the code says so. -/
theorem Checked.skips_iff (h : Checked w sp.mrphNum sp.mrphNum s groups)
    (hzero : ∀ s e, Group w s e → levelAt w s = 0) (hend : ∀ e, w e = -1 → e < sp.mrphNum) :
    skipsParen sp s ↔ (∀ a e, ¬Group w a e) ∨ TooMany w ∨ Embraced w sp.mrphNum := by
  have hmem : ∀ {g}, g ∈ groups ↔ Group w g.1 g.2 := h.mem_iff hzero hend
  have hnodup : groups.Nodup := h.sorted.imp_of_mem fun hg _ hlt heq => by
    have := (h.lt hg).1
    subst heq
    omega
  have hset : {g : Nat × Nat | Group w g.1 g.2} = groups.toFinset := by
    ext g
    rw [Set.mem_ofPred_eq, List.coe_toFinset, Set.mem_ofPred_eq, hmem]
  have hnum : s.num = {g : Nat × Nat | Group w g.1 g.2}.ncard := by
    rw [h.num, hset, Set.ncard_coe_finset, List.toFinset_card_of_nodup hnodup]
  unfold skipsParen TooMany Embraced
  rw [← hnum, h.num, List.length_eq_zero_iff, List.eq_nil_iff_forall_not_mem, h.table 0 .b,
    h.table (sp.mrphNum - 1) .e]
  refine or_congr ⟨fun hno a e hgroup => hno (a, e) (hmem.mpr hgroup),
    fun hno g hg => hno g.1 g.2 (hmem.mp hg)⟩ (or_congr_right (and_congr ?_ ?_))
  · constructor
    · rintro ⟨⟨a, e⟩, hg, rfl : 0 = a⟩
      exact ⟨e, hmem.mp hg⟩
    · exact fun ⟨e, hgroup⟩ => ⟨(0, e), hmem.mpr hgroup, rfl⟩
  · constructor
    · rintro ⟨⟨a, e⟩, hg, heq : _ = e⟩
      exact ⟨a, heq ▸ hmem.mp hg⟩
    · exact fun ⟨a, hgroup⟩ => ⟨(a, _), hmem.mpr hgroup, rfl⟩

theorem separated_self (hwf : sp.WellFormed) : Separated sp (fun _ => .main) sp [] := by
  have hall : placed sp.mrph (fun _ => .main) .main = sp.mrph := by simp [placed]
  have hnone : placed sp.mrph (fun _ => .main) .removed = [] := by simp [placed]
  refine ⟨?_, by rw [hall, hwf.length], fun k q hq => absurd hq (by simp),
    fun p k hp => absurd hp (by simp), fun p hp => absurd hp (by simp), by rw [hnone]; rfl⟩
  rw [hall, ← hwf.length, List.take_length]
  refine List.ext_getElem length_renumber.symm fun p hp _ => ?_
  simp only [renumber, List.getElem_mapIdx]
  generalize hm : sp.mrph[p] = m
  obtain rfl := hwf.num p m (List.getElem?_eq_some_iff.mpr ⟨hp, hm⟩)
  rfl

theorem processInputParen_run (hwf : sp.WellFormed)
    (h : Checked w sp.mrphNum sp.mrphNum (checkParen sp) groups)
    (hskip : ¬skipsParen sp (checkParen sp)) :
    ∃ t text, processInputParen sp = (groups.length, text, t.parens) ∧ text.mrph = t.mrph ∧
      text.mrphNum = sp.mrphNum - (checkParen sp).mrphNum ∧
      Separating sp.mrph (checkParen sp).table groups.length sp.mrph.length t := by
  have hstart : Separating sp.mrph (checkParen sp).table groups.length 0
      ⟨sp.mrph, 0, (List.range (checkParen sp).num).map (newParen sp), -1, 0⟩ := by
    refine ⟨fun p _ => rfl, rfl, rfl, rfl, by simp [h.num], fun k q hq => ?_⟩
    obtain ⟨k', -, rfl⟩ := List.mem_map.mp (List.mem_of_getElem? hq)
    exact ⟨rfl, rfl⟩
  refine ⟨_, ⟨_, sp.mrphNum - (checkParen sp).mrphNum, sp.knpsid ++ "-01",
    (addComment sp "括弧削除").comment⟩, ?_, rfl, rfl, hstart.run hwf.num fun p hp => h.begun_pos hp⟩
  rw [processInputParen, if_neg hskip, ← h.num, hwf.length]
  rfl

end Sentences

/-- Each morpheme ends in one place. If every maximal group opens at level 0, the groups are
extracted, unless there are too many or the sentence is embraced. -/
theorem processInputParen_separates (sp : SentenceData ρ) (hwf : sp.WellFormed) :
    ∃ num text parens place, processInputParen sp = (num, text, parens) ∧ num = parens.length ∧
      Separated sp place text parens ∧
      ((∀ s e, Group (weight sp.mrph) s e → levelAt (weight sp.mrph) s = 0) →
        (TooMany (weight sp.mrph) ∨ Embraced (weight sp.mrph) sp.mrphNum →
          text = sp ∧ parens = []) ∧
        (¬TooMany (weight sp.mrph) → ¬Embraced (weight sp.mrph) sp.mrphNum →
          Extracts (weight sp.mrph) place parens.length)) := by
  obtain ⟨groups, h⟩ := checked sp
  have hend : ∀ e, weight sp.mrph e = -1 → e < sp.mrphNum := fun e he => weight_close hwf he
  by_cases hskip : skipsParen sp (checkParen sp)
  · refine ⟨0, sp, [], fun _ => .main, by rw [processInputParen, if_pos hskip], rfl,
      separated_self hwf, fun hzero => ⟨fun _ => ⟨rfl, rfl⟩, fun hfew hopen => ?_⟩⟩
    have hnone := ((h.skips_iff hzero hend).mp hskip).resolve_right (not_or.mpr ⟨hfew, hopen⟩)
    exact ⟨fun a e hgroup => absurd hgroup (hnone a e), fun k hk => absurd hk (Nat.not_lt_zero k),
      fun p hp => by cases hp⟩
  · obtain ⟨t, text, heq, hmrph, hnum, hrun⟩ := processInputParen_run hwf h hskip
    refine ⟨_, _, _, placeOf (checkParen sp).table, heq, hrun.parens.symm,
      h.separated hwf hrun hmrph hnum, fun hzero => ⟨fun hno => ?_, fun _ _ => ?_⟩⟩
    · exact absurd ((h.skips_iff hzero hend).mpr (.inr hno)) hskip
    · rw [hrun.parens]
      exact h.extracts hzero hend

/-- A sentence of these words. -/
def sentenceOf (words : List String) : SentenceData Unit :=
  ⟨words.mapIdx fun i goi => ⟨goi, goi, i, [], ()⟩, words.length, "S-ID:1", none⟩

theorem sentenceOf_wellFormed (words : List String) : (sentenceOf words).WellFormed := by
  refine ⟨by simp [sentenceOf], fun p m hm => ?_⟩
  simp only [sentenceOf, List.getElem?_mapIdx, Option.map_eq_some_iff] at hm
  obtain ⟨goi, -, rfl⟩ := hm
  rfl

/-- A sentence that is embraced by two groups is left as it is. -/
theorem embraced_not_extracted :
    let sp := sentenceOf ["（", "a", "）", "（", "b", "）"]
    Group (weight sp.mrph) 0 2 ∧ Group (weight sp.mrph) 3 5 ∧ ¬Group (weight sp.mrph) 0 5 ∧
      processInputParen sp = (0, sp, []) := by
  intro sp
  have hfirst : Pair (weight sp.mrph) 0 2 := by decide
  have hlast : Pair (weight sp.mrph) 3 5 := by decide
  refine ⟨⟨.of_nonneg hfirst rfl fun k hk => absurd hk (Nat.not_lt_zero k), by decide⟩,
    ⟨.of_nonneg hlast (by decide) (by decide), by decide⟩, fun hwhole => ?_, ?_⟩
  · exact absurd (hwhole.outer.pair.end_unique hfirst) (by decide)
  · rw [processInputParen, if_pos (by decide)]

/-- One group in the middle. -/
theorem oneGroup_extracted :
    let sp := sentenceOf ["a", "（", "b", "）", "c"]
    ∃ num text parens place, processInputParen sp = (num, text, parens) ∧
      Separated sp place text parens ∧ Extracts (weight sp.mrph) place parens.length := by
  intro sp
  have hwf : sp.WellFormed := sentenceOf_wellFormed _
  have honly : ∀ {s e}, Group (weight sp.mrph) s e → s = 1 ∧ e = 3 := by
    intro s e hgroup
    have hbrackets : ∀ p < 5, (weight sp.mrph p = 1 → p = 1) ∧ (weight sp.mrph p = -1 → p = 3) := by
      decide
    have hpair := hgroup.outer.pair
    have he := weight_close hwf hpair.closes
    exact ⟨(hbrackets s (hpair.lt.trans he)).1 hpair.opens, (hbrackets e he).2 hpair.closes⟩
  obtain ⟨num, text, parens, place, heq, -, hsep, hext⟩ := processInputParen_separates sp hwf
  refine ⟨num, text, parens, place, heq, hsep, (hext fun s e hgroup => ?_).2 ?_ ?_⟩
  · rw [(honly hgroup).1]
    rfl
  · have hsubset : {g : Nat × Nat | Group (weight sp.mrph) g.1 g.2} ⊆ {(1, 3)} :=
      fun g hg => Prod.ext (honly hg).1 (honly hg).2
    have hcard := Set.ncard_le_ncard hsubset
    rw [Set.ncard_singleton] at hcard
    exact fun hmany => absurd (Nat.le_trans hmany hcard) (by decide)
  · rintro ⟨⟨e, hgroup⟩, -⟩
    exact absurd (honly hgroup).1 (by decide)

end Knp.Paren
