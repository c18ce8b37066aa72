import Knp.MrphRuns

/-!
# The morphemes after merging

The places whose base form was emptied are closed up in place: each morpheme moves to the front
by the number of those that are gone before it.
-/

namespace Knp.MrphMerge

open FeatureBytes

/-! ## Closing up -/

/-- Not merged into another. -/
def kept (m : MrphSlot) : Bool := m.fields.goi ≠ []

/-- The number of the places before `k` that are kept. -/
def place (u : Nat → MrphSlot) : Nat → Nat
  | 0 => 0
  | k + 1 => place u k + if kept (u k) then 1 else 0

/-- What is moved with a morpheme. -/
def moved (m : MrphSlot) : MrphFields × FeatureList := (m.fields, m.f)

/-- What stays with the place. -/
def stays (m : MrphSlot) : Nat × List UInt8 × List UInt8 := (m.length, m.pos, m.type)

section Reset

variable {u w : Nat → MrphSlot} {sp : MrphSentence} {i k n : Nat}

theorem kept_iff {m : MrphSlot} : kept m = true ↔ m.fields.goi ≠ [] := by
  simp [kept]

theorem place_le : place u k ≤ k := by
  induction k with
  | zero => exact Nat.le_refl 0
  | succ k ih =>
      rw [place]
      split <;> omega

theorem place_mono (h : k ≤ i) : place u k ≤ place u i := by
  induction h with
  | refl => exact Nat.le_refl _
  | step _ ih => exact Nat.le_trans ih (Nat.le_add_right _ _)

theorem place_lt (h : k < i) (hk : kept (u k) = true) : place u k < place u i := by
  have hnext : place u (k + 1) = place u k + 1 := by rw [place, if_pos hk]
  have hmono : place u (k + 1) ≤ place u i := place_mono h
  omega

/-- The number of those that are gone, and for the others how many are gone before. -/
theorem moveTable_spec (h0 : kept (sp.mrph 0) = true) (hn : 1 ≤ sp.mrphNum) :
    (moveTable sp).1 = sp.mrphNum - place sp.mrph sp.mrphNum ∧
      ∀ k, 1 ≤ k → k < sp.mrphNum →
        (moveTable sp).2 k = if kept (sp.mrph k) then k - place sp.mrph k else 0 := by
  unfold moveTable
  refine Loop.upTo_induction _ (fun i (s : Nat × (Nat → Nat)) => s.1 = i - place sp.mrph i ∧
    ∀ k, 1 ≤ k → k < i → s.2 k = if kept (sp.mrph k) then k - place sp.mrph k else 0) hn ?_ ?_
  · rintro i s hi - ⟨hcount, htable⟩
    have hle : place sp.mrph i ≤ i := place_le
    have htable' : ∀ x k, 1 ≤ k → k < i + 1 →
        (x = if kept (sp.mrph i) then i - place sp.mrph i else 0) →
        Function.update s.2 i x k = if kept (sp.mrph k) then k - place sp.mrph k else 0 := by
      intro x k hk hlt hx
      rcases Nat.lt_succ_iff_lt_or_eq.mp hlt with hlt | rfl
      · rw [Function.update_of_ne (by omega)]
        exact htable k hk hlt
      · rw [Function.update_self, hx]
    by_cases hgoi : (sp.mrph i).fields.goi = []
    · have hkept : ¬kept (sp.mrph i) = true := fun h => kept_iff.mp h hgoi
      rw [if_pos hgoi]
      refine ⟨?_, fun k hk hlt => htable' 0 k hk hlt (if_neg hkept).symm⟩
      rw [place, if_neg hkept]
      dsimp only
      omega
    · have hkept : kept (sp.mrph i) = true := kept_iff.mpr hgoi
      rw [if_neg hgoi]
      refine ⟨?_, fun k hk hlt => htable' s.1 k hk hlt (by rw [if_pos hkept, hcount])⟩
      rw [place, if_pos hkept]
      dsimp only
      omega
  · refine ⟨?_, fun k hk hlt => by omega⟩
    rw [place, place, if_pos h0]

/-- The moves so far. -/
structure MovedTo (u : Nat → MrphSlot) (i : Nat) (w : Nat → MrphSlot) : Prop where
  behind : ∀ k, i ≤ k → w k = u k
  moved : ∀ k, k < i → kept (u k) = true → moved (w (place u k)) = moved (u k)
  stays : ∀ k, stays (w k) = stays (u k)

theorem resetMrph_moved (h0 : kept (sp.mrph 0) = true) (hn : 1 ≤ sp.mrphNum) :
    MovedTo sp.mrph sp.mrphNum (resetMrph sp).mrph := by
  refine Loop.upTo_induction _ (fun i w => MovedTo sp.mrph i w) hn ?_ ?_
  · rintro i w hi hlt h
    have htable := (moveTable_spec h0 hn).2 i hi hlt
    have hle : place sp.mrph i ≤ i := place_le
    by_cases hkept : kept (sp.mrph i) = true
    · rw [if_pos hkept] at htable
      rw [htable, Nat.sub_sub_self hle]
      split_ifs with hmove
      · have hne : place sp.mrph i ≠ i := by omega
        refine ⟨fun k hk => ?_, fun k hk hkk => ?_, fun k => ?_⟩
        · rw [Function.update_of_ne (by omega), Function.update_of_ne (by omega)]
          exact h.behind k (by omega)
        · rcases Nat.lt_succ_iff_lt_or_eq.mp hk with hk | rfl
          · have hplace := place_lt (u := sp.mrph) hk hkk
            rw [Function.update_of_ne (by omega), Function.update_of_ne (by omega)]
            exact h.moved k hk hkk
          · rw [Function.update_of_ne hne, Function.update_self]
            rw [h.behind k (Nat.le_refl k)]
            rfl
        · by_cases hki : k = i
          · subst hki
            rw [Function.update_self]
            exact h.stays k
          · rw [Function.update_of_ne hki]
            by_cases hkp : k = place sp.mrph i
            · subst hkp
              rw [Function.update_self]
              exact h.stays _
            · rw [Function.update_of_ne hkp]
              exact h.stays k
      · have heq : place sp.mrph i = i := by omega
        refine ⟨fun k hk => h.behind k (by omega), fun k hk hkk => ?_, h.stays⟩
        rcases Nat.lt_succ_iff_lt_or_eq.mp hk with hk | rfl
        · exact h.moved k hk hkk
        · rw [heq, h.behind k (Nat.le_refl k)]
    · rw [if_neg hkept] at htable
      rw [htable, if_neg (Nat.lt_irrefl 0)]
      refine ⟨fun k hk => h.behind k (by omega), fun k hk hkk => ?_, h.stays⟩
      rcases Nat.lt_succ_iff_lt_or_eq.mp hk with hk | rfl
      · exact h.moved k hk hkk
      · exact absurd hkk hkept
  · refine ⟨fun _ _ => rfl, fun k hk _ => ?_, fun _ => rfl⟩
    obtain rfl : k = 0 := by omega
    rfl

theorem map_place (h : ∀ k, k < n → kept (u k) = true → moved (w (place u k)) = moved (u k)) :
    (List.range (place u n)).map (fun j => moved (w j)) =
      (((List.range n).map u).filter kept).map moved := by
  induction n with
  | zero => rfl
  | succ n ih =>
      rw [List.range_succ, List.map_append, List.filter_append, List.map_append,
        ← ih fun k hk => h k (by omega), place]
      by_cases hkept : kept (u n) = true
      · rw [if_pos hkept, List.range_succ, List.map_append]
        simp [hkept, h n (Nat.lt_succ_self n) hkept]
      · rw [if_neg hkept]
        simp [hkept]

/-- **Closing up.** -/
theorem resetMrph_spec (h0 : 1 ≤ sp.mrphNum → kept (sp.mrph 0) = true) :
    (mrphs (resetMrph sp)).map moved = ((mrphs sp).filter kept).map moved ∧
      ∀ k, stays ((resetMrph sp).mrph k) = stays (sp.mrph k) := by
  rcases Nat.eq_zero_or_pos sp.mrphNum with hzero | hn
  · have hreset : (resetMrph sp).mrph = sp.mrph := by
      unfold resetMrph Loop.upTo
      dsimp only
      rw [hzero]
      rfl
    have hnum : (resetMrph sp).mrphNum = 0 := by
      unfold resetMrph
      dsimp only
      omega
    unfold mrphs
    rw [hnum, hzero, hreset]
    exact ⟨rfl, fun _ => rfl⟩
  · have hmoved := resetMrph_moved (h0 hn) hn
    have hnum : (resetMrph sp).mrphNum = place sp.mrph sp.mrphNum := by
      have hle : place sp.mrph sp.mrphNum ≤ sp.mrphNum := place_le
      show sp.mrphNum - (moveTable sp).1 = _
      rw [(moveTable_spec (h0 hn) hn).1, Nat.sub_sub_self hle]
    refine ⟨?_, hmoved.stays⟩
    unfold mrphs
    rw [hnum, List.map_map]
    exact map_place hmoved.moved

end Reset

/-! ## All runs -/

/-- The runs, what is then in the places, and the lists that are freed. -/
inductive SettledAll : List (List MrphSlot) → List MrphSlot → List (Option Nat) → Prop
  | nil : SettledAll [] [] []
  | cons {run : List MrphSlot} {runs : List (List MrphSlot)} {block blocks : List MrphSlot}
      {freed rest : List (Option Nat)}
      (hshort : ∀ m ∈ run, ∀ t, markOf m = some t → t.length < SMALL_DATA_LEN)
      (h : Settled run block freed) (hrest : SettledAll runs blocks rest) :
      SettledAll (run :: runs) (block ++ blocks) (freed ++ rest)

/-- What a maximal run is like. -/
structure WellMarked (run : List MrphSlot) : Prop where
  shape : (∃ m, run = [m] ∧ markOf m = none) ∨ ∃ t, run ≠ [] ∧ ∀ m ∈ run, markOf m = some t
  one : ∀ m ∈ run, (m.f.cps.filter (utf8 "形態素連結-").isPrefixOf).length ≤ 1

section All

variable {sp sp' : MrphSentence} {s : Nat} {run block l : List MrphSlot}
  {rs : List (List MrphSlot)} {freed : List (Option Nat)}

theorem Settled.length_eq (h : Settled run block freed) : block.length = run.length := by
  cases h <;> simp

theorem closeBlock_settles (hrun : segment sp s run.length = run) (hmarked : WellMarked run)
    (h : closeBlock sp s run = some sp') :
    (∀ m ∈ run, ∀ t, markOf m = some t → t.length < SMALL_DATA_LEN) ∧ Settles sp s run sp' := by
  rcases hmarked.shape with ⟨m, rfl, hm⟩ | ⟨t, hne, hmark⟩
  · rw [closeBlock_unmarked hm] at h
    obtain rfl := Option.some.inj h
    refine ⟨by simp [hm], rfl, ⟨[], ?_, (List.append_nil _).symm⟩, fun _ _ => rfl⟩
    rw [hrun]
    exact .unmarked hm
  · rw [closeBlock_marked hne hmark] at h
    obtain ⟨t', hcopy, h⟩ := Option.bind_eq_some_iff.mp h
    obtain ⟨rfl, hshort⟩ := copyType_eq_some.mp hcopy
    refine ⟨fun m hm t' ht' => ?_, closeRun_settles hrun hne hmark hmarked.one h⟩
    obtain rfl := Option.some.inj ((hmark m hm).symm.trans ht')
    exact hshort

theorem segment_append {len len' : Nat} :
    segment sp s (len + len') = segment sp s len ++ segment sp (s + len) len' := by
  unfold segment
  rw [← List.range'_append_1, List.map_append]

theorem closeAll_settles (hseg : segment sp s rs.flatten.length = rs.flatten)
    (hmarked : ∀ run ∈ rs, WellMarked run) (h : closeAll sp s rs = some sp') :
    ∃ freed, SettledAll rs (segment sp' s rs.flatten.length) freed ∧
      sp'.freed = sp.freed ++ freed ∧ sp'.mrphNum = sp.mrphNum ∧
      ∀ j, j < s → sp'.mrph j = sp.mrph j := by
  induction rs generalizing sp s with
  | nil =>
      obtain rfl := Option.some.inj h
      exact ⟨[], .nil, (List.append_nil _).symm, rfl, fun _ _ => rfl⟩
  | cons run rs ih =>
      obtain ⟨sp₁, hclose, h⟩ := Option.bind_eq_some_iff.mp h
      rw [List.flatten_cons, List.length_append, segment_append] at hseg
      obtain ⟨hrun, hrest⟩ := List.append_inj hseg segment_length
      obtain ⟨hshort, hsettles⟩ := closeBlock_settles hrun (hmarked run List.mem_cons_self) hclose
      obtain ⟨freed₁, hsettled, hfreed₁⟩ := hsettles.settled
      have hseg₁ : segment sp₁ (s + run.length) rs.flatten.length = rs.flatten :=
        (segment_congr fun j hlo _ => hsettles.outside j (.inr hlo)).trans hrest
      obtain ⟨freed₂, hall, hfreed₂, hnum, houtside⟩ :=
        ih hseg₁ (fun run hrun => hmarked run (List.mem_cons_of_mem _ hrun)) h
      refine ⟨freed₁ ++ freed₂, ?_, ?_, hnum.trans hsettles.num, fun j hj => ?_⟩
      · rw [List.flatten_cons, List.length_append, segment_append]
        refine .cons hshort ?_ hall
        rw [segment_congr fun j _ hhi => houtside j hhi]
        exact hsettled
      · rw [hfreed₂, hfreed₁, List.append_assoc]
      · rw [houtside j (by omega), hsettles.outside j (.inl hj)]

/-! ## What the closed runs are -/

/-- What is left of a run, and its lists. -/
theorem Settled.kept (h : Settled run block freed) (hgoi : ∀ m ∈ run, m.fields.goi ≠ []) :
    Replaced run (block.filter kept) ∧
      List.Perm ((block.filter MrphMerge.kept).map (·.f.home) ++ freed) (run.map (·.f.home)) := by
  cases h with
  | @unmarked m hmark =>
      rw [List.filter_cons_of_pos (kept_iff.mpr (hgoi m List.mem_cons_self))]
      exact ⟨.unmarked hmark, .refl _⟩
  | @merged m m' rest hmark hfits hm' hyomi hgoi2 _ hhome _ =>
      have hkept : MrphMerge.kept m' = true := by
        rw [kept_iff, hm']
        exact fun h => hgoi m List.mem_cons_self (List.append_eq_nil_iff.mp h).1
      have hrest : (rest.map emptied).filter MrphMerge.kept = [] := by
        simp [MrphMerge.kept, emptied]
      rw [List.filter_cons_of_pos hkept, hrest]
      refine ⟨.merged hmark hfits hm' hyomi hgoi2, ?_⟩
      rw [List.map_cons, hhome]
      exact .refl _
  | @rejected m rest hmark hfits =>
      rw [List.filter_eq_self.mpr]
      · refine ⟨.rejected hmark hfits, ?_⟩
        rw [List.append_nil, List.map_map]
        exact .refl _
      · intro m' hm'
        obtain ⟨m'', hm'', rfl⟩ := List.mem_map.mp hm'
        exact kept_iff.mpr (hgoi m'' hm'')

theorem SettledAll.kept (h : SettledAll rs block freed)
    (hgoi : ∀ m ∈ rs.flatten, m.fields.goi ≠ []) :
    (∃ blocks, List.Forall₂ Replaced rs blocks ∧ blocks.flatten = block.filter MrphMerge.kept) ∧
      List.Perm ((block.filter MrphMerge.kept).map (·.f.home) ++ freed)
        (rs.flatten.map (·.f.home)) := by
  induction h with
  | nil => exact ⟨⟨[], .nil, rfl⟩, .refl _⟩
  | @cons run runs block blocks freed rest _ h _ ih =>
      rw [List.flatten_cons, List.forall_mem_append] at hgoi
      obtain ⟨hreplaced, hlists⟩ := h.kept hgoi.1
      obtain ⟨⟨bs, hbs, hflat⟩, hlists'⟩ := ih hgoi.2
      refine ⟨⟨_ :: bs, .cons hreplaced hbs, ?_⟩, ?_⟩
      · rw [List.flatten_cons, hflat, List.filter_append]
      · rw [List.filter_append, List.map_append, List.flatten_cons, List.map_append]
        refine List.Perm.trans ?_ (hlists.append hlists')
        rw [List.append_assoc, List.append_assoc]
        refine List.Perm.append_left _ ?_
        rw [← List.append_assoc, ← List.append_assoc]
        exact List.Perm.append_right _ List.perm_append_comm

/-- The first place is never emptied. -/
theorem SettledAll.head (h : SettledAll rs block freed)
    (hgoi : ∀ m ∈ rs.flatten, m.fields.goi ≠ []) : ∀ m ∈ block.head?, MrphMerge.kept m = true := by
  cases h with
  | nil => simp
  | @cons run runs block blocks freed rest _ h _ =>
      rw [List.flatten_cons, List.forall_mem_append] at hgoi
      intro b hb
      have hmem : b ∈ block.head? := by
        cases h <;> exact hb
      cases h with
      | @unmarked m _ =>
          obtain rfl := Option.some.inj hmem
          exact kept_iff.mpr (hgoi.1 _ List.mem_cons_self)
      | @merged m m' rest _ _ hm' _ _ _ _ _ =>
          obtain rfl := Option.some.inj hmem
          rw [kept_iff, hm']
          exact fun h => hgoi.1 m List.mem_cons_self (List.append_eq_nil_iff.mp h).1
      | @rejected m rest _ _ =>
          obtain rfl := Option.some.inj hmem
          exact kept_iff.mpr (hgoi.1 m List.mem_cons_self)

end All

/-! ## The whole -/

section Whole

variable {sp sp' : MrphSentence}

theorem mrphs_eq : mrphs sp = segment sp 0 sp.mrphNum := by
  unfold mrphs segment
  rw [List.range_eq_range']

theorem runs_flatten : (runs (mrphs sp)).flatten = mrphs sp := List.flatten_splitBy _ _

theorem ReadMrphs.wellMarked (h : ReadMrphs sp) : ∀ run ∈ runs (mrphs sp), WellMarked run :=
  fun run hrun => ⟨mem_runs hrun, fun m hm =>
    h.mark m (runs_flatten ▸ List.mem_flatten.mpr ⟨run, hrun, hm⟩)⟩

/-- The sentence before the places are closed up. -/
theorem preprocessMrph_eq : preprocessMrph false sp =
    (closeAll sp 0 (runs (mrphs sp))).map resetMrph := by
  have hloop := (loopFrom_eq (o := sp.mrph) (d := sp.mrphNum)).1 0 sp 0 fun _ _ => rfl
  have hlist : (List.range' 0 sp.mrphNum).map sp.mrph = mrphs sp := by
    rw [mrphs, List.range_eq_range']
  rw [hlist] at hloop
  rw [← hloop]
  unfold preprocessMrph loopFrom closeLast
  rw [if_neg Bool.false_ne_true, List.range_eq_range', Nat.zero_add]
  cases hrun : (List.range' 0 sp.mrphNum).foldlM preprocessTurn ⟨sp, [], 0⟩ with
  | none => rfl
  | some st =>
      by_cases hopen : st.mergeType = []
      · simp [hopen]
      · simp [hopen, Option.map_eq_bind]

theorem ReadMrphs.freed (h : ReadMrphs sp) : sp.freed = [] := by
  have hlen := h.lists.length_eq
  rw [List.length_append, List.length_map, List.length_map, List.length_range, mrphs,
    List.length_map, List.length_range] at hlen
  exact List.length_eq_zero_iff.mp (by omega)

/-- What the closing of the runs leaves, if it is defined. -/
theorem closeAll_closed (hread : ReadMrphs sp) (h : closeAll sp 0 (runs (mrphs sp)) = some sp') :
    sp'.mrphNum = sp.mrphNum ∧ SettledAll (runs (mrphs sp)) (mrphs sp') sp'.freed := by
  have hlen : (runs (mrphs sp)).flatten.length = sp.mrphNum := by
    rw [runs_flatten, mrphs_eq, segment_length]
  have hseg : segment sp 0 (runs (mrphs sp)).flatten.length = (runs (mrphs sp)).flatten := by
    rw [hlen, runs_flatten, mrphs_eq]
  obtain ⟨freed, hall, hfreed, hnum, -⟩ := closeAll_settles hseg hread.wellMarked h
  refine ⟨hnum, ?_⟩
  rw [hlen, ← hnum, ← mrphs_eq] at hall
  rw [hfreed, hread.freed, List.nil_append]
  exact hall

/-- **What is merged.** Each run is replaced as it should be, and no list of features is lost or
with two morphemes. -/
theorem preprocessMrph_replaces (hread : ReadMrphs sp) (h : preprocessMrph false sp = some sp') :
    (∃ blocks, List.Forall₂ Replaced (runs (mrphs sp)) blocks ∧
      (mrphs sp').map moved = blocks.flatten.map moved) ∧ ListsKept sp sp' := by
  rw [preprocessMrph_eq] at h
  obtain ⟨sp₁, hclose, rfl⟩ := Option.map_eq_some_iff.mp h
  obtain ⟨hnum, hall⟩ := closeAll_closed hread hclose
  have hgoi : ∀ m ∈ (runs (mrphs sp)).flatten, m.fields.goi ≠ [] := by
    rw [runs_flatten]
    exact hread.goi
  have hhead : 1 ≤ sp₁.mrphNum → kept (sp₁.mrph 0) = true := by
    intro hpos
    refine hall.head hgoi _ ?_
    rw [mrphs, List.head?_map, List.head?_range, if_neg (by omega)]
    rfl
  obtain ⟨hmoved, -⟩ := resetMrph_spec hhead
  obtain ⟨⟨blocks, hblocks, hflat⟩, hlists⟩ := hall.kept hgoi
  refine ⟨⟨blocks, hblocks, by rw [hmoved, hflat]⟩, ?_⟩
  have hhome : (mrphs (resetMrph sp₁)).map (·.f.home) =
      ((mrphs sp₁).filter kept).map (·.f.home) := by
    have hcongr := congrArg (List.map fun x : MrphFields × FeatureList => x.2.home) hmoved
    rw [List.map_map, List.map_map] at hcongr
    exact hcongr
  have hread_lists := hread.lists
  unfold ListsKept at hread_lists ⊢
  rw [hread.freed, List.append_nil] at hread_lists
  rw [hhome]
  rw [runs_flatten] at hlists
  exact hlists.trans hread_lists

/-! ## The lengths -/

/-- Nothing of two or more morphemes is merged, and what is done is defined. -/
def Unmerged (inputParsed : Bool) (sp : MrphSentence) : Prop :=
  ∀ m rest, (m :: rest) ∈ runs (mrphs sp) → ∀ t, markOf m = some t →
    if inputParsed then rest = [] ∧ Fits [m]
    else t.length < SMALL_DATA_LEN ∧ (Fits (m :: rest) → rest = [] ∧ RepEnds m)

theorem Replaced.goi2 {run block : List MrphSlot} (h : Replaced run block) :
    joined MrphFields.goi2 block = joined MrphFields.goi2 run := by
  cases h with
  | unmarked => rfl
  | merged _ _ _ _ hgoi2 => rw [joined_singleton, hgoi2]
  | rejected =>
      unfold joined
      rw [List.flatMap_map]
      rfl

theorem Replaced.goi2_all {rs blocks : List (List MrphSlot)}
    (h : List.Forall₂ Replaced rs blocks) :
    joined MrphFields.goi2 blocks.flatten = joined MrphFields.goi2 rs.flatten := by
  induction h with
  | nil => rfl
  | cons h _ ih =>
      rw [List.flatten_cons, List.flatten_cons, joined_append, joined_append, h.goi2, ih]

theorem Settled.lengths {run block : List MrphSlot} {freed : List (Option Nat)}
    (h : Settled run block freed) : block.map MrphSlot.length = run.map MrphSlot.length := by
  cases h with
  | unmarked => rfl
  | @merged m m' rest _ _ _ _ _ hlength _ _ =>
      rw [List.map_cons, List.map_cons, hlength, List.map_map]
      rfl
  | rejected =>
      rw [List.map_map]
      rfl

theorem SettledAll.lengths {rs : List (List MrphSlot)} {block : List MrphSlot}
    {freed : List (Option Nat)} (h : SettledAll rs block freed) :
    block.map MrphSlot.length = rs.flatten.map MrphSlot.length := by
  induction h with
  | nil => rfl
  | cons _ h _ ih => rw [List.map_append, h.lengths, ih, List.flatten_cons, List.map_append]

/-- The first part of positive numbers has the sum of all only if it is all. -/
theorem length_le_of_sum_take {l : List Nat} {k : Nat} (hpos : ∀ x ∈ l, 0 < x)
    (h : (l.take k).sum = l.sum) : l.length ≤ k := by
  have hsum : (l.take k).sum + (l.drop k).sum = l.sum := by
    rw [← List.sum_append, List.take_append_drop]
  have hdrop : (l.drop k).sum = 0 := by omega
  refine List.drop_eq_nil_iff.mp (List.eq_nil_iff_forall_not_mem.mpr fun x hx => ?_)
  have hzero : x = 0 := List.sum_eq_zero_iff_forall_eq_nat.mp hdrop x hx
  have hlt := hpos x (List.mem_of_mem_drop hx)
  omega

/-- Where all lengths are right, no place is closed up. -/
theorem mrphNum_of_lengths {sp₁ : MrphSentence} (hread : ReadMrphs sp)
    (hnum : sp₁.mrphNum = sp.mrphNum)
    (hall : SettledAll (runs (mrphs sp)) (mrphs sp₁) sp₁.freed)
    (hstays : ∀ k, stays (sp'.mrph k) = stays (sp₁.mrph k)) (hle : sp'.mrphNum ≤ sp.mrphNum)
    (hmerges : Merges sp sp') : sp'.mrphNum = sp.mrphNum := by
  obtain ⟨blocks, hblocks, hflat⟩ := hmerges.runs
  have hlengths := hall.lengths
  rw [runs_flatten] at hlengths
  have htake : (mrphs sp').map MrphSlot.length =
      ((mrphs sp).map fun m => m.fields.goi2.length).take sp'.mrphNum := by
    have hread_length : (mrphs sp).map (fun m => m.fields.goi2.length) =
        (mrphs sp).map MrphSlot.length :=
      List.map_congr_left fun m hm => (hread.length m hm).symm
    rw [hread_length, ← hlengths, mrphs, mrphs, List.map_map, List.map_map, ← List.map_take,
      List.take_range, hnum, Nat.min_eq_left hle]
    exact List.map_congr_left fun k _ => congrArg Prod.fst (hstays k)
  have hsum : (((mrphs sp).map fun m => m.fields.goi2.length).take sp'.mrphNum).sum =
      ((mrphs sp).map fun m => m.fields.goi2.length).sum := by
    have hgoi2 := congrArg List.length (Replaced.goi2_all hblocks)
    unfold joined at hgoi2
    rw [← hflat, runs_flatten, List.length_flatMap, List.length_flatMap] at hgoi2
    rw [← htake, ← hgoi2]
    exact congrArg List.sum (List.map_congr_left fun m hm => hmerges.length m hm)
  have hlen := length_le_of_sum_take (fun x hx => ?_) hsum
  · rw [List.length_map, mrphs, List.length_map, List.length_range] at hlen
    omega
  · obtain ⟨m, hm, rfl⟩ := List.mem_map.mp hx
    exact List.length_pos_of_ne_nil (hread.goi2 m hm)

/-! ## Where nothing is merged -/

section Unmerged

variable {s : Nat} {run block : List MrphSlot} {rs : List (List MrphSlot)}
  {freed : List (Option Nat)}

theorem SettledAll.unmerged_of_kept (h : SettledAll rs block freed)
    (hkept : ∀ m ∈ block, MrphMerge.kept m = true) {m : MrphSlot} {rest : List MrphSlot}
    (hrun : m :: rest ∈ rs) {t : List UInt8} (ht : markOf m = some t) :
    t.length < SMALL_DATA_LEN ∧ (Fits (m :: rest) → rest = [] ∧ RepEnds m) := by
  induction h with
  | nil => cases hrun
  | @cons run runs block blocks freed freeds hshort h _ ih =>
      rw [List.forall_mem_append] at hkept
      rcases List.mem_cons.mp hrun with rfl | hrun
      · refine ⟨hshort m List.mem_cons_self t ht, fun hfits => ?_⟩
        cases h with
        | unmarked hmark =>
            rw [ht] at hmark
            cases hmark
        | merged _ _ _ _ _ _ _ hends =>
            have hrest : rest = [] := by
              refine List.eq_nil_iff_forall_not_mem.mpr fun b hb => ?_
              have hb' := hkept.1 _ (List.mem_cons_of_mem _ (List.mem_map_of_mem hb))
              exact kept_iff.mp hb' rfl
            exact ⟨hrest, hends hrest⟩
        | rejected _ hnot => exact absurd hfits hnot
      · exact ih hkept.2 hrun

/-- A run of which nothing is merged. -/
theorem Settled.single (h : Settled run block freed)
    (hone : ∀ m rest, run = m :: rest → (markOf m).isSome → Fits run → rest = [])
    (hgoi : ∀ m ∈ run, m.fields.goi ≠ []) (hlength : ∀ m ∈ run, m.length = m.fields.goi2.length) :
    ∀ m ∈ block, MrphMerge.kept m = true ∧ m.length = m.fields.goi2.length := by
  cases h with
  | unmarked => exact fun m hm => ⟨kept_iff.mpr (hgoi m hm), hlength m hm⟩
  | @merged m m' rest hmark hfits hm' _ hgoi2 hlen _ _ =>
      obtain rfl := hone m rest rfl hmark hfits
      rw [joined_singleton] at hm' hgoi2
      have hm := hgoi m List.mem_cons_self
      have hmlen := hlength m List.mem_cons_self
      refine List.forall_mem_singleton.mpr ⟨kept_iff.mpr (hm' ▸ hm), ?_⟩
      rw [hlen, hgoi2, hmlen]
  | rejected =>
      intro m' hm'
      obtain ⟨m, hm, rfl⟩ := List.mem_map.mp hm'
      exact ⟨kept_iff.mpr (hgoi m hm), hlength m hm⟩

theorem SettledAll.single (h : SettledAll rs block freed)
    (hone : ∀ m rest, m :: rest ∈ rs → (markOf m).isSome → Fits (m :: rest) → rest = [])
    (hgoi : ∀ m ∈ rs.flatten, m.fields.goi ≠ [])
    (hlength : ∀ m ∈ rs.flatten, m.length = m.fields.goi2.length) :
    ∀ m ∈ block, MrphMerge.kept m = true ∧ m.length = m.fields.goi2.length := by
  induction h with
  | nil => exact fun m hm => absurd hm List.not_mem_nil
  | cons _ h _ ih =>
      rw [List.flatten_cons, List.forall_mem_append] at hgoi hlength
      refine List.forall_mem_append.mpr ⟨?_, ?_⟩
      · refine h.single (fun m rest hrun hmark hfits => ?_) hgoi.1 hlength.1
        subst hrun
        exact hone m rest List.mem_cons_self hmark hfits
      · exact ih (fun m rest hrun => hone m rest (List.mem_cons_of_mem _ hrun)) hgoi.2 hlength.2

theorem mergeMrph_single (hfits : Fits (segment sp s 1)) : mergeMrph sp s 1 =
    (assignRepFFromImi { sp.mrph s with
      f := { (sp.mrph s).f with cps := deleteAlt (sp.mrph s).f.cps } }).map fun m =>
        (true, { sp with mrph := Function.update sp.mrph s m }) := by
  unfold mergeMrph
  rw [if_neg (fits_iff.mp hfits), Option.map_eq_bind]
  rfl

/-- Such a run is closed without failing. -/
theorem closeBlock_total (hrun : segment sp s run.length = run) (hmarked : WellMarked run)
    (hcond : ∀ m rest, run = m :: rest → ∀ t, markOf m = some t →
      t.length < SMALL_DATA_LEN ∧ (Fits run → rest = [] ∧ RepEnds m)) :
    ∃ sp', closeBlock sp s run = some sp' := by
  rcases hmarked.shape with ⟨m, rfl, hm⟩ | ⟨t, hne, hmark⟩
  · exact ⟨sp, closeBlock_unmarked hm⟩
  · obtain ⟨m, rest, rfl⟩ := List.exists_cons_of_ne_nil hne
    obtain ⟨hshort, hmerge⟩ := hcond m rest rfl t (hmark m List.mem_cons_self)
    rw [closeBlock_marked hne hmark, copyType_eq_some.mpr ⟨rfl, hshort⟩]
    show ∃ sp', closeRun sp s (m :: rest).length t = some sp'
    unfold closeRun
    by_cases hfits : Fits (m :: rest)
    · obtain ⟨rfl, hends⟩ := hmerge hfits
      have hhead : sp.mrph s = m := List.head_eq_of_cons_eq hrun
      obtain ⟨m', hrep⟩ := assignRepFFromImi_total
        (m := { sp.mrph s with f := { (sp.mrph s).f with cps := deleteAlt (sp.mrph s).f.cps } })
        (hhead ▸ hends)
      rw [List.length_singleton, mergeMrph_single (hrun.symm ▸ hfits), hrep]
      exact ⟨_, rfl⟩
    · rw [mergeMrph_of_not_fits (hrun.symm ▸ hfits)]
      exact ⟨_, rfl⟩

theorem closeAll_total (hseg : segment sp s rs.flatten.length = rs.flatten)
    (hmarked : ∀ run ∈ rs, WellMarked run)
    (hcond : ∀ m rest, m :: rest ∈ rs → ∀ t, markOf m = some t →
      t.length < SMALL_DATA_LEN ∧ (Fits (m :: rest) → rest = [] ∧ RepEnds m)) :
    ∃ sp', closeAll sp s rs = some sp' := by
  induction rs generalizing sp s with
  | nil => exact ⟨sp, rfl⟩
  | cons run rs ih =>
      rw [List.flatten_cons, List.length_append, segment_append] at hseg
      obtain ⟨hrun, hrest⟩ := List.append_inj hseg segment_length
      have hwell := hmarked run List.mem_cons_self
      obtain ⟨sp₁, hclose⟩ := closeBlock_total hrun hwell fun m rest hm t ht => by
        subst hm
        exact hcond m rest List.mem_cons_self t ht
      obtain ⟨-, hsettles⟩ := closeBlock_settles hrun hwell hclose
      have hseg₁ : segment sp₁ (s + run.length) rs.flatten.length = rs.flatten :=
        (segment_congr fun j hlo _ => hsettles.outside j (.inr hlo)).trans hrest
      obtain ⟨sp', hsp'⟩ := ih hseg₁ (fun run hrun => hmarked run (List.mem_cons_of_mem _ hrun))
        fun m rest hm => hcond m rest (List.mem_cons_of_mem _ hm)
      refine ⟨sp', ?_⟩
      rw [closeAll, hclose]
      exact hsp'

end Unmerged

theorem ReadMrphs.goi_runs (h : ReadMrphs sp) :
    ∀ m ∈ (runs (mrphs sp)).flatten, m.fields.goi ≠ [] := by
  rw [runs_flatten]
  exact h.goi

/-- The closing up, after the closing of the runs. -/
theorem resetMrph_closed {sp₁ : MrphSentence} (hread : ReadMrphs sp)
    (hall : SettledAll (runs (mrphs sp)) (mrphs sp₁) sp₁.freed) :
    (mrphs (resetMrph sp₁)).map moved = ((mrphs sp₁).filter kept).map moved ∧
      ∀ k, stays ((resetMrph sp₁).mrph k) = stays (sp₁.mrph k) := by
  refine resetMrph_spec fun hpos => hall.head hread.goi_runs _ ?_
  rw [mrphs, List.head?_map, List.head?_range, if_neg (by omega)]
  rfl

theorem mrphs_length : (mrphs sp).length = sp.mrphNum := by
  rw [mrphs, List.length_map, List.length_range]

/-- Without gaps nothing is moved. -/
theorem mrphs_resetMrph (hreset : (mrphs (resetMrph sp)).map moved =
      ((mrphs sp).filter kept).map moved)
    (hstays : ∀ k, stays ((resetMrph sp).mrph k) = stays (sp.mrph k))
    (hkept : ∀ m ∈ mrphs sp, kept m = true) : mrphs (resetMrph sp) = mrphs sp := by
  rw [List.filter_eq_self.mpr hkept] at hreset
  have hnum : (resetMrph sp).mrphNum = sp.mrphNum := by
    have hlen := congrArg List.length hreset
    rwa [List.length_map, List.length_map, mrphs_length, mrphs_length] at hlen
  unfold mrphs at hreset ⊢
  rw [hnum, List.map_map, List.map_map, List.map_inj_left] at hreset
  rw [hnum]
  refine List.map_congr_left fun k hk => ?_
  have hmoved := hreset k hk
  have hstay := hstays k
  simp only [Function.comp, moved, stays, Prod.mk.injEq] at hmoved hstay
  obtain ⟨hfields, hf⟩ := hmoved
  obtain ⟨hlength, hpos, htype⟩ := hstay
  generalize (resetMrph sp).mrph k = m at *
  cases m
  dsimp only at *
  subst hfields hf hlength hpos htype
  rfl

theorem merges_false_iff (hread : ReadMrphs sp) :
    (∃ sp', preprocessMrph false sp = some sp' ∧ Merges sp sp') ↔ Unmerged false sp := by
  constructor
  · rintro ⟨sp', h, hmerges⟩ m rest hrun t ht
    rw [preprocessMrph_eq] at h
    obtain ⟨sp₁, hclose, rfl⟩ := Option.map_eq_some_iff.mp h
    obtain ⟨hnum, hall⟩ := closeAll_closed hread hclose
    obtain ⟨hmoved, hstays⟩ := resetMrph_closed hread hall
    have hcount := congrArg List.length hmoved
    rw [List.length_map, List.length_map, mrphs_length] at hcount
    have hfilter := List.length_filter_le kept (mrphs sp₁)
    rw [mrphs_length, hnum] at hfilter
    have hsame := mrphNum_of_lengths hread hnum hall hstays (by omega) hmerges
    have hkept : ∀ m ∈ mrphs sp₁, kept m = true := by
      refine List.length_filter_eq_length_iff.mp ?_
      rw [mrphs_length, ← hcount, hsame, hnum]
    rw [if_neg Bool.false_ne_true]
    exact hall.unmerged_of_kept hkept hrun ht
  · intro hcond
    have hlen : (runs (mrphs sp)).flatten.length = sp.mrphNum := by
      rw [runs_flatten, mrphs_length]
    have hseg : segment sp 0 (runs (mrphs sp)).flatten.length = (runs (mrphs sp)).flatten := by
      rw [hlen, runs_flatten, mrphs_eq]
    have hcond' : ∀ m rest, m :: rest ∈ runs (mrphs sp) → ∀ t, markOf m = some t →
        t.length < SMALL_DATA_LEN ∧ (Fits (m :: rest) → rest = [] ∧ RepEnds m) :=
      fun m rest hrun t ht => hcond m rest hrun t ht
    obtain ⟨sp₁, hclose⟩ := closeAll_total hseg hread.wellMarked hcond'
    obtain ⟨-, hall⟩ := closeAll_closed hread hclose
    have hsingle := hall.single (fun m rest hrun hmark hfits => by
        obtain ⟨t, ht⟩ := Option.isSome_iff_exists.mp hmark
        exact ((hcond' m rest hrun t ht).2 hfits).1) hread.goi_runs (by
        rw [runs_flatten]
        exact hread.length)
    obtain ⟨hmoved, hstays⟩ := resetMrph_closed hread hall
    have hsame := mrphs_resetMrph hmoved hstays fun m hm => (hsingle m hm).1
    obtain ⟨⟨blocks, hblocks, hflat⟩, -⟩ := hall.kept hread.goi_runs
    have hpre : preprocessMrph false sp = some (resetMrph sp₁) := by
      rw [preprocessMrph_eq, hclose]
      rfl
    refine ⟨resetMrph sp₁, hpre, ⟨blocks, hblocks, ?_⟩, (preprocessMrph_replaces hread hpre).2, ?_⟩
    · rw [hsame, hflat, List.filter_eq_self.mpr fun m hm => (hsingle m hm).1]
    · rw [hsame]
      exact fun m hm => (hsingle m hm).2

theorem Replaced.length_le {run block : List MrphSlot} (h : Replaced run block) :
    block.length ≤ run.length := by
  cases h <;> simp

/-- Where every run is left as it is, it is one that is replaced by itself. -/
theorem Replaced.self_of_flatten {rs blocks : List (List MrphSlot)}
    (h : List.Forall₂ Replaced rs blocks) (hflat : blocks.flatten = rs.flatten) :
    ∀ run ∈ rs, Replaced run run := by
  have hle : ∀ {rs blocks : List (List MrphSlot)}, List.Forall₂ Replaced rs blocks →
      blocks.flatten.length ≤ rs.flatten.length := by
    intro rs blocks h
    induction h with
    | nil => exact Nat.le_refl 0
    | cons h _ ih =>
        rw [List.flatten_cons, List.flatten_cons, List.length_append, List.length_append]
        exact Nat.add_le_add h.length_le ih
  induction h with
  | nil => exact fun run hrun => absurd hrun List.not_mem_nil
  | @cons run block rs blocks h hrest ih =>
      rw [List.flatten_cons, List.flatten_cons] at hflat
      have hlen := congrArg List.length hflat
      rw [List.length_append, List.length_append] at hlen
      have hblock := h.length_le
      have hblocks := hle hrest
      obtain ⟨rfl, htail⟩ := List.append_inj hflat (by omega)
      exact List.forall_mem_cons.mpr ⟨h, ih htail⟩

theorem Replaced.eq_single {m : MrphSlot} {rest block : List MrphSlot} {t : List UInt8}
    (ht : markOf m = some t) (h : Replaced (m :: rest) block) (hself : block = m :: rest) :
    rest = [] ∧ Fits [m] := by
  cases h with
  | unmarked hmark =>
      rw [ht] at hmark
      cases hmark
  | merged _ hfits _ _ _ =>
      obtain rfl : rest = [] := (List.cons.inj hself).2.symm
      exact ⟨rfl, hfits⟩
  | rejected _ _ =>
      have hm : unmark m = m := (List.cons.inj hself).1
      have hnone : markOf (unmark m) = none := by
        refine List.find?_eq_none.mpr fun cp hcp hpre => ?_
        have hnot := (List.mem_filter.mp hcp).2
        rw [hpre] at hnot
        cases hnot
      rw [hm, ht] at hnone
      cases hnone

theorem Replaced.self_iff {m : MrphSlot} {rest : List MrphSlot} {t : List UInt8}
    (ht : markOf m = some t) : Replaced (m :: rest) (m :: rest) ↔ rest = [] ∧ Fits [m] := by
  constructor
  · exact fun h => h.eq_single ht rfl
  · rintro ⟨rfl, hfits⟩
    exact .merged (ht ▸ rfl) hfits joined_singleton.symm joined_singleton.symm
      joined_singleton.symm

theorem merges_true_iff (hread : ReadMrphs sp) :
    (∃ sp', preprocessMrph true sp = some sp' ∧ Merges sp sp') ↔ Unmerged true sp := by
  constructor
  · rintro ⟨sp', h, hmerges⟩ m rest hrun t ht
    obtain rfl : sp = sp' := Option.some.inj h
    obtain ⟨blocks, hblocks, hflat⟩ := hmerges.runs
    rw [if_pos rfl]
    exact (Replaced.self_iff ht).mp
      (Replaced.self_of_flatten hblocks (hflat.symm.trans runs_flatten.symm) _ hrun)
  · intro hcond
    refine ⟨sp, rfl, ⟨runs (mrphs sp), ?_, runs_flatten.symm⟩, hread.lists, hread.length⟩
    refine List.forall₂_same.mpr fun run hrun => ?_
    rcases mem_runs hrun with ⟨m, rfl, hm⟩ | ⟨t, hne, hmark⟩
    · exact .unmarked hm
    · obtain ⟨m, rest, rfl⟩ := List.exists_cons_of_ne_nil hne
      have ht := hmark m List.mem_cons_self
      exact (Replaced.self_iff ht).mpr (hcond m rest hrun t ht)

end Whole

/-- Each run is replaced as it should be, whenever the merging is defined, and no list of features
is lost or shared. The lengths are right as well just if nothing of two or more morphemes is
merged. -/
theorem preprocess_mrph_iff (sp : MrphSentence) (hread : ReadMrphs sp) :
    (∀ sp', preprocessMrph false sp = some sp' →
      (∃ blocks, List.Forall₂ Replaced (runs (mrphs sp)) blocks ∧
        (mrphs sp').map moved = blocks.flatten.map moved) ∧ ListsKept sp sp') ∧
    ∀ inputParsed, (∃ sp', preprocessMrph inputParsed sp = some sp' ∧ Merges sp sp') ↔
      Unmerged inputParsed sp := by
  refine ⟨fun sp' h => preprocessMrph_replaces hread h, fun inputParsed => ?_⟩
  cases inputParsed with
  | false => exact merges_false_iff hread
  | true => exact merges_true_iff hread

/-! ## Two digits -/

/-- A digit with the mark 形態素連結-数詞, the `k`-th morpheme. -/
def digitMrph (k : Nat) (text : String) : MrphSlot where
  fields := ⟨utf8 text, utf8 text, utf8 text, 6, 7, 0, 0, utf8 "NIL"⟩
  length := (utf8 text).length
  pos := []
  type := []
  f := ⟨some k, [utf8 "形態素連結-数詞"]⟩

/-- １５ -/
def twoDigits : MrphSentence where
  mrph k := if k = 0 then digitMrph 0 "１" else digitMrph 1 "５"
  mrphNum := 2
  freed := []

theorem twoDigits_read : ReadMrphs twoDigits :=
  ⟨by decide +kernel, by decide +kernel, by decide +kernel, by decide +kernel,
    by unfold ListsKept; decide +kernel⟩

/-- The digits are merged to six bytes, and the length stays at three. -/
theorem twoDigits_length : ReadMrphs twoDigits ∧
    ((preprocessMrph false twoDigits).map fun sp =>
      (mrphs sp).map fun m => (m.fields.goi2, m.length)) = some [(utf8 "１５", 3)] ∧
    ¬∃ sp', preprocessMrph false twoDigits = some sp' ∧ Merges twoDigits sp' := by
  refine ⟨twoDigits_read, by decide +kernel, fun h => ?_⟩
  have hruns : [digitMrph 0 "１", digitMrph 1 "５"] ∈ runs (mrphs twoDigits) := by decide +kernel
  have hfits : Fits [digitMrph 0 "１", digitMrph 1 "５"] := by decide +kernel
  have hunmerged := (merges_false_iff twoDigits_read).mp h _ _ hruns
    (utf8 "形態素連結-数詞") (by decide +kernel)
  exact List.cons_ne_nil _ _ (hunmerged.2 hfits).1

theorem twoDigits_iff :
    (∃ sp', preprocessMrph false twoDigits = some sp' ∧ Merges twoDigits sp') ↔
      Unmerged false twoDigits :=
  (preprocess_mrph_iff twoDigits twoDigits_read).2 false

end Knp.MrphMerge
