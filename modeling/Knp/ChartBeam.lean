import Knp.BestFirst
import Knp.Cky
import Knp.LinkedList

/-!
# The beam of a cell (`cky.c`)

The phrases of a cell are a linked list. `sort_cky_ptrs` moves as many of them to the
front as the beam is wide, each time the first one of the highest score, and `cky` then
cuts the list off behind them. A phrase is moved by changing three links: that of the cell
before it, its own, and the one that leads to the part still to be sorted.

> The list is relinked into the selection sort of its phrases (`BestFirst.select`), and
> the cut leaves the front of it.

The scores are of any linear order; `minScore` is `-INT_MAX`. `none` stands for reading
through a null pointer.
-/

namespace Knp.CellList

open LinkedList BestFirst

variable {α : Type} {S : Type*} [LinearOrder S] (score : α → S) (minScore : S)

/-- The inner loop: `best_ptr` and `best_pre_ptr` behind the cells from `ckyPtr` on. -/
def scan (m : Mem α) : Nat → Option Nat → Option Nat → S → Option Nat × Option Nat →
    Option (Option Nat × Option Nat)
  | 0, _, _, _, _ => none
  | fuel + 1, ckyPtr, prePtr, bestScore, best =>
      match ckyPtr with
      | none => some best
      | some p => do
          let c ← m.cell p
          if bestScore < score c.val then
            scan m fuel c.next (some p) (score c.val) (some p, prePtr)
          else scan m fuel c.next (some p) bestScore best

/-- `best_ptr` is taken out behind `best_pre_ptr` and put where `start` leads. -/
def splice (m : Mem α) (start : Place) (bestPtr bestPrePtr : Option Nat) : Option (Mem α) := do
  let next ← m.read (.next bestPtr)
  let m ← m.write next (.next bestPrePtr)
  let first ← m.read start
  let m ← m.write first (.next bestPtr)
  m.write bestPtr start

def moveToFront (m : Mem α) (start : Place) (bestPtr bestPrePtr : Option Nat) : Option (Mem α) :=
  -- best_ptr is not at the beginning
  if bestPrePtr.isSome then splice m start bestPtr bestPrePtr else some m

/-- The outer loop, with the place of the link to the part still to be sorted. -/
def sortLoop (fuel : Nat) : Nat → Mem α → Option Nat → Place → Option Nat → Option (Mem α)
  | 0, m, _, _, _ => some m
  | beam + 1, m, bestPtr, start, ckyPtr =>
      if ckyPtr = none then some m
      else do
        let (bestPtr, bestPrePtr) ← scan score m fuel ckyPtr none minScore (bestPtr, none)
        let m ← moveToFront m start bestPtr bestPrePtr
        let next ← m.read (.next bestPtr)
        sortLoop fuel beam m bestPtr (.next bestPtr) next

/-- `sort_cky_ptrs`, with a bound on the turns of its inner loop. -/
def sortCkyPtrs (fuel beam : Nat) (m : Mem α) : Option (Mem α) :=
  sortLoop score minScore fuel beam m none .head m.head

/-- leave the best candidates within the beam: the loop of `cky` behind the sort. -/
def cutLoop : Nat → Mem α → Place → Option (Mem α)
  | 0, m, nextPP => m.write none nextPP
  | l + 1, m, nextPP => do
      match ← m.read nextPP with
      | none => m.write none nextPP
      | some p => cutLoop l m (.next (some p))

def cutBeam (beam : Nat) (m : Mem α) : Option (Mem α) := cutLoop beam m .head

variable {score minScore} {m m' : Mem α} {cs before behind : List (Nat × α)} {c : Nat × α}
  {link prePtr last : Option Nat} {start : Place}

/-! ## The scan -/

/-- The last address of a list of cells, or the one given. -/
def lastOr (prePtr : Option Nat) (cs : List (Nat × α)) : Option Nat :=
  (cs.getLast?.map Prod.fst).or prePtr

theorem lastOr_cons : lastOr prePtr (c :: cs) = lastOr (some c.1) cs := by
  unfold lastOr
  rw [List.getLast?_cons]
  cases cs.getLast? <;> rfl

theorem lastOr_concat : lastOr prePtr (cs ++ [c]) = some c.1 := by
  unfold lastOr
  rw [List.getLast?_concat]
  rfl

/-- Over cells that score less than `bound` the best score stays below it. -/
theorem scan_below (fuel : Nat) {bestScore bound : S} {best : Option Nat × Option Nat}
    (hcs : Segment m link cs last) (hlt : ∀ c ∈ cs, score c.2 < bound) (hbest : bestScore < bound) :
    ∃ bestScore' best', bestScore' < bound ∧
      scan score m (cs.length + fuel) link prePtr bestScore best =
        scan score m fuel last (lastOr prePtr cs) bestScore' best' := by
  induction cs generalizing link prePtr bestScore best with
  | nil =>
      obtain rfl : link = last := hcs
      exact ⟨bestScore, best, hbest, by rw [List.length_nil, Nat.zero_add]; rfl⟩
  | cons c cs ih =>
      obtain ⟨rfl, next, hc, hcs⟩ := hcs
      have hcs' : ∀ c ∈ cs, score c.2 < bound := fun c hc => hlt c (List.mem_cons_of_mem _ hc)
      rw [List.length_cons, Nat.succ_add, scan]
      simp only [hc, Option.bind_eq_bind, Option.bind_some]
      rw [lastOr_cons]
      split_ifs
      · exact ih hcs hcs' (hlt c List.mem_cons_self)
      · exact ih hcs hcs' hbest

/-- Cells that do not score higher are passed over. -/
theorem scan_pass {fuel : Nat} {bestScore : S} {best : Option Nat × Option Nat}
    (hcs : Segment m link cs last) (hle : ∀ c ∈ cs, score c.2 ≤ bestScore) :
    scan score m (cs.length + fuel) link prePtr bestScore best =
      scan score m fuel last (lastOr prePtr cs) bestScore best := by
  induction cs generalizing link prePtr with
  | nil =>
      obtain rfl : link = last := hcs
      rw [List.length_nil, Nat.zero_add]
      rfl
  | cons c cs ih =>
      obtain ⟨rfl, next, hc, hcs⟩ := hcs
      have hskip : ¬ bestScore < score c.2 := not_lt.mpr (hle c List.mem_cons_self)
      rw [List.length_cons, Nat.succ_add, scan]
      simp only [hc, Option.bind_eq_bind, Option.bind_some, if_neg hskip]
      rw [ih hcs fun c hc => hle c (List.mem_cons_of_mem _ hc), lastOr_cons]

/-- The scan finds the first cell of the highest score and the one before it. -/
theorem scan_eq {fuel : Nat} {best : Option Nat × Option Nat} (hcs : Chain m link cs)
    (hfirst : IsFirstBest (score ·.2) cs before c behind) (hmin : minScore < score c.2)
    (hfuel : cs.length < fuel) :
    scan score m fuel link none minScore best = some (some c.1, lastOr none before) := by
  rw [← segment_none_iff, hfirst.eq] at hcs
  obtain ⟨mid, hbefore, rfl, next, hc, hbehind⟩ := segment_append.mp hcs
  obtain ⟨rest, rfl⟩ : ∃ rest, fuel = before.length + ((behind.length + (rest + 1)) + 1) := by
    rw [hfirst.eq, List.length_append, List.length_cons] at hfuel
    exact ⟨fuel - (before.length + behind.length + 2), by omega⟩
  obtain ⟨bestScore, best', hlt, hscan⟩ := scan_below
    ((behind.length + (rest + 1)) + 1) hbefore hfirst.before_lt hmin
  rw [hscan, scan]
  simp only [hc, Option.bind_eq_bind, Option.bind_some, if_pos hlt]
  rw [scan_pass hbehind hfirst.behind_le, scan]

/-! ## One turn -/

/-- The place of a link is not in one of the cells. -/
def Outside (start : Place) (cs : List (Nat × α)) : Prop :=
  ∀ q ∈ cs.map Prod.fst, start ≠ .next (some q)

/-- Only the link at `start` and the links of the cells `cs` have changed: the first is now `link`. -/
structure Relinked (start : Place) (cs : List (Nat × α)) (link : Option Nat) (m m' : Mem α) :
    Prop where
  read_start : m'.read start = some link
  cell_eq : ∀ q, q ∉ cs.map Prod.fst → start ≠ .next (some q) → m'.cell q = m.cell q
  val_eq : ∀ q n, m.cell q = some n → start = .next (some q) → m'.cell q = some ⟨n.val, link⟩
  head_eq : start ≠ .head → m'.head = m.head

theorem read_set_of_ne {p : Nat} {n : Option (Node α)} (h : start ≠ .next (some p)) :
    (m.set p n).read start = m.read start := by
  cases start with
  | head => rfl
  | next q =>
      cases q with
      | none => rfl
      | some q =>
          have hqp : q ≠ p := fun heq => h (by rw [heq])
          simp [Mem.read, Mem.set_of_ne m n hqp]

theorem write_relinked (h : m.read start = some link) (link' : Option Nat) :
    ∃ m', m.write link' start = some m' ∧ Relinked start ([] : List (Nat × α)) link' m m' := by
  cases start with
  | head => exact ⟨_, rfl, rfl, fun _ _ _ => rfl, fun _ _ _ h => (by cases h), fun h => absurd rfl h⟩
  | next q =>
      cases q with
      | none => cases h
      | some q =>
          obtain ⟨n, hn, -⟩ := Option.map_eq_some_iff.mp h
          refine ⟨m.set q (some { n with next := link' }), by simp [Mem.write, hn], ?_,
            fun r _ hr => ?_, fun r n' hn' heq => ?_, fun _ => rfl⟩
          · simp [Mem.read]
          · exact m.set_of_ne _ fun heq => hr (by rw [heq])
          · obtain rfl : q = r := by injection heq with heq; injection heq
            rw [hn] at hn'
            obtain rfl := Option.some.inj hn'
            exact m.set_self _ _

/-- The best cell is taken from behind `p` to the front. -/
theorem splice_spec {p : Nat × α} {bs : List (Nat × α)} (hstart : m.read start = some link)
    (hcs : Chain m link ((bs ++ [p]) ++ c :: behind))
    (hnd : (((bs ++ [p]) ++ c :: behind).map Prod.fst).Nodup)
    (hout : Outside start ((bs ++ [p]) ++ c :: behind)) :
    ∃ m', splice m start (some c.1) (some p.1) = some m' ∧
      Relinked start ((bs ++ [p]) ++ c :: behind) (some c.1) m m' ∧
      Chain m' (some c.1) (c :: ((bs ++ [p]) ++ behind)) := by
  obtain ⟨mid, hbefore, rfl, next, hc, hbehind⟩ := segment_append.mp (segment_none_iff.mpr hcs)
  have hp := hbefore.cell
  have hdist : c.1 ≠ p.1 ∧ c.1 ∉ bs.map Prod.fst ∧ p.1 ∉ bs.map Prod.fst ∧
      c.1 ∉ behind.map Prod.fst ∧ p.1 ∉ behind.map Prod.fst := by
    simp only [List.map_append, List.map_cons, List.map_nil, List.append_assoc, List.nodup_append,
      List.nodup_cons, List.mem_append, List.mem_cons] at hnd
    grind
  obtain ⟨hcp, hcbs, hpbs, hcbehind, hpbehind⟩ := hdist
  have hstartp : start ≠ .next (some p.1) := hout p.1 (by simp)
  have hstartc : start ≠ .next (some c.1) := hout c.1 (by simp)
  -- the memory before the last of the three writes
  let m₂ := (m.set p.1 (some ⟨p.2, next⟩)).set c.1 (some ⟨c.2, link⟩)
  have hread : m₂.read start = some link := by
    rw [read_set_of_ne hstartc, read_set_of_ne hstartp, hstart]
  have hcell₂ : ∀ q, q ≠ p.1 → q ≠ c.1 → m₂.cell q = m.cell q := fun q hqp hqc => by
    rw [Mem.set_of_ne _ _ hqc, Mem.set_of_ne _ _ hqp]
  obtain ⟨m', hwrite, hlast⟩ := write_relinked hread (some c.1)
  have hkeep : ∀ q, start ≠ .next (some q) → m'.cell q = m₂.cell q := fun q hq =>
    hlast.cell_eq q List.not_mem_nil hq
  have hkeepbs : ∀ q ∈ bs.map Prod.fst, m'.cell q = m.cell q := fun q hq => by
    have hqp : q ≠ p.1 := fun heq => hpbs (heq ▸ hq)
    have hqc : q ≠ c.1 := fun heq => hcbs (heq ▸ hq)
    rw [hkeep q (hout q (by simp at hq ⊢; tauto)), hcell₂ q hqp hqc]
  have hkeepbehind : ∀ q ∈ behind.map Prod.fst, m'.cell q = m.cell q := fun q hq => by
    have hqp : q ≠ p.1 := fun heq => hpbehind (heq ▸ hq)
    have hqc : q ≠ c.1 := fun heq => hcbehind (heq ▸ hq)
    rw [hkeep q (hout q (by simp at hq ⊢; tauto)), hcell₂ q hqp hqc]
  have hp' : m'.cell p.1 = some ⟨p.2, next⟩ := by
    rw [hkeep _ hstartp, Mem.set_of_ne _ _ (Ne.symm hcp), Mem.set_self]
  have hc' : m'.cell c.1 = some ⟨c.2, link⟩ := by rw [hkeep _ hstartc, Mem.set_self]
  refine ⟨m', ?_, ⟨hlast.read_start, fun q hq hqs => ?_, fun q n hn heq => ?_, fun hne => ?_⟩,
    rfl, link, hc', ?_⟩
  · have hc₁ : (m.set p.1 (some ⟨p.2, next⟩)).cell c.1 = some ⟨c.2, next⟩ := by
      rw [Mem.set_of_ne _ _ hcp, hc]
    have hread₁ : (m.set p.1 (some ⟨p.2, next⟩)).read start = some link := by
      rw [read_set_of_ne hstartp, hstart]
    simp only [splice, Mem.read_next hc, Option.bind_eq_bind, Option.bind_some,
      Mem.write_next hp, hread₁, Mem.write_next hc₁]
    exact hwrite
  · have hqp : q ≠ p.1 := fun heq => hq (by simp [heq])
    have hqc : q ≠ c.1 := fun heq => hq (by simp [heq])
    rw [hkeep q hqs, hcell₂ q hqp hqc]
  · have hqp : q ≠ p.1 := fun hq => hstartp (by rw [heq, hq])
    have hqc : q ≠ c.1 := fun hq => hstartc (by rw [heq, hq])
    exact hlast.val_eq q n ((hcell₂ q hqp hqc).trans hn) heq
  · exact hlast.head_eq hne
  · exact segment_none_iff.mp (segment_append.mpr
      ⟨next, hbefore.relink hp' hkeepbs, hbehind.congr hkeepbehind⟩)

/-! ## The sort -/

theorem Relinked.refl (h : m.read start = some link) : Relinked start cs link m m where
  read_start := h
  cell_eq _ _ _ := rfl
  val_eq q n hn heq := by
    rw [heq, Mem.read_next hn] at h
    rw [hn, ← Option.some.inj h]
  head_eq _ := rfl

/-- The part behind a cell is relinked in turn. -/
theorem Relinked.trans {m₁ : Mem α} {cs' : List (Nat × α)} {link' : Option Nat}
    (h : Relinked start cs link m m₁) (h' : Relinked (.next (some c.1)) cs' link' m₁ m')
    (hc : c ∈ cs) (hsub : cs' ⊆ cs) (hout : Outside start cs) : Relinked start cs link m m' := by
  have hsub' : cs'.map Prod.fst ⊆ cs.map Prod.fst := List.map_subset _ hsub
  have hkeep : ∀ q, q ∉ cs.map Prod.fst → m'.cell q = m₁.cell q := fun q hq => by
    refine h'.cell_eq q (fun hmem => hq (hsub' hmem)) fun heq => hq ?_
    obtain rfl : c.1 = q := by injection heq with heq; injection heq
    exact List.mem_map_of_mem hc
  have hhead : m'.head = m₁.head := h'.head_eq (by simp)
  have hnot : ∀ q, start = .next (some q) → q ∉ cs.map Prod.fst := fun q heq hq => hout q hq heq
  refine ⟨?_, fun q hq hqs => (hkeep q hq).trans (h.cell_eq q hq hqs),
    fun q n hn heq => (hkeep q (hnot q heq)).trans (h.val_eq q n hn heq),
    fun hne => hhead.trans (h.head_eq hne)⟩
  rw [← h.read_start]
  cases start with
  | head => exact congrArg some hhead
  | next q =>
      cases q with
      | none => rfl
      | some q =>
          simp [Mem.read, hkeep q (hnot q rfl)]

theorem moveToFront_spec (hstart : m.read start = some link) (hcs : Chain m link cs)
    (hnd : (cs.map Prod.fst).Nodup) (hout : Outside start cs)
    (hfirst : IsFirstBest (score ·.2) cs before c behind) :
    ∃ m', moveToFront m start (some c.1) (lastOr none before) = some m' ∧
      Relinked start cs (some c.1) m m' ∧ Chain m' (some c.1) (c :: (before ++ behind)) := by
  obtain rfl := hfirst.eq
  rcases before.eq_nil_or_concat with rfl | ⟨bs, p, hbs⟩
  · obtain rfl : link = some c.1 := hcs.1
    exact ⟨m, rfl, .refl hstart, hcs⟩
  · rw [List.concat_eq_append] at hbs
    subst hbs
    rw [lastOr_concat]
    exact splice_spec hstart hcs hnd hout

/-- What the loop has still to sort, it relinks into its selection sort. -/
theorem sortLoop_spec {fuel : Nat} (beam : Nat) (bestPtr : Option Nat) (hstart : m.read start = some link)
    (hcs : Chain m link cs) (hnd : (cs.map Prod.fst).Nodup) (hout : Outside start cs)
    (hmin : ∀ c ∈ cs, minScore < score c.2) (hfuel : cs.length < fuel) :
    ∃ m' link', sortLoop score minScore fuel beam m bestPtr start link = some m' ∧
      Relinked start cs link' m m' ∧ Chain m' link' (select (score ·.2) beam cs) := by
  induction beam generalizing m bestPtr start link cs with
  | zero => exact ⟨m, link, rfl, .refl hstart, hcs⟩
  | succ beam ih =>
      rcases eq_or_ne cs [] with rfl | hne
      · obtain rfl : link = none := hcs
        exact ⟨m, none, rfl, .refl hstart, by rw [select_nil]; rfl⟩
      · obtain ⟨before, c, behind, hfirst⟩ := exists_isFirstBest (score ·.2) hne
        have hperm := hfirst.perm
        have hc : c ∈ cs := hperm.subset List.mem_cons_self
        have hsub : before ++ behind ⊆ cs := fun x hx => hperm.subset (List.mem_cons_of_mem c hx)
        obtain ⟨m₁, hturn, hlinked, hchain⟩ := moveToFront_spec hstart hcs hnd hout hfirst
        obtain ⟨-, next, hcell, hrest⟩ := hchain
        have hnd' : c.1 ∉ (before ++ behind).map Prod.fst ∧ ((before ++ behind).map Prod.fst).Nodup :=
          List.nodup_cons.mp ((hperm.map Prod.fst).nodup_iff.mpr hnd)
        have hout' : Outside (.next (some c.1)) (before ++ behind) := fun q hq heq => by
          obtain rfl : c.1 = q := by injection heq with heq; injection heq
          exact hnd'.1 hq
        have hlen : (before ++ behind).length < fuel := by
          have := hperm.length_eq
          rw [List.length_cons] at this
          omega
        obtain ⟨m', link', hloop, hlinked', hsorted⟩ := ih (some c.1)
          (Mem.read_next hcell) hrest hnd'.2 hout' (fun x hx => hmin x (hsub hx)) hlen
        refine ⟨m', some c.1, ?_, hlinked.trans hlinked' hc hsub hout, ?_⟩
        · have hlink : link ≠ none := by
            obtain ⟨a, as, rfl⟩ := List.exists_cons_of_ne_nil hne
            rw [hcs.1]
            simp
          rw [sortLoop, if_neg hlink, scan_eq hcs hfirst (hmin c hc) hfuel]
          simp only [Option.bind_eq_bind, Option.bind_some, hturn, Mem.read_next hcell]
          exact hloop
        · rw [hfirst.select_succ]
          exact ⟨rfl, link', hlinked'.val_eq c.1 _ hcell rfl, hsorted⟩

/-- The list behind the head is relinked into its selection sort. -/
theorem sortCkyPtrs_chain {fuel : Nat} (beam : Nat) (hcs : Chain m m.head cs)
    (hnd : (cs.map Prod.fst).Nodup) (hmin : ∀ c ∈ cs, minScore < score c.2)
    (hfuel : cs.length < fuel) :
    ∃ m', sortCkyPtrs score minScore fuel beam m = some m' ∧
      Chain m' m'.head (select (score ·.2) beam cs) := by
  obtain ⟨m', link', hloop, hlinked, hchain⟩ := sortLoop_spec beam none
    (rfl : m.read .head = some m.head) hcs hnd (fun _ _ h => by cases h) hmin hfuel
  have hhead : m'.head = link' := Option.some.inj hlinked.read_start
  exact ⟨m', hloop, by rwa [hhead]⟩

/-! ## The cut -/

theorem cutLoop_spec (beam : Nat) (hstart : m.read start = some link) (hcs : Chain m link cs)
    (hnd : (cs.map Prod.fst).Nodup) (hout : Outside start cs) :
    ∃ m' link', cutLoop beam m start = some m' ∧ Relinked start cs link' m m' ∧
      Chain m' link' (cs.take beam) := by
  induction beam generalizing start link cs with
  | zero =>
      obtain ⟨m', hwrite, hlinked⟩ := write_relinked hstart none
      exact ⟨m', none, hwrite, ⟨hlinked.read_start, fun q _ => hlinked.cell_eq q List.not_mem_nil,
        hlinked.val_eq, hlinked.head_eq⟩, rfl⟩
  | succ beam ih =>
      cases cs with
      | nil =>
          obtain rfl : link = none := hcs
          obtain ⟨m', hwrite, hlinked⟩ := write_relinked hstart none
          refine ⟨m', none, ?_, hlinked, rfl⟩
          simp only [cutLoop, hstart, Option.bind_eq_bind, Option.bind_some, hwrite]
      | cons c cs =>
          obtain ⟨rfl, next, hc, hrest⟩ := hcs
          obtain ⟨hcnot, hnd⟩ := List.nodup_cons.mp hnd
          have hout' : Outside (.next (some c.1)) cs := fun q hq heq => by
            obtain rfl : c.1 = q := by injection heq with heq; injection heq
            exact hcnot hq
          obtain ⟨m', link', hcut, hlinked, hchain⟩ := ih (Mem.read_next hc) hrest hnd hout'
          refine ⟨m', some c.1, ?_, ?_, rfl, link', hlinked.val_eq c.1 _ hc rfl, hchain⟩
          · simp only [cutLoop, hstart, Option.bind_eq_bind, Option.bind_some, hcut]
          · exact (Relinked.refl hstart).trans hlinked List.mem_cons_self
              (List.subset_cons_self c cs) hout

variable (score minScore) in
/-- After the sort as many phrases as the beam is wide stand in front of those that do not
score higher, and the cut leaves these. With a beam of one the first of the best phrases
has come to the head. -/
theorem sortCkyPtrs_beam {fuel : Nat} (beam : Nat) (hcs : Chain m m.head cs)
    (hnd : (cs.map Prod.fst).Nodup) (hne : cs ≠ []) (hmin : ∀ c ∈ cs, minScore < score c.2)
    (hfuel : cs.length < fuel) :
    ∃ m' cs', sortCkyPtrs score minScore fuel beam m = some m' ∧
      Chain m' m'.head cs' ∧ cs'.Perm cs ∧
      (∀ i j : Nat, ∀ hi : i < cs'.length, ∀ hj : j < cs'.length, i < j → i < beam →
        score cs'[j].2 ≤ score cs'[i].2) ∧
      (∃ m'', cutBeam beam m' = some m'' ∧ Chain m'' m''.head (cs'.take beam)) ∧
      (beam = 1 → ∃ before best behind, IsFirstBest (score ·.2) cs before best behind ∧
        cs' = best :: (before ++ behind)) := by
  obtain ⟨m', hsort, hchain⟩ := sortCkyPtrs_chain beam hcs hnd hmin hfuel
  have hperm : (select (score ·.2) beam cs).Perm cs := select_perm beam cs
  have hnd' : ((select (score ·.2) beam cs).map Prod.fst).Nodup :=
    (hperm.map Prod.fst).nodup_iff.mpr hnd
  obtain ⟨m'', link', hcut, hlinked, hfront⟩ := cutLoop_spec beam
    (rfl : m'.read .head = some m'.head) hchain hnd' (fun _ _ h => by cases h)
  have hhead : m''.head = link' := Option.some.inj hlinked.read_start
  refine ⟨m', _, hsort, hchain, hperm, fun i j _ hj hij hi => select_le beam hi hij hj,
    ⟨m'', hcut, by rwa [hhead]⟩, fun hone => ?_⟩
  obtain ⟨before, best, behind, hfirst⟩ := exists_isFirstBest (score ·.2) hne
  exact ⟨before, best, behind, hfirst, by rw [hone, select_one hfirst]⟩

/-- Four phrases, cut to two. -/
theorem fourPhrases_beam :
    ∃ m' cs', sortCkyPtrs (fun n : Int => n) (-9) 5 2 (place 0 [3, 5, 4, 5]) = some m' ∧
      Chain m' m'.head cs' ∧ cs'.Perm [(0, 3), (1, 5), (2, 4), (3, 5)] ∧
      ∃ m'', cutBeam 2 m' = some m'' ∧ Chain m'' m''.head (cs'.take 2) := by
  obtain ⟨m', cs', hsort, hchain, hperm, -, hcut, -⟩ :=
    sortCkyPtrs_beam (fun n : Int => n) (-9) 2 (chain_place [3, 5, 4, 5] 0)
      (by simp [List.range']) (by simp [List.range']) (by simp [List.range'])
      (show _ < 5 by simp [List.range'])
  exact ⟨m', cs', hsort, hchain, hperm, hcut⟩

/-! ## The list of the chart -/

theorem removeBest_eq (env : CkyEnv) (l : List Cky) :
    Knp.removeBest env l = BestFirst.removeBest env.score l := by
  induction l with
  | nil => rfl
  | cons c l ih =>
      rw [Knp.removeBest, BestFirst.removeBest, ih]
      cases BestFirst.removeBest env.score l with
      | none => rfl
      | some r => rfl

theorem sortCkyPtrs_eq_select (env : CkyEnv) (beam : Nat) (l : List Cky) :
    Knp.sortCkyPtrs env beam l = select env.score beam l := by
  induction beam generalizing l with
  | zero => rfl
  | succ beam ih =>
      rw [Knp.sortCkyPtrs, select, removeBest_eq]
      cases BestFirst.removeBest env.score l with
      | none => rfl
      | some r => exact congrArg (r.1 :: ·) (ih r.2)

/-- The pointers of a cell come to hold the list that the chart has. -/
theorem sortCkyPtrs_represents {env : CkyEnv} {m : Mem Cky} {l : List Cky} {minScore : Int}
    {fuel beam : Nat} (h : Represents m l) (hmin : ∀ c ∈ l, minScore < env.score c)
    (hfuel : l.length < fuel) :
    ∃ m', sortCkyPtrs env.score minScore fuel beam m = some m' ∧
      Represents m' (Knp.sortCkyPtrs env beam l) := by
  obtain ⟨cs, hnd, hcs, rfl⟩ := h
  obtain ⟨m', hsort, hchain⟩ := sortCkyPtrs_chain beam hcs hnd
    (fun c hc => hmin c.2 (List.mem_map_of_mem hc)) (by rwa [List.length_map] at hfuel)
  refine ⟨m', hsort, _, ?_, hchain, ?_⟩
  · exact ((select_perm beam cs).map Prod.fst).nodup_iff.mpr hnd
  · rw [map_select, sortCkyPtrs_eq_select]

/-- Single bunsetsu, the last one best. -/
def leafEnv : CkyEnv where
  bnstNum := 3
  optParaFix := false
  optNbest := false
  optBeam := 2
  dpndMatrix _ _ := none
  quoteMatrix _ _ := true
  maskMatrix _ _ := 1
  paraNum _ := none
  paraMatrix _ _ _ := false
  yogen _ := false
  renyo _ := false
  mukaku _ := none
  barrierFp _ := false
  barrierMatch _ _ := false
  preference _ := -1
  score c := c.j

theorem leaves_represents :
    ∃ m', sortCkyPtrs leafEnv.score (-9) 4 2 (place 0 [.leaf 1, .leaf 0, .leaf 2]) = some m' ∧
      Represents m' [.leaf 2, .leaf 1, .leaf 0] :=
  @sortCkyPtrs_represents leafEnv _ [.leaf 1, .leaf 0, .leaf 2] (-9) 4 2 (represents_place _ 0)
    (by decide) (by decide)

end Knp.CellList
