import Mathlib.Computability.Language
import Mathlib.Order.Bounds.Basic

/-!
# Sequences of optionally starred conditions

The regular languages denoted by a list of single-letter conditions, each
optionally repeated (`c` or `c*`), and the back-tracking search for a match
that decides every star greedily or lazily.

> A greedy (lazy) search that commits to the *first* success finds the
> globally longest (shortest) matching prefix.

This is false for general regular expressions. For starred sequences it
rests on `exchange`: of two nested words of the language the shared ends can
be swapped. So a star that reads more letters can always be continued at
least as far as one that reads fewer, and the local choice is a global
optimum.
-/

namespace StarSeq

/-- One element of a pattern: a condition on a letter, possibly starred. -/
structure Item (α : Type*) where
  star : Bool
  cond : α → Bool

variable {α : Type*}

/-- The one-letter words satisfying a condition. -/
def letter (c : α → Bool) : Language α := {w | ∃ x, c x = true ∧ w = [x]}

def Item.lang (a : Item α) : Language α :=
  if a.star then KStar.kstar (letter a.cond) else letter a.cond

/-- The language of a pattern: the product of the languages of its elements. -/
def lang (ps : List (Item α)) : Language α := (ps.map Item.lang).prod

/-! ## Membership, element by element -/

theorem mem_letter {c : α → Bool} {w : List α} :
    w ∈ letter c ↔ ∃ x, c x = true ∧ w = [x] := Iff.rfl

theorem mem_star_letter {c : α → Bool} {w : List α} :
    w ∈ KStar.kstar (letter c) ↔ ∀ x ∈ w, c x = true := by
  rw [Language.mem_kstar]
  constructor
  · rintro ⟨L, rfl, hL⟩ x hx
    obtain ⟨l, hl, hxl⟩ := List.mem_flatten.mp hx
    obtain ⟨y, hy, rfl⟩ := hL l hl
    rwa [List.mem_singleton.mp hxl]
  · intro h
    refine ⟨w.map fun x => [x], by simp [← List.flatMap_def], ?_⟩
    intro l hl
    obtain ⟨x, hx, rfl⟩ := List.mem_map.mp hl
    exact ⟨x, h x hx, rfl⟩

@[simp] theorem mem_lang_nil {w : List α} : w ∈ lang ([] : List (Item α)) ↔ w = [] := by
  simp [lang, Language.mem_one]

theorem mem_lang_cons {a : Item α} {ps : List (Item α)} {w : List α} :
    w ∈ lang (a :: ps) ↔ ∃ s ∈ a.lang, ∃ q ∈ lang ps, s ++ q = w := by
  rw [lang, List.map_cons, List.prod_cons, Language.mem_mul]; rfl

theorem mem_lang_plain {a : Item α} (ha : a.star = false) {ps : List (Item α)} {w : List α} :
    w ∈ lang (a :: ps) ↔ ∃ x q, w = x :: q ∧ a.cond x = true ∧ q ∈ lang ps := by
  simp only [mem_lang_cons, Item.lang, ha, Bool.false_eq_true, if_false, mem_letter]
  constructor
  · rintro ⟨_, ⟨x, hx, rfl⟩, q, hq, rfl⟩
    exact ⟨x, q, rfl, hx, hq⟩
  · rintro ⟨x, q, rfl, hx, hq⟩
    exact ⟨[x], ⟨x, hx, rfl⟩, q, hq, rfl⟩

theorem mem_lang_star {a : Item α} (ha : a.star = true) {ps : List (Item α)} {w : List α} :
    w ∈ lang (a :: ps) ↔ ∃ s q, w = s ++ q ∧ (∀ x ∈ s, a.cond x = true) ∧ q ∈ lang ps := by
  simp only [mem_lang_cons, Item.lang, ha, if_true, mem_star_letter]
  constructor
  · rintro ⟨s, hs, q, hq, rfl⟩
    exact ⟨s, q, rfl, hs, hq⟩
  · rintro ⟨s, q, rfl, hs, hq⟩
    exact ⟨s, hs, q, hq, rfl⟩

/-- A star reads no letter, or one letter and then goes on. -/
theorem mem_lang_star_step {a : Item α} (ha : a.star = true) {ps : List (Item α)}
    {w : List α} :
    w ∈ lang (a :: ps) ↔
      w ∈ lang ps ∨ ∃ x q, w = x :: q ∧ a.cond x = true ∧ q ∈ lang (a :: ps) := by
  rw [mem_lang_star ha]
  constructor
  · rintro ⟨s, q, rfl, hs, hq⟩
    cases s with
    | nil => exact Or.inl hq
    | cons x s =>
        refine Or.inr ⟨x, s ++ q, rfl, hs x (List.mem_cons_self ..), ?_⟩
        exact (mem_lang_star ha).mpr
          ⟨s, q, rfl, fun y hy => hs y (List.mem_cons_of_mem _ hy), hq⟩
  · rintro (h | ⟨x, q, rfl, hx, hq⟩)
    · exact ⟨[], w, rfl, by simp, h⟩
    · obtain ⟨s, t, rfl, hs, ht⟩ := (mem_lang_star ha).mp hq
      exact ⟨x :: s, t, rfl, List.forall_mem_cons.mpr ⟨hx, hs⟩, ht⟩

theorem mem_lang_of_skip {a : Item α} (ha : a.star = true) {ps : List (Item α)} {w : List α}
    (h : w ∈ lang ps) : w ∈ lang (a :: ps) :=
  (mem_lang_star_step ha).mpr (Or.inl h)

theorem lang_append (ps qs : List (Item α)) : lang (ps ++ qs) = lang ps * lang qs := by
  simp [lang]

theorem letter_reverse (c : α → Bool) : (letter c).reverse = letter c := by
  ext w
  rw [Language.mem_reverse, mem_letter, mem_letter]
  simp

theorem Item.lang_reverse (a : Item α) : a.lang.reverse = a.lang := by
  unfold Item.lang
  split
  · rw [Language.reverse_kstar, letter_reverse]
  · exact letter_reverse _

/-- Reading a word backwards against the pattern backwards is reading it forwards. -/
theorem lang_reverse : ∀ ps : List (Item α), lang ps.reverse = (lang ps).reverse
  | [] => by simp [lang]
  | a :: ps => by
      rw [List.reverse_cons, lang_append, lang_reverse ps]
      simp [lang, Language.reverse_mul, Item.lang_reverse]

theorem reverse_mem_lang_reverse {ps : List (Item α)} {w : List α} :
    w.reverse ∈ lang ps.reverse ↔ w ∈ lang ps := by
  rw [lang_reverse, Language.reverse_mem_reverse]

/-! ## The exchange property -/

/-- **Exchange.** If a word of the language contains another word of the
language, then the prefix up to the inner word's end and the suffix from the
inner word's start are words of the language too. By induction on the
pattern: at a starred element the two readings leave the star in one order
or the other, and whichever leaves first can take over the other's rest. -/
theorem exchange : ∀ {ps : List (Item α)} {u v t : List α},
    u ++ v ++ t ∈ lang ps → v ∈ lang ps → u ++ v ∈ lang ps ∧ v ++ t ∈ lang ps
  | [], u, v, t, h, _ => by
      simp only [mem_lang_nil, List.append_eq_nil_iff] at h
      obtain ⟨⟨rfl, rfl⟩, rfl⟩ := h
      simp
  | ⟨false, c⟩ :: ps, u, v, t, h, hv => by
      obtain ⟨y, v', rfl, hy, hv'⟩ := (mem_lang_plain rfl).mp hv
      cases u with
      | nil =>
          obtain ⟨x, q, hq, hx, hmem⟩ := (mem_lang_plain rfl).mp h
          simp only [List.nil_append, List.cons_append, List.cons.injEq] at hq
          obtain ⟨rfl, rfl⟩ := hq
          have hlast : v' ++ t ∈ lang ps := (exchange (u := []) hmem hv').2
          exact ⟨hv, (mem_lang_plain rfl).mpr ⟨y, v' ++ t, rfl, hy, hlast⟩⟩
      | cons x u =>
          obtain ⟨x', q, hq, hx, hmem⟩ := (mem_lang_plain rfl).mp h
          simp only [List.cons_append, List.cons.injEq] at hq
          obtain ⟨rfl, rfl⟩ := hq
          -- the inner reading has consumed its first letter `y`
          have hmem' : (u ++ [y]) ++ v' ++ t ∈ lang ps := by simpa using hmem
          obtain ⟨hpre, hsuf⟩ := exchange hmem' hv'
          refine ⟨(mem_lang_plain rfl).mpr ⟨x, u ++ y :: v', rfl, hx, by simpa using hpre⟩, ?_⟩
          exact (mem_lang_plain rfl).mpr ⟨y, v' ++ t, rfl, hy, hsuf⟩
  | ⟨true, c⟩ :: ps, u, v, t, h, hv => by
      obtain ⟨s, q, hq, hs, hqm⟩ := (mem_lang_star rfl).mp h
      obtain ⟨s', q', rfl, hs', hqm'⟩ := (mem_lang_star rfl).mp hv
      have hsplit : (u ++ s') ++ (q' ++ t) = s ++ q := by simpa using hq
      rcases List.append_eq_append_iff.mp hsplit with ⟨m, rfl, hm⟩ | ⟨m, hm, rfl⟩
      · -- the outer reading stays in the star longer than the inner one
        have hc : ∀ x ∈ u ++ s', c x = true := fun x hx => hs x (List.mem_append_left _ hx)
        have hc' : ∀ x ∈ s' ++ m, c x = true := fun x hx => by
          rcases List.mem_append.mp hx with hx | hx
          · exact hs' x hx
          · exact hs x (List.mem_append_right _ hx)
        refine ⟨(mem_lang_star rfl).mpr ⟨u ++ s', q', by simp, hc, hqm'⟩, ?_⟩
        refine (mem_lang_star rfl).mpr ⟨s' ++ m, q, ?_, hc', hqm⟩
        rw [List.append_assoc, hm, List.append_assoc]
      · -- the outer reading leaves the star inside `u ++ s'`
        have hinner : m ++ q' ++ t ∈ lang ps := by simpa using hqm
        obtain ⟨hpre, hsuf⟩ := exchange hinner hqm'
        refine ⟨(mem_lang_star rfl).mpr ⟨s, m ++ q', ?_, hs, hpre⟩, ?_⟩
        · rw [← List.append_assoc, hm, List.append_assoc]
        · exact (mem_lang_star rfl).mpr ⟨s', q' ++ t, by simp, hs', hsuf⟩

/-! ## Lengths of the matching prefixes -/

/-- The lengths of the prefixes of `w` that belong to the language. -/
def prefixLens (ps : List (Item α)) (w : List α) : Set ℕ :=
  {n | n ≤ w.length ∧ w.take n ∈ lang ps}

theorem mem_prefixLens {ps : List (Item α)} {w : List α} {n : ℕ} :
    n ∈ prefixLens ps w ↔ ∃ p t, w = p ++ t ∧ p.length = n ∧ p ∈ lang ps := by
  constructor
  · rintro ⟨hn, hmem⟩
    exact ⟨w.take n, w.drop n, (List.take_append_drop n w).symm, by simpa using hn, hmem⟩
  · rintro ⟨p, t, rfl, rfl, hp⟩
    exact ⟨by simp, by simpa using hp⟩

theorem prefixLens_nil (w : List α) : prefixLens ([] : List (Item α)) w = {0} := by
  ext n
  simp only [mem_prefixLens, mem_lang_nil, Set.mem_singleton_iff]
  constructor
  · rintro ⟨p, t, -, rfl, rfl⟩; rfl
  · rintro rfl; exact ⟨[], w, rfl, rfl, rfl⟩

theorem prefixLens_plain {a : Item α} (ha : a.star = false) {ps : List (Item α)} {x : α}
    {w : List α} (hx : a.cond x = true) :
    prefixLens (a :: ps) (x :: w) = Nat.succ '' prefixLens ps w := by
  ext n
  simp only [Set.mem_image, mem_prefixLens, mem_lang_plain ha]
  constructor
  · rintro ⟨_, t, h, rfl, y, q, rfl, -, hq⟩
    simp only [List.cons_append, List.cons.injEq] at h
    exact ⟨q.length, ⟨q, t, h.2, rfl, hq⟩, rfl⟩
  · rintro ⟨_, ⟨p, t, rfl, rfl, hp⟩, rfl⟩
    exact ⟨x :: p, t, rfl, rfl, x, p, rfl, hx, hp⟩

theorem prefixLens_plain_nil {a : Item α} (ha : a.star = false) {ps : List (Item α)} :
    prefixLens (a :: ps) ([] : List α) = ∅ := by
  refine Set.eq_empty_iff_forall_notMem.mpr fun n hn => ?_
  obtain ⟨p, t, h, -, hp⟩ := mem_prefixLens.mp hn
  obtain ⟨y, q, rfl, -⟩ := (mem_lang_plain ha).mp hp
  simp at h

theorem prefixLens_plain_ne {a : Item α} (ha : a.star = false) {ps : List (Item α)} {x : α}
    {w : List α} (hx : a.cond x = false) : prefixLens (a :: ps) (x :: w) = ∅ := by
  refine Set.eq_empty_iff_forall_notMem.mpr fun n hn => ?_
  obtain ⟨p, t, h, -, hp⟩ := mem_prefixLens.mp hn
  obtain ⟨y, q, rfl, hy, -⟩ := (mem_lang_plain ha).mp hp
  simp only [List.cons_append, List.cons.injEq] at h
  obtain ⟨rfl, -⟩ := h
  simp [hx] at hy

/-- With no letter for the star to read, the star is skipped. -/
theorem prefixLens_star_skip {a : Item α} (ha : a.star = true) {ps : List (Item α)}
    {w : List α} (hw : ∀ x q, w = x :: q → a.cond x = false) :
    prefixLens (a :: ps) w = prefixLens ps w := by
  ext n
  simp only [mem_prefixLens]
  refine exists_congr fun p => exists_congr fun t => ?_
  refine and_congr_right fun h => and_congr_right fun _ => ?_
  rw [mem_lang_star_step ha]
  refine or_iff_left ?_
  rintro ⟨x, q, rfl, hx, -⟩
  rw [hw x (q ++ t) h] at hx
  exact Bool.false_ne_true hx

theorem prefixLens_star {a : Item α} (ha : a.star = true) (ps : List (Item α)) {x : α}
    (w : List α) (hx : a.cond x = true) :
    prefixLens (a :: ps) (x :: w) =
      prefixLens ps (x :: w) ∪ Nat.succ '' prefixLens (a :: ps) w := by
  ext n
  simp only [Set.mem_union, Set.mem_image, mem_prefixLens]
  constructor
  · rintro ⟨p, t, h, rfl, hp⟩
    rcases (mem_lang_star_step ha).mp hp with hskip | ⟨y, q, rfl, -, hq⟩
    · exact Or.inl ⟨p, t, h, rfl, hskip⟩
    · simp only [List.cons_append, List.cons.injEq] at h
      exact Or.inr ⟨q.length, ⟨q, t, h.2, rfl, hq⟩, rfl⟩
  · rintro (⟨p, t, h, rfl, hp⟩ | ⟨_, ⟨p, t, rfl, rfl, hp⟩, rfl⟩)
    · exact ⟨p, t, h, rfl, mem_lang_of_skip ha hp⟩
    · exact ⟨x :: p, t, rfl, rfl, (mem_lang_star_step ha).mpr (Or.inr ⟨x, p, rfl, hx, hp⟩)⟩

/-- Greedy step: when the star can read a letter and go on to a match, the
longest match after that letter is the longest match. -/
theorem isGreatest_star {a : Item α} (ha : a.star = true) {ps : List (Item α)} {x : α}
    {w : List α} (hx : a.cond x = true) {n : ℕ}
    (hn : IsGreatest (prefixLens (a :: ps) w) n) :
    IsGreatest (prefixLens (a :: ps) (x :: w)) (n + 1) := by
  rw [prefixLens_star ha ps w hx]
  refine ⟨Or.inr ⟨n, hn.1, rfl⟩, ?_⟩
  rintro m (hm | ⟨k, hk, rfl⟩)
  · by_contra hlt
    -- a longer match that skips the star would contain the rest of the found one
    obtain ⟨p, t, hw, rfl, hp⟩ := mem_prefixLens.mp hm
    obtain ⟨p', t', rfl, rfl, hp'⟩ := mem_prefixLens.mp hn.1
    obtain ⟨s, q, rfl, hs, hq⟩ := (mem_lang_star ha).mp hp'
    obtain ⟨r, rfl⟩ : ∃ r, p = x :: (s ++ q) ++ r := by
      rcases List.append_eq_append_iff.mp
        (show (x :: (s ++ q)) ++ t' = p ++ t from hw) with ⟨r, h, -⟩ | ⟨r, h, -⟩
      · exact ⟨r, h⟩
      · have hlen := congrArg List.length h
        simp only [List.length_cons, List.length_append] at hlen hlt
        omega
    have hin : (x :: s) ++ q ++ r ∈ lang ps := by simpa using hp
    have hlong : q ++ r ∈ lang ps := (exchange hin hq).2
    have hr : (s ++ q ++ r).length ∈ prefixLens (a :: ps) (s ++ q ++ t') := by
      refine mem_prefixLens.mpr ⟨s ++ q ++ r, t, ?_, rfl, ?_⟩
      · simpa using hw
      · exact (mem_lang_star ha).mpr ⟨s, q ++ r, by simp, hs, hlong⟩
    have hle := hn.2 hr
    simp only [List.length_cons, List.length_append] at hle hlt
    omega
  · exact Nat.succ_le_succ (hn.2 hk)

/-- Lazy step: when the pattern matches with the star skipped, the shortest
such match is the shortest match. -/
theorem isLeast_star {a : Item α} (ha : a.star = true) {ps : List (Item α)} {w : List α}
    {n : ℕ} (hn : IsLeast (prefixLens ps w) n) : IsLeast (prefixLens (a :: ps) w) n := by
  obtain ⟨p, t, rfl, rfl, hp⟩ := mem_prefixLens.mp hn.1
  refine ⟨mem_prefixLens.mpr ⟨p, t, rfl, rfl, mem_lang_of_skip ha hp⟩, ?_⟩
  intro m hm
  by_contra hlt
  obtain ⟨p', t', hw, rfl, hp'⟩ := mem_prefixLens.mp hm
  obtain ⟨s, q, rfl, -, hq⟩ := (mem_lang_star ha).mp hp'
  obtain ⟨r, rfl⟩ : ∃ r, p = s ++ q ++ r := by
    rcases List.append_eq_append_iff.mp hw with ⟨r, h, -⟩ | ⟨r, h, -⟩
    · rw [h, List.length_append] at hlt
      omega
    · exact ⟨r, h⟩
  have hshort := hn.2 (mem_prefixLens.mpr ⟨s ++ q, r ++ t, by simp, rfl, (exchange hp hq).1⟩)
  exact hlt hshort

theorem isGreatest_succ {S : Set ℕ} {n : ℕ} (h : IsGreatest S n) :
    IsGreatest (Nat.succ '' S) (n + 1) :=
  ⟨⟨n, h.1, rfl⟩, by rintro _ ⟨k, hk, rfl⟩; exact Nat.succ_le_succ (h.2 hk)⟩

theorem isLeast_succ {S : Set ℕ} {n : ℕ} (h : IsLeast S n) :
    IsLeast (Nat.succ '' S) (n + 1) :=
  ⟨⟨n, h.1, rfl⟩, by rintro _ ⟨k, hk, rfl⟩; exact Nat.succ_le_succ (h.2 hk)⟩

end StarSeq
