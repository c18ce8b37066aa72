import Mathlib.Data.List.Basic
import Mathlib.Data.List.Induction
import Mathlib.Order.MinMax
import Mathlib.Tactic.Common

/-!
# A running best with its ties

Elements come one after the other. One with a greater key replaces what is kept; one with the
same key replaces it as well, or is added as long as there is room.

> What is kept are the last of the best elements that replace others, and the best ones that
> came after it.
-/

namespace TiedBest

variable {α β K : Type*} [LinearOrder K] (key : α → K) (replaces : α → Bool) (limit : Nat)

def step (s : K × List α) (x : α) : K × List α :=
  if s.1 < key x ∨ s.1 = key x ∧ replaces x = true then (key x, [x])
  else if s.1 = key x ∧ s.2.length < limit then (s.1, s.2 ++ [x])
  else s

def run (k₀ : K) (l : List α) : K × List α := l.foldl (step key replaces limit) (k₀, [])

/-- The greatest key, or the one at the start. -/
def best (k₀ : K) (l : List α) : K := l.foldl (fun k x => max k (key x)) k₀

/-- One more tie. -/
def keep (kept : List α) (x : α) : List α :=
  if replaces x then [x] else if kept.length < limit then kept ++ [x] else kept

/-- What is kept of a sequence of ties. -/
def survivors (t : List α) : List α := t.foldl (keep replaces limit) []

/-- The elements that replace others, if there are any. -/
def wanted (t : List α) : List α := if t.any replaces then t.filter replaces else t

/-- The elements with the greatest key. -/
def tied (l : List α) : List α := l.filter fun x => l.all fun y => key y ≤ key x

variable {key replaces limit} {k₀ : K} {l t : List α} {x : α}

/-! ## The run -/

theorem best_append (k₀ : K) (l : List α) (x : α) :
    best key k₀ (l ++ [x]) = max (best key k₀ l) (key x) := by
  rw [best, List.foldl_append]
  rfl

theorem le_best (k₀ : K) (l : List α) : k₀ ≤ best key k₀ l ∧ ∀ x ∈ l, key x ≤ best key k₀ l := by
  induction l using List.reverseRecOn with
  | nil => exact ⟨le_refl k₀, List.forall_mem_nil _⟩
  | append_singleton l y ih =>
      rw [best_append]
      refine ⟨ih.1.trans (le_max_left _ _), fun x hx => ?_⟩
      rcases List.mem_append.mp hx with hx | hx
      · exact (ih.2 x hx).trans (le_max_left _ _)
      · rw [List.mem_singleton.mp hx]
        exact le_max_right _ _

theorem best_mem (k₀ : K) (l : List α) : best key k₀ l = k₀ ∨ ∃ x ∈ l, best key k₀ l = key x := by
  induction l using List.reverseRecOn with
  | nil => exact Or.inl rfl
  | append_singleton l y ih =>
      rw [best_append]
      rcases max_choice (best key k₀ l) (key y) with hmax | hmax
      · rw [hmax]
        exact ih.imp_right fun ⟨x, hx, heq⟩ => ⟨x, List.mem_append_left _ hx, heq⟩
      · exact Or.inr ⟨y, List.mem_append_right _ (List.mem_singleton_self y), hmax⟩

/-- The elements that are kept are chosen from those with the best key. -/
theorem run_eq (hlimit : 0 < limit) (k₀ : K) (l : List α) : run key replaces limit k₀ l =
    (best key k₀ l, survivors replaces limit (l.filter (key · = best key k₀ l))) := by
  induction l using List.reverseRecOn with
  | nil => rfl
  | append_singleton l x ih =>
      have hrun : run key replaces limit k₀ (l ++ [x]) =
          step key replaces limit (run key replaces limit k₀ l) x := by
        rw [run, List.foldl_append]
        rfl
      rw [hrun, ih, best_append, List.filter_append, step]
      dsimp only
      rcases lt_trichotomy (best key k₀ l) (key x) with hlt | heq | hgt
      · have hnone : l.filter (key · = key x) = [] := by
          refine List.filter_eq_nil_iff.mpr fun y hy hyx => ?_
          exact (((le_best k₀ l).2 y hy).trans_lt hlt).ne (of_decide_eq_true hyx)
        have hkeep : keep replaces limit [] x = [x] := by
          rw [keep, List.length_nil, if_pos hlimit, List.nil_append, ite_self]
        have hx : [x].filter (key · = key x) = [x] := List.filter_cons_of_pos (decide_eq_true rfl)
        rw [if_pos (Or.inl hlt), max_eq_right hlt.le, hnone, hx, List.nil_append]
        exact congrArg (Prod.mk (key x)) hkeep.symm
      · have hx : [x].filter (key · = best key k₀ l) = [x] :=
          List.filter_cons_of_pos (decide_eq_true heq.symm)
        rw [← heq, max_self, hx, survivors, survivors, List.foldl_append]
        change _ = (best key k₀ l, keep replaces limit _ x)
        rw [keep]
        by_cases hx : replaces x = true
        · rw [if_pos (Or.inr ⟨rfl, hx⟩), if_pos hx]
        · rw [if_neg (fun hor => hor.elim (lt_irrefl _) fun h => hx h.2), if_neg hx]
          simp only [true_and]
          split <;> rfl
      · have hx : [x].filter (key · = best key k₀ l) = [] :=
          List.filter_cons_of_neg fun h => hgt.ne (of_decide_eq_true h)
        rw [if_neg (fun hor => hor.elim hgt.asymm fun h => hgt.ne h.1.symm),
          if_neg (fun h => hgt.ne h.1.symm), max_eq_left hgt.le, hx, List.append_nil]

/-- Those with the best key are the tied ones, unless all keys are below the one at the start. -/
theorem filter_best (h : ∃ x ∈ l, k₀ ≤ key x) :
    l.filter (key · = best key k₀ l) = tied key l := by
  obtain ⟨x₀, hx₀, hk₀⟩ := h
  refine List.filter_congr fun x hx => ?_
  rw [Bool.eq_iff_iff, decide_eq_true_iff, List.all_eq_true]
  constructor
  · intro heq y hy
    rw [decide_eq_true_iff, heq]
    exact (le_best k₀ l).2 y hy
  · intro hall
    refine le_antisymm ((le_best k₀ l).2 x hx) ?_
    rcases best_mem k₀ l with hbest | ⟨y, hy, hbest⟩
    · rw [hbest]
      exact hk₀.trans (of_decide_eq_true (hall x₀ hx₀))
    · rw [hbest]
      exact of_decide_eq_true (hall y hy)

theorem filter_best_nil (h : ∀ x ∈ l, key x < k₀) : l.filter (key · = best key k₀ l) = [] :=
  List.filter_eq_nil_iff.mpr fun x hx heq =>
    ((h x hx).trans_le (le_best k₀ l).1).ne (of_decide_eq_true heq)

theorem tied_ne_nil (h : l ≠ []) : tied key l ≠ [] := by
  obtain ⟨x, hx⟩ := List.exists_mem_of_ne_nil l h
  have hne : ∃ x ∈ l, key x ≤ key x := ⟨x, hx, le_refl _⟩
  have hmem : best key (key x) l = key x ∨ ∃ y ∈ l, best key (key x) l = key y :=
    best_mem (key x) l
  rcases hmem with hbest | ⟨y, hy, hbest⟩
  · rw [← filter_best ⟨x, hx, le_refl (key x)⟩]
    exact List.ne_nil_of_mem (List.mem_filter.mpr ⟨hx, decide_eq_true hbest.symm⟩)
  · rw [← filter_best ⟨x, hx, le_refl (key x)⟩]
    exact List.ne_nil_of_mem (List.mem_filter.mpr ⟨hy, decide_eq_true hbest.symm⟩)

/-! ## The ties -/

theorem wanted_ne_nil (h : t ≠ []) : wanted replaces t ≠ [] := by
  rw [wanted]
  split_ifs with hany
  · obtain ⟨x, hx, hrep⟩ := List.any_eq_true.mp hany
    exact List.ne_nil_of_mem (List.mem_filter.mpr ⟨hx, hrep⟩)
  · exact h

/-- What is kept starts at the last element that replaces others. -/
theorem survivors_cases (ht : t.length ≤ limit) :
    ((∀ x ∈ t, replaces x = false) ∧ survivors replaces limit t = t) ∨
      ∃ front f back, t = front ++ f :: back ∧ replaces f = true ∧
        (∀ x ∈ back, replaces x = false) ∧ survivors replaces limit t = f :: back := by
  induction t using List.reverseRecOn with
  | nil => exact Or.inl ⟨List.forall_mem_nil _, rfl⟩
  | append_singleton t x ih =>
      rw [List.length_append, List.length_singleton] at ht
      have hsurvivors : survivors replaces limit (t ++ [x]) =
          keep replaces limit (survivors replaces limit t) x := by
        rw [survivors, List.foldl_append]
        rfl
      rw [hsurvivors, keep]
      by_cases hx : replaces x = true
      · rw [if_pos hx]
        exact Or.inr ⟨t, x, [], rfl, hx, List.forall_mem_nil _, rfl⟩
      · rw [if_neg hx]
        have hx' : ∀ y ∈ [x], replaces y = false := by
          intro y hy
          rw [List.mem_singleton.mp hy]
          exact Bool.eq_false_iff.mpr hx
        rcases ih (by omega) with ⟨hnone, hkept⟩ | ⟨front, f, back, rfl, hf, hback, hkept⟩
        · rw [hkept, if_pos (by omega)]
          refine Or.inl ⟨fun y hy => ?_, rfl⟩
          exact (List.mem_append.mp hy).elim (hnone y) (hx' y)
        · rw [List.length_append, List.length_cons] at ht
          rw [hkept, if_pos (by rw [List.length_cons]; omega)]
          refine Or.inr ⟨front, f, back ++ [x], ?_, hf, fun y hy => ?_, rfl⟩
          · rw [List.append_assoc, List.cons_append]
          · exact (List.mem_append.mp hy).elim (hback y) (hx' y)

/-- What is kept is what is wanted just if there is one element to be wanted, and it comes last. -/
theorem survivors_wanted_iff (ht : t.length ≤ limit) {f : α → β}
    (hf : ∀ x y, f x = f y → replaces x = replaces y) :
    (∀ q, q ∈ (survivors replaces limit t).map f ↔ q ∈ (wanted replaces t).map f) ↔
      ∀ x ∈ t, replaces x = true → t.getLast?.map f = some (f x) := by
  rcases survivors_cases ht with ⟨hnone, hkept⟩ | ⟨front, g, back, heq, hg, hback, hkept⟩
  · have hwanted : wanted replaces t = t := by
      rw [wanted, if_neg]
      intro hany
      obtain ⟨x, hx, hrep⟩ := List.any_eq_true.mp hany
      exact absurd hrep (Bool.eq_false_iff.mp (hnone x hx))
    rw [hkept, hwanted]
    refine iff_of_true (fun q => Iff.rfl) fun x hx hrep => ?_
    exact absurd hrep (Bool.eq_false_iff.mp (hnone x hx))
  · have hmem : g ∈ t := heq ▸ List.mem_append_right _ List.mem_cons_self
    have hwanted : wanted replaces t = t.filter replaces := by
      rw [wanted, if_pos (List.any_eq_true.mpr ⟨g, hmem, hg⟩)]
    rw [hkept, hwanted]
    rcases List.eq_nil_or_concat' back with rfl | ⟨init, b, rfl⟩
    · have hlast : t.getLast? = some g := by rw [heq, List.getLast?_append]; rfl
      rw [hlast, Option.map_some, List.map_singleton]
      constructor
      · intro hall x hx hrep
        have hq := (hall (f x)).mpr (List.mem_map_of_mem (List.mem_filter.mpr ⟨hx, hrep⟩))
        rw [List.mem_singleton.mp hq]
      · intro hall q
        rw [List.mem_singleton, List.mem_map]
        constructor
        · rintro rfl
          exact ⟨g, List.mem_filter.mpr ⟨hmem, hg⟩, rfl⟩
        · rintro ⟨x, hx, rfl⟩
          obtain ⟨hx, hrep⟩ := List.mem_filter.mp hx
          exact (Option.some.inj (hall x hx hrep)).symm
    · -- an element that does not replace others comes last
      have hb : replaces b = false := hback b (List.mem_append_right _ (List.mem_singleton_self b))
      have hlast : t.getLast? = some b := by
        rw [heq, List.getLast?_append, ← List.cons_append, List.getLast?_concat]
        rfl
      refine iff_of_false (fun hall => ?_) fun hall => ?_
      · have hq := (hall (f b)).mp (List.mem_map_of_mem
          (List.mem_cons_of_mem g (List.mem_append_right _ (List.mem_singleton_self b))))
        obtain ⟨x, hx, hxb⟩ := List.mem_map.mp hq
        rw [← hf x b hxb, (List.mem_filter.mp hx).2] at hb
        cases hb
      · have hgb := hall g hmem hg
        rw [hlast, Option.map_some] at hgb
        rw [hf b g (Option.some.inj hgb), hg] at hb
        cases hb

end TiedBest
