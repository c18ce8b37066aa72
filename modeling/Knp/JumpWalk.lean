import Mathlib.Logic.Function.Iterate

/-!
# A walk with jumps

A walk over the positions below `n`, with a state. At each position a step is made that
changes the state and may ask for a jump: then the walk goes on `m` positions further, else
at the next one. A jump by 0 tries the same position again.

> The walk ends just if at no position all further steps jump by 0. Every position
> is then tried or jumped over, and none is both.
-/

namespace JumpWalk

variable {σ : Type*} (step : Nat → σ → σ × Option Nat) (n : Nat)

/-- A step at a position, and the jump it asks for. -/
structure Pass where
  pos : Nat
  jump : Option Nat
deriving DecidableEq

def Pass.next (p : Pass) : Nat :=
  match p.jump with
  | none => p.pos + 1
  | some m => p.pos + m

/-- The steps of the walk from position `i` on, and the last state. -/
def walk : Nat → Nat → σ → Option (List Pass × σ)
  | 0, _, _ => none
  | fuel + 1, i, s =>
      if n ≤ i then some ([], s)
      else (walk fuel (Pass.next ⟨i, (step i s).2⟩) (step i s).1).map fun r =>
        (⟨i, (step i s).2⟩ :: r.1, r.2)

/-- The walk from `i` and `s` comes to `j` and `t`. -/
inductive Reached : Nat → σ → Nat → σ → Prop
  | refl (i : Nat) (s : σ) : Reached i s i s
  | head {i j : Nat} {s t : σ} (hi : i < n)
      (h : Reached (Pass.next ⟨i, (step i s).2⟩) (step i s).1 j t) : Reached i s j t

/-- The state after `k` steps at the same position. -/
def stay (i k : Nat) (s : σ) : σ := (fun s => (step i s).1)^[k] s

/-- Some step at the position moves on. -/
def MovesOn (i : Nat) (s : σ) : Prop := ∃ k, (step i (stay step i k s)).2 ≠ some 0

/-- `j` is jumped over. -/
def Pass.Skips (p : Pass) (j : Nat) : Prop := ∃ m, p.jump = some m ∧ p.pos < j ∧ j < p.pos + m

variable {step n} {fuel i j : Nat} {s t : σ} {ps : List Pass}

theorem Pass.le_next (p : Pass) : p.pos ≤ p.next := by
  unfold Pass.next
  split <;> omega

theorem Pass.lt_next {p : Pass} (h : p.jump ≠ some 0) : p.pos < p.next := by
  unfold Pass.next
  split
  · exact Nat.lt_succ_self _
  next m hm =>
      have hne : m ≠ 0 := fun h0 => h (h0 ▸ hm)
      omega

theorem Reached.trans {k : Nat} {u : σ} (h : Reached step n i s j t)
    (h' : Reached step n j t k u) : Reached step n i s k u := by
  induction h with
  | refl => exact h'
  | head hi _ ih => exact .head hi (ih h')

theorem walk_of_le (h : n ≤ i) : walk step n (fuel + 1) i s = some ([], s) := by
  rw [walk, if_pos h]

theorem walk_of_lt (h : i < n) : walk step n (fuel + 1) i s =
    (walk step n fuel (Pass.next ⟨i, (step i s).2⟩) (step i s).1).map fun r =>
      (⟨i, (step i s).2⟩ :: r.1, r.2) := by
  rw [walk, if_neg (Nat.not_le_of_lt h)]

/-- A walk that is at an end, or goes on with one more step. -/
theorem walk_inv (h : walk step n (fuel + 1) i s = some (ps, t)) :
    n ≤ i ∧ ps = [] ∨ i < n ∧ ∃ ps', ps = ⟨i, (step i s).2⟩ :: ps' ∧
      walk step n fuel (Pass.next ⟨i, (step i s).2⟩) (step i s).1 = some (ps', t) := by
  rcases Nat.lt_or_ge i n with hi | hi
  · rw [walk_of_lt hi] at h
    obtain ⟨⟨ps', t'⟩, hr, heq⟩ := Option.map_eq_some_iff.mp h
    obtain ⟨rfl, rfl⟩ := Prod.mk.inj heq
    exact .inr ⟨hi, ps', rfl, hr⟩
  · rw [walk_of_le hi] at h
    exact .inl ⟨hi, (Prod.mk.inj (Option.some.inj h)).1.symm⟩

/-! ## The end -/

/-- Nothing but jumps by 0: the walk stays for ever. -/
theorem walk_stuck (hi : i < n) (h : ¬MovesOn step i s) (fuel : Nat) :
    walk step n fuel i s = none := by
  induction fuel generalizing s with
  | zero => rfl
  | succ fuel ih =>
      have hzero : (step i s).2 = some 0 := not_not.mp fun hne => h ⟨0, hne⟩
      have hrest : ¬MovesOn step i (step i s).1 := fun ⟨k, hk⟩ => h ⟨k + 1, hk⟩
      rw [walk_of_lt hi, hzero]
      exact Option.map_eq_none_iff.mpr (ih hrest)

/-- The steps at one position, as long as they jump by 0. -/
theorem ends_of_movesOn
    (hnext : ∀ s', i < n → Reached step n i s i s' → (step i s').2 ≠ some 0 →
      ∃ fuel r, walk step n fuel (Pass.next ⟨i, (step i s').2⟩) (step i s').1 = some r)
    (hi : i < n) (h : MovesOn step i s) : ∃ fuel r, walk step n fuel i s = some r := by
  obtain ⟨k, hk⟩ := h
  induction k generalizing s with
  | zero =>
      obtain ⟨fuel, r, hr⟩ := hnext s hi (.refl i s) hk
      exact ⟨fuel + 1, _, by rw [walk_of_lt hi, hr]; rfl⟩
  | succ k ih =>
      by_cases hzero : (step i s).2 = some 0
      · have hstay : Pass.next ⟨i, (step i s).2⟩ = i := by rw [hzero]; rfl
        obtain ⟨fuel, r, hr⟩ := ih (fun s' hi' hs' => hnext s' hi'
          (.head hi (by rw [hstay]; exact hs'))) hk
        exact ⟨fuel + 1, _, by rw [walk_of_lt hi, hstay, hr]; rfl⟩
      · obtain ⟨fuel, r, hr⟩ := hnext s hi (.refl i s) hzero
        exact ⟨fuel + 1, _, by rw [walk_of_lt hi, hr]; rfl⟩

/-- **The end.** The walk ends just if it can move on from wherever it comes. -/
theorem ends_iff : (∃ fuel r, walk step n fuel i s = some r) ↔
    ∀ j t, Reached step n i s j t → j < n → MovesOn step j t := by
  constructor
  · rintro ⟨fuel, r, hr⟩ j t hreach hj
    induction hreach generalizing fuel r with
    | refl i s =>
        by_contra hstuck
        rw [walk_stuck hj hstuck] at hr
        cases hr
    | head hi _ ih =>
        cases fuel with
        | zero => cases hr
        | succ fuel =>
            rw [walk_of_lt hi] at hr
            obtain ⟨r', hr', -⟩ := Option.map_eq_some_iff.mp hr
            exact ih fuel r' hr' hj
  · -- each position that is left makes the rest shorter
    induction hd : n - i using Nat.strongRecOn generalizing i s with
    | _ d ih =>
    intro h
    rcases Nat.lt_or_ge i n with hi | hi
    · refine ends_of_movesOn (fun s' _ hs' hne => ?_) hi (h i s (.refl i s) hi)
      have hlt := Pass.lt_next (p := ⟨i, (step i s').2⟩) hne
      exact ih _ (by dsimp only at hlt; omega) rfl fun j t hj =>
        h j t (hs'.trans (.head hi hj))
    · exact ⟨1, _, walk_of_le hi⟩

/-! ## What is tried -/

/-- The passes are the steps that are reached. -/
theorem mem_walk_iff {p : Pass} (h : walk step n fuel i s = some (ps, t)) :
    p ∈ ps ↔ ∃ u, Reached step n i s p.pos u ∧ p.pos < n ∧ p.jump = (step p.pos u).2 := by
  induction fuel generalizing i s ps with
  | zero => cases h
  | succ fuel ih =>
      rcases walk_inv h with ⟨hi, rfl⟩ | ⟨hi, ps', rfl, hr⟩
      · refine iff_of_false List.not_mem_nil ?_
        rintro ⟨u, hu, hlt, -⟩
        generalize p.pos = j at hu hlt
        cases hu with
        | refl => omega
        | head hi' _ => omega
      · rw [List.mem_cons, ih hr]
        constructor
        · rintro (rfl | ⟨u, hu, hlt, hjump⟩)
          · exact ⟨s, .refl i s, hi, rfl⟩
          · exact ⟨u, .head hi hu, hlt, hjump⟩
        · rintro ⟨u, hu, hlt, hjump⟩
          obtain ⟨j, m⟩ := p
          dsimp only at hu hlt hjump ⊢
          subst hjump
          cases hu with
          | refl => exact .inl rfl
          | head _ hu => exact .inr ⟨u, hu, hlt, rfl⟩

theorem le_pos_of_mem {p : Pass} (h : walk step n fuel i s = some (ps, t)) (hp : p ∈ ps) :
    i ≤ p.pos := by
  induction fuel generalizing i s ps with
  | zero => cases h
  | succ fuel ih =>
      rcases walk_inv h with ⟨-, rfl⟩ | ⟨-, ps', rfl, hr⟩
      · cases hp
      · rcases List.mem_cons.mp hp with rfl | hp
        · exact Nat.le_refl _
        · exact Nat.le_trans (Pass.le_next ⟨i, (step i s).2⟩) (ih hr hp)

/-- Every position is tried or jumped over. -/
theorem tried_or_skipped (h : walk step n fuel i s = some (ps, t)) (hij : i ≤ j) (hj : j < n) :
    (∃ p ∈ ps, p.pos = j) ∨ ∃ p ∈ ps, p.Skips j := by
  induction fuel generalizing i s ps with
  | zero => cases h
  | succ fuel ih =>
      have hi : i < n := Nat.lt_of_le_of_lt hij hj
      obtain ⟨-, ps', rfl, hr⟩ := (walk_inv h).resolve_left fun hend =>
        Nat.not_le_of_lt hi hend.1
      rcases Nat.lt_or_ge j (Pass.next ⟨i, (step i s).2⟩) with hlt | hge
      · rcases Nat.eq_or_lt_of_le hij with rfl | hlt'
        · exact .inl ⟨_, List.mem_cons_self, rfl⟩
        · refine .inr ⟨_, List.mem_cons_self, ?_⟩
          unfold Pass.next at hlt
          dsimp only at hlt
          cases hjump : (step i s).2 with
          | none =>
              rw [hjump] at hlt
              dsimp only at hlt
              omega
          | some m =>
              rw [hjump] at hlt
              exact ⟨m, rfl, hlt', hlt⟩
      · exact (ih hr hge).imp
          (fun ⟨p, hp, hpos⟩ => ⟨p, List.mem_cons_of_mem _ hp, hpos⟩)
          (fun ⟨p, hp, hskip⟩ => ⟨p, List.mem_cons_of_mem _ hp, hskip⟩)

/-- What is jumped over is not tried. -/
theorem not_skips_of_mem {p q : Pass} (h : walk step n fuel i s = some (ps, t)) (hp : p ∈ ps)
    (hq : q ∈ ps) : ¬p.Skips q.pos := by
  induction fuel generalizing i s ps with
  | zero => cases h
  | succ fuel ih =>
      rcases walk_inv h with ⟨-, rfl⟩ | ⟨-, ps', rfl, hr⟩
      · cases hp
      · rintro ⟨m, hm, hlo, hhi⟩
        rcases List.mem_cons.mp hp with rfl | hp
        · rcases List.mem_cons.mp hq with rfl | hq
          · exact Nat.lt_irrefl _ hlo
          · have hle := le_pos_of_mem hr hq
            unfold Pass.next at hle
            rw [hm] at hle
            exact Nat.not_lt_of_le hle hhi
        · rcases List.mem_cons.mp hq with rfl | hq
          · have hle := Nat.le_trans (Pass.le_next ⟨i, (step i s).2⟩) (le_pos_of_mem hr hp)
            exact Nat.not_lt_of_le hle hlo
          · exact ih hr hp hq ⟨m, hm, hlo, hhi⟩

end JumpWalk
