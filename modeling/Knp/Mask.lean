import Knp.Loop

/-!
# Masking a matrix

Cells of a matrix are written, one after the other, by nested loops. A step that sets cells of
a Boolean matrix to zero and leaves just those that meet a condition `Retains` the condition; a
step that writes one value to just the cells that meet a condition `Fills` them. Loops keep what
all their turns keep and fill what any turn fills, in whatever order.
-/

namespace Mask

open Loop

variable {α β ι : Type*}

/-- `m i j = 0` -/
def clear [DecidableEq α] [DecidableEq β] (i : α) (j : β) (m : α → β → Bool) : α → β → Bool :=
  fun a b => if a = i ∧ b = j then false else m a b

/-- A nonzero cell stays nonzero just if it meets the condition. -/
def Retains (f : (α → β → Bool) → α → β → Bool) (c : α → β → Prop) : Prop :=
  ∀ m i j, f m i j = true ↔ m i j = true ∧ c i j

variable {f g : (α → β → Bool) → α → β → Bool} {c d : α → β → Prop}

theorem Retains.congr (h : Retains f c) (hcd : ∀ i j, c i j ↔ d i j) : Retains f d :=
  fun m i j => by rw [h, hcd]

theorem retains_self : Retains (fun m : α → β → Bool => m) fun _ _ => True := fun _ _ _ => by simp

theorem retains_clear [DecidableEq α] [DecidableEq β] (i : α) (j : β) :
    Retains (clear i j) fun a b => ¬(a = i ∧ b = j) := fun m a b => by
  unfold clear
  by_cases h : a = i ∧ b = j <;> simp [h]

theorem Retains.comp (hf : Retains f c) (hg : Retains g d) :
    Retains (fun m => g (f m)) fun i j => c i j ∧ d i j := fun m i j => by
  rw [hg, hf, and_assoc]

theorem Retains.ite {p : Prop} [Decidable p] (hf : Retains f c) :
    Retains (fun m => if p then f m else m) fun i j => p → c i j := fun m i j => by
  by_cases h : p
  · simpa [h] using hf m i j
  · simp [h]

theorem retains_foldl {l : List ι} {f : ι → (α → β → Bool) → α → β → Bool} {c : ι → α → β → Prop}
    (h : ∀ x ∈ l, Retains (f x) (c x)) :
    Retains (fun m => l.foldl (fun m x => f x m) m) fun i j => ∀ x ∈ l, c x i j := by
  induction l with
  | nil => exact retains_self.congr fun i j => by simp
  | cons x l ih =>
      have hl := ih fun y hy => h y (List.mem_cons_of_mem x hy)
      exact ((h x List.mem_cons_self).comp hl).congr fun i j => by simp

theorem retains_upTo {lo hi : Nat} {f : Nat → (α → β → Bool) → α → β → Bool}
    {c : Nat → α → β → Prop} (h : ∀ k, Retains (f k) (c k)) :
    Retains (upTo lo hi f) fun i j => ∀ k, lo ≤ k → k < hi → c k i j := by
  refine (retains_foldl (l := List.range' lo (hi - lo)) fun k _ => h k).congr fun i j => ?_
  refine forall_congr' fun k => ?_
  rw [List.mem_range'_1]
  constructor
  · exact fun hc hlo hhi => hc ⟨hlo, by omega⟩
  · exact fun hc hk => hc hk.1 (by omega)

/-- Rows and columns are cleared from a rectangle. -/
theorem retains_rectangle (lo hi lo' hi' : Nat) :
    Retains (upTo lo hi fun i => upTo lo' hi' fun j => clear i j)
      fun i j => ¬((lo ≤ i ∧ i < hi) ∧ lo' ≤ j ∧ j < hi') := by
  refine (retains_upTo fun i => retains_upTo fun j => retains_clear i j).congr fun a b => ?_
  constructor
  · rintro h ⟨⟨hlo, hhi⟩, hlo', hhi'⟩
    exact h a hlo hhi b hlo' hhi' ⟨rfl, rfl⟩
  · rintro h i hlo hhi j hlo' hhi' ⟨rfl, rfl⟩
    exact h ⟨⟨hlo, hhi⟩, hlo', hhi'⟩

/-! ## Writing one value -/

variable {V : Type*} {v : V}

/-- `m i j = v` -/
def put [DecidableEq α] [DecidableEq β] (i : α) (j : β) (v : V) (m : α → β → V) : α → β → V :=
  fun a b => if a = i ∧ b = j then v else m a b

/-- The cells that meet the condition are set to `v`, the others are left. -/
def Fills (v : V) (f : (α → β → V) → α → β → V) (c : α → β → Prop) : Prop :=
  ∀ m i j, (c i j → f m i j = v) ∧ (¬c i j → f m i j = m i j)

section Fills

variable {f g : (α → β → V) → α → β → V} {c d : α → β → Prop}

theorem Fills.congr (h : Fills v f c) (hcd : ∀ i j, c i j ↔ d i j) : Fills v f d :=
  fun m i j => by rw [← hcd]; exact h m i j

theorem fills_self : Fills v (fun m : α → β → V => m) fun _ _ => False :=
  fun _ _ _ => ⟨False.elim, fun _ => rfl⟩

theorem fills_put [DecidableEq α] [DecidableEq β] (i : α) (j : β) (v : V) :
    Fills v (put i j v) fun a b => a = i ∧ b = j :=
  fun _ _ _ => ⟨fun h => if_pos h, fun h => if_neg h⟩

theorem Fills.comp (hf : Fills v f c) (hg : Fills v g d) :
    Fills v (fun m => g (f m)) fun i j => c i j ∨ d i j := fun m i j => by
  show (c i j ∨ d i j → g (f m) i j = v) ∧ (¬(c i j ∨ d i j) → g (f m) i j = m i j)
  refine ⟨fun h => ?_, fun h => ?_⟩
  · by_cases hd : d i j
    · exact (hg _ i j).1 hd
    · rw [(hg _ i j).2 hd]
      exact (hf m i j).1 (h.resolve_right hd)
  · rw [not_or] at h
    rw [(hg _ i j).2 h.2, (hf m i j).2 h.1]

theorem Fills.ite {p : Prop} [Decidable p] (hf : Fills v f c) :
    Fills v (fun m => if p then f m else m) fun i j => p ∧ c i j := fun m i j => by
  by_cases h : p
  · simpa [h] using hf m i j
  · simp [h]

theorem fills_foldl {l : List ι} {f : ι → (α → β → V) → α → β → V} {c : ι → α → β → Prop}
    (h : ∀ x ∈ l, Fills v (f x) (c x)) :
    Fills v (fun m => l.foldl (fun m x => f x m) m) fun i j => ∃ x ∈ l, c x i j := by
  induction l with
  | nil => exact fills_self.congr fun i j => by simp
  | cons x l ih =>
      have hl := ih fun y hy => h y (List.mem_cons_of_mem x hy)
      exact ((h x List.mem_cons_self).comp hl).congr fun i j => by simp

theorem fills_upTo {lo hi : Nat} {f : Nat → (α → β → V) → α → β → V} {c : Nat → α → β → Prop}
    (h : ∀ k, Fills v (f k) (c k)) :
    Fills v (upTo lo hi f) fun i j => ∃ k, (lo ≤ k ∧ k < hi) ∧ c k i j := by
  refine (fills_foldl (l := List.range' lo (hi - lo)) fun k _ => h k).congr fun i j => ?_
  refine exists_congr fun k => and_congr_left fun _ => ?_
  rw [List.mem_range'_1]
  omega

end Fills

/-- Rows and columns of a rectangle. -/
theorem fills_rectangle (lo hi lo' hi' : Nat) (v : V) :
    Fills v (upTo lo hi fun i => upTo lo' hi' fun j => put i j v)
      fun i j => (lo ≤ i ∧ i < hi) ∧ lo' ≤ j ∧ j < hi' := by
  refine (fills_upTo fun i => fills_upTo fun j => fills_put i j v).congr fun a b => ?_
  constructor
  · rintro ⟨i, hi, j, hj, rfl, rfl⟩
    exact ⟨hi, hj⟩
  · rintro ⟨hi, hj⟩
    exact ⟨a, hi, b, hj, rfl, rfl⟩

theorem fills_row (i lo hi : Nat) (v : V) :
    Fills v (upTo lo hi fun j => put i j v) fun a j => a = i ∧ lo ≤ j ∧ j < hi := by
  refine (fills_upTo fun j => fills_put i j v).congr fun a b => ?_
  constructor
  · rintro ⟨j, hj, ha, rfl⟩
    exact ⟨ha, hj⟩
  · rintro ⟨ha, hj⟩
    exact ⟨b, hj, ha, rfl⟩

theorem fills_column (j lo hi : Nat) (v : V) :
    Fills v (upTo lo hi fun i => put i j v) fun i b => (lo ≤ i ∧ i < hi) ∧ b = j := by
  refine (fills_upTo fun i => fills_put i j v).congr fun a b => ?_
  constructor
  · rintro ⟨i, hi, rfl, hb⟩
    exact ⟨hi, hb⟩
  · rintro ⟨hi, hb⟩
    exact ⟨a, hi, rfl, hb⟩

end Mask
