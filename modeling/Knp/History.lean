import Mathlib.Data.List.Nodup

/-!
# What a history yields

A loop over a list may yield something at each element, by what came before it. What it
yields in a run is `outputs`.

> An output that leaves a mark, and is not yielded where its mark is,
> comes at most once.
-/

namespace History

variable {α β : Type*} (out : List α → α → Option β)

/-- What is yielded at the elements of a list, after those of `pre`. -/
def outputs : List α → List α → List β
  | _, [] => []
  | pre, a :: l => (out pre a).toList ++ outputs (pre ++ [a]) l

variable {out} {pre l : List α} {a : α} {b : β}

theorem mem_outputs_cons : b ∈ outputs out pre (a :: l) ↔
    out pre a = some b ∨ b ∈ outputs out (pre ++ [a]) l := by
  rw [outputs, List.mem_append, Option.mem_toList]

/-- Each output has its place. -/
theorem mem_outputs : ∀ {l : List α} {pre : List α}, b ∈ outputs out pre l ↔
    ∃ l₁ a l₂, l = l₁ ++ a :: l₂ ∧ out (pre ++ l₁) a = some b
  | [], pre => by
      refine ⟨fun h => absurd h List.not_mem_nil, ?_⟩
      rintro ⟨l₁, a, l₂, hl, -⟩
      exact absurd hl.symm (List.append_ne_nil_of_right_ne_nil l₁ (List.cons_ne_nil a l₂))
  | c :: l, pre => by
      rw [mem_outputs_cons, mem_outputs]
      constructor
      · rintro (h | ⟨l₁, a, l₂, rfl, h⟩)
        · exact ⟨[], c, l, rfl, by rwa [List.append_nil]⟩
        · exact ⟨c :: l₁, a, l₂, rfl, by rwa [List.append_cons]⟩
      · rintro ⟨l₁, a, l₂, hl, h⟩
        cases l₁ with
        | nil =>
            obtain ⟨rfl, rfl⟩ := List.cons.inj hl
            rw [List.append_nil] at h
            exact Or.inl h
        | cons x l₁ =>
            obtain ⟨rfl, rfl⟩ := List.cons.inj hl
            exact Or.inr ⟨l₁, a, l₂, rfl, by rwa [← List.append_cons]⟩

/-- No output twice: none is yielded again after its place. -/
theorem nodup_outputs_iff : ∀ {l : List α} {pre : List α}, (outputs out pre l).Nodup ↔
    ∀ l₁ a l₂, l = l₁ ++ a :: l₂ → ∀ b, out (pre ++ l₁) a = some b →
      b ∉ outputs out (pre ++ l₁ ++ [a]) l₂
  | [], pre => by
      refine ⟨fun _ l₁ a l₂ hl => ?_, fun _ => List.nodup_nil⟩
      exact absurd hl.symm (List.append_ne_nil_of_right_ne_nil l₁ (List.cons_ne_nil a l₂))
  | c :: l, pre => by
      have hcons : (outputs out pre (c :: l)).Nodup ↔
          (∀ b, out pre c = some b → b ∉ outputs out (pre ++ [c]) l) ∧
            (outputs out (pre ++ [c]) l).Nodup := by
        rw [outputs]
        cases out pre c <;> simp
      rw [hcons, nodup_outputs_iff]
      constructor
      · rintro ⟨hfirst, hrest⟩ l₁ a l₂ hl b hb
        cases l₁ with
        | nil =>
            obtain ⟨rfl, rfl⟩ := List.cons.inj hl
            rw [List.append_nil] at hb ⊢
            exact hfirst b hb
        | cons x l₁ =>
            obtain ⟨rfl, rfl⟩ := List.cons.inj hl
            rw [List.append_cons pre] at hb ⊢
            exact hrest l₁ a l₂ rfl b hb
      · intro h
        refine ⟨fun b hb => ?_, fun l₁ a l₂ hl b hb => ?_⟩
        · have := h [] c l rfl b (by rwa [List.append_nil])
          rwa [List.append_nil] at this
        · subst hl
          rw [← List.append_cons] at hb ⊢
          exact h (c :: l₁) a l₂ rfl b hb

/-- What is not yielded under its mark does not come where the mark is. -/
theorem not_mem_outputs (Mark : List α → Prop) (hkeep : ∀ pre a, Mark pre → Mark (pre ++ [a])) :
    ∀ {l : List α} {pre : List α}, (∀ pre, ∀ a ∈ l, Mark pre → out pre a ≠ some b) →
      Mark pre → b ∉ outputs out pre l
  | [], _, _, _ => List.not_mem_nil
  | a :: l, pre, hguard, h => by
      rw [mem_outputs_cons, not_or]
      exact ⟨hguard pre a List.mem_cons_self h, not_mem_outputs Mark hkeep
        (fun pre c hc => hguard pre c (List.mem_cons_of_mem a hc)) (hkeep pre a h)⟩

end History
