import Mathlib.Logic.Relation

/-!
# Class ids

Elements get ids as links between them are found, and those that a chain of links
connects should have one id. Where a link gives its ends an id, that keeps up as
long as neither end had another id before.
-/

namespace ClassIds

variable {τ : Type*} {id id' : τ → Option Nat} {links : List (τ × τ)} {a b c : τ} {x y : Nat}

/-- A chain of links connects the two. -/
def Connected (links : List (τ × τ)) : τ → τ → Prop := Relation.EqvGen fun a b => (a, b) ∈ links

/-- The ends of a link have one id, and only what is connected has one id. -/
structure Consistent (id : τ → Option Nat) (links : List (τ × τ)) : Prop where
  linked : ∀ a b, (a, b) ∈ links → ∃ x, id a = some x ∧ id b = some x
  connected : ∀ a b x, id a = some x → id b = some x → Connected links a b

/-- Both ends get the id `x`. -/
structure Joins (id id' : τ → Option Nat) (a b : τ) (x : Nat) : Prop where
  left : id' a = some x
  right : id' b = some x
  other : ∀ c, c ≠ a → c ≠ b → id' c = id c

/-- Whoever has an id has it by a link with another. -/
def ByLinks (id : τ → Option Nat) (links : List (τ × τ)) : Prop :=
  ∀ a x, id a = some x → ∃ c, c ≠ a ∧ ((a, c) ∈ links ∨ (c, a) ∈ links)

theorem consistent_nil : Consistent (fun _ : τ => none) [] :=
  ⟨fun _ _ h => absurd h List.not_mem_nil, fun _ _ _ h => by cases h⟩

theorem Connected.mono {links' : List (τ × τ)} (hsub : ∀ l ∈ links, l ∈ links')
    (h : Connected links a b) : Connected links' a b := by
  induction h with
  | rel a b hmem => exact .rel a b (hsub _ hmem)
  | refl a => exact .refl a
  | symm a b _ ih => exact .symm a b ih
  | trans a b c _ _ ih₁ ih₂ => exact .trans a b c ih₁ ih₂

namespace Joins

theorem symm (h : Joins id id' a b x) : Joins id id' b a x :=
  ⟨h.right, h.left, fun c hb ha => h.other c ha hb⟩

/-- No id is replaced by another. -/
theorem keeps (h : Joins id id' a b x) (ha : id a = none ∨ id a = some x)
    (hb : id b = none ∨ id b = some x) (hc : id c = some y) : id' c = some y := by
  have hend : ∀ e, id e = none ∨ id e = some x → id' e = some x → c = e → id' c = some y := by
    rintro e (he | he) he' rfl
    · rw [hc] at he
      cases he
    · rw [he', ← he, hc]
  by_cases hca : c = a
  · exact hend a ha h.left hca
  · by_cases hcb : c = b
    · exact hend b hb h.right hcb
    · rw [h.other c hca hcb, hc]

theorem byLinks (h : Joins id id' a b x) (hab : a ≠ b) (hby : ByLinks id links) :
    ByLinks id' (links ++ [(a, b)]) := by
  intro c y hc
  by_cases hca : c = a
  · exact ⟨b, by rw [hca]; exact hab.symm, .inl (by rw [hca]; exact List.mem_concat_self)⟩
  · by_cases hcb : c = b
    · exact ⟨a, by rw [hcb]; exact hab, .inr (by rw [hcb]; exact List.mem_concat_self)⟩
    · rw [h.other c hca hcb] at hc
      obtain ⟨d, hne, hmem⟩ := hby c y hc
      exact ⟨d, hne, hmem.imp (List.mem_append_left _) (List.mem_append_left _)⟩

end Joins

/-- A link whose ends had no other id. -/
theorem Consistent.join (h : Consistent id links) (hj : Joins id id' a b x)
    (ha : id a = none ∨ id a = some x) (hb : id b = none ∨ id b = some x)
    (hx : ∀ c, id c = some x → id a = some x ∨ id b = some x) :
    Consistent id' (links ++ [(a, b)]) := by
  have hmono : ∀ {c d}, Connected links c d → Connected (links ++ [(a, b)]) c d :=
    Connected.mono fun l hl => List.mem_append_left _ hl
  have hnew : Connected (links ++ [(a, b)]) b a := .symm _ _ (.rel _ _ List.mem_concat_self)
  -- everything with the id of the link is connected with its first end
  have hclass : ∀ c, id' c = some x → Connected (links ++ [(a, b)]) c a := by
    intro c hc
    by_cases hca : c = a
    · exact hca ▸ .refl a
    · by_cases hcb : c = b
      · exact hcb ▸ hnew
      · rw [hj.other c hca hcb] at hc
        rcases hx c hc with hax | hbx
        · exact hmono (h.connected c a x hc hax)
        · exact .trans _ _ _ (hmono (h.connected c b x hc hbx)) hnew
  constructor
  · intro c d hmem
    rcases List.mem_append.mp hmem with hold | hlast
    · obtain ⟨y, hc, hd⟩ := h.linked c d hold
      exact ⟨y, hj.keeps ha hb hc, hj.keeps ha hb hd⟩
    · obtain ⟨rfl, rfl⟩ := Prod.mk.inj (List.mem_singleton.mp hlast)
      exact ⟨x, hj.left, hj.right⟩
  · intro c d y hc hd
    by_cases hyx : y = x
    · subst hyx
      exact .trans _ _ _ (hclass c hc) (.symm _ _ (hclass d hd))
    · have hold : ∀ e, id' e = some y → id e = some y := by
        intro e he
        have hea : e ≠ a := by
          rintro rfl
          exact hyx (Option.some.inj (he.symm.trans hj.left))
        have heb : e ≠ b := by
          rintro rfl
          exact hyx (Option.some.inj (he.symm.trans hj.right))
        rwa [hj.other e hea heb] at he
      exact hmono (h.connected c d y (hold c hc) (hold d hd))

/-- A link that gives its first end another id: the one that end had it from still has the old
one. -/
theorem Consistent.not_join (h : Consistent id links) (hby : ByLinks id links)
    (hj : Joins id id' a b x) (ha : id a = some y) (hyx : y ≠ x) (hb : id b ≠ some y)
    {links' : List (τ × τ)} (hsub : ∀ l ∈ links, l ∈ links') : ¬ Consistent id' links' := by
  intro h'
  obtain ⟨c, hca, hmem⟩ := hby a y ha
  have hold : ∃ z, id a = some z ∧ id c = some z := by
    rcases hmem with hac | hca'
    · exact h.linked a c hac
    · obtain ⟨z, hz, hz'⟩ := h.linked c a hca'
      exact ⟨z, hz', hz⟩
  have hnew : ∃ z, id' a = some z ∧ id' c = some z := by
    rcases hmem with hac | hca'
    · exact h'.linked a c (hsub _ hac)
    · obtain ⟨z, hz, hz'⟩ := h'.linked c a (hsub _ hca')
      exact ⟨z, hz', hz⟩
  obtain ⟨z, hz, hzc⟩ := hold
  obtain ⟨w, hw, hwc⟩ := hnew
  obtain rfl : z = y := Option.some.inj (hz.symm.trans ha)
  obtain rfl : w = x := Option.some.inj (hw.symm.trans hj.left)
  have hcb : c ≠ b := by
    rintro rfl
    exact hb hzc
  rw [hj.other c hca hcb, hzc] at hwc
  exact hyx (Option.some.inj hwc)

end ClassIds
