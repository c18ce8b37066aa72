import Mathlib.Data.List.Basic

/-!
# Runs with a record

A run from a state leaves the list of its events and, unless it fails, its last
state. Runs are put one behind the other (`andThen`, `forEach`).

> If each event decides whether its step succeeds, the run succeeds exactly if
> all its events allow it. What holds around each step and can be composed holds
> around the run.
-/

def Traced (σ ε : Type*) := σ → List ε × Option σ

namespace Traced

variable {σ ε α : Type*}

def skip : Traced σ ε := fun s => ([], some s)

def stuck : Traced σ ε := fun _ => ([], none)

/-- A step that leaves one event. -/
def event (e : σ → ε) (step : σ → Option σ) : Traced σ ε := fun s => ([e s], step s)

def andThen (p q : Traced σ ε) : Traced σ ε := fun s =>
  match (p s).2 with
  | none => ((p s).1, none)
  | some s' => ((p s).1 ++ (q s').1, (q s').2)

def forEach (body : α → Traced σ ε) : List α → Traced σ ε
  | [] => skip
  | a :: l => (body a).andThen (forEach body l)

section Rules

variable {I : σ → Prop} {Q Q' ok : ε → Prop} {R : List ε → σ → σ → Prop} {p q : Traced σ ε}
  {s s' : σ}

theorem andThen_of_none (h : (p s).2 = none) : p.andThen q s = ((p s).1, none) := by
  unfold andThen
  rw [h]

theorem andThen_of_some (h : (p s).2 = some s') :
    p.andThen q s = ((p s).1 ++ (q s').1, (q s').2) := by
  unfold andThen
  rw [h]

/-- From `s` the events satisfy `Q`, the run succeeds exactly if all of them are
`ok`, and then `R` holds around it. -/
structure Runs (I : σ → Prop) (Q ok : ε → Prop) (R : List ε → σ → σ → Prop) (p : Traced σ ε)
    (s : σ) : Prop where
  events : ∀ e ∈ (p s).1, Q e
  succeeds : (∃ s', (p s).2 = some s') ↔ ∀ e ∈ (p s).1, ok e
  keeps : ∀ s', (p s).2 = some s' → I s'
  around : ∀ s', (p s).2 = some s' → R (p s).1 s s'

/-- `R` can be composed. -/
structure Composes (R : List ε → σ → σ → Prop) : Prop where
  refl : ∀ s, R [] s s
  trans : ∀ es es' s s₁ s', R es s s₁ → R es' s₁ s' → R (es ++ es') s s'

theorem Runs.mono (h : Runs I Q ok R p s) (hQ : ∀ e, Q e → Q' e) : Runs I Q' ok R p s :=
  ⟨fun e he => hQ e (h.events e he), h.succeeds, h.keeps, h.around⟩

theorem Runs.congr (h : Runs I Q ok R q s) (heq : p s = q s) : Runs I Q ok R p s :=
  ⟨heq ▸ h.events, heq ▸ h.succeeds, heq ▸ h.keeps, heq ▸ h.around⟩

theorem Runs.skip (hR : Composes R) (hs : I s) : Runs I Q ok R skip s where
  events e he := absurd he List.not_mem_nil
  succeeds := ⟨fun _ e he => absurd he List.not_mem_nil, fun _ => ⟨s, rfl⟩⟩
  keeps s' h := Option.some.inj h ▸ hs
  around s' h := by
    obtain rfl := Option.some.inj h
    exact hR.refl s

theorem Runs.event {e : σ → ε} {step : σ → Option σ} (hQ : Q (e s))
    (hok : (∃ s', step s = some s') ↔ ok (e s))
    (hstep : ∀ s', step s = some s' → I s' ∧ R [e s] s s') :
    Runs I Q ok R (event e step) s where
  events e' he := by
    obtain rfl := List.mem_singleton.mp he
    exact hQ
  succeeds := by
    rw [show (Traced.event e step s).1 = [e s] from rfl, List.forall_mem_singleton]
    exact hok
  keeps s' h := (hstep s' h).1
  around s' h := (hstep s' h).2

/-- The second run starts where the first one ends. -/
theorem Runs.andThen (hR : Composes R) (hp : Runs I Q ok R p s)
    (hq : ∀ s', I s' → R (p s).1 s s' → Runs I Q ok R q s') : Runs I Q ok R (p.andThen q) s := by
  cases hfirst : (p s).2 with
  | none =>
      have hbad : ¬ ∀ e ∈ (p s).1, ok e := fun hall => by
        obtain ⟨s', hs'⟩ := hp.succeeds.mpr hall
        rw [hfirst] at hs'
        cases hs'
      refine ⟨?_, ?_, fun s' h => ?_, fun s' h => ?_⟩
      · rw [andThen_of_none hfirst]
        exact hp.events
      · rw [andThen_of_none hfirst]
        exact ⟨fun h => (by obtain ⟨_, h⟩ := h; cases h), fun hall => absurd hall hbad⟩
      all_goals
        rw [andThen_of_none hfirst] at h
        cases h
  | some s₁ =>
      have hsecond := hq s₁ (hp.keeps s₁ hfirst) (hp.around s₁ hfirst)
      have hok := hp.succeeds.mp ⟨s₁, hfirst⟩
      refine ⟨?_, ?_, fun s' h => ?_, fun s' h => ?_⟩
      · rw [andThen_of_some hfirst]
        exact fun e he => (List.mem_append.mp he).elim (hp.events e) (hsecond.events e)
      · rw [andThen_of_some hfirst, List.forall_mem_append, hsecond.succeeds]
        exact ⟨fun h => ⟨hok, h⟩, And.right⟩
      · rw [andThen_of_some hfirst] at h
        exact hsecond.keeps s' h
      · rw [andThen_of_some hfirst] at h ⊢
        exact hR.trans _ _ s s₁ s' (hp.around s₁ hfirst) (hsecond.around s' h)

theorem Runs.forEach (hR : Composes R) {body : α → Traced σ ε} : ∀ {l : List α} {s : σ}, I s →
    (∀ a ∈ l, ∀ s, I s → Runs I Q ok R (body a) s) → Runs I Q ok R (forEach body l) s
  | [], _, hs, _ => Runs.skip hR hs
  | a :: _, s, hs, h => Runs.andThen hR (h a List.mem_cons_self s hs) fun _ hs' _ =>
      Runs.forEach hR hs' fun b hb => h b (List.mem_cons_of_mem a hb)

/-- Each turn of a loop that succeeds has been made from a state on its way. -/
theorem forEach_turn (hR : Composes R) {body : α → Traced σ ε} {a : α} :
    ∀ {l : List α} {s s' : σ}, I s → (∀ a ∈ l, ∀ s, I s → Runs I Q ok R (body a) s) → a ∈ l →
      (forEach body l s).2 = some s' → ∃ es s₁ s₂, I s₁ ∧ R es s s₁ ∧ (body a s₁).2 = some s₂ ∧
        ∀ e ∈ (body a s₁).1, e ∈ (forEach body l s).1
  | b :: l, s, s', hs, h, ha, hrun => by
      have hfirst := h b List.mem_cons_self s hs
      cases hb : (body b s).2 with
      | none =>
          rw [forEach, andThen_of_none hb] at hrun
          cases hrun
      | some s₁ =>
          rw [forEach, andThen_of_some hb] at hrun
          rw [forEach, andThen_of_some hb]
          rcases List.mem_cons.mp ha with rfl | ha
          · exact ⟨[], s, s₁, hs, hR.refl s, hb, fun e he => List.mem_append_left _ he⟩
          · obtain ⟨es, s₂, s₃, hs₂, hbetween, hturn, hevents⟩ := forEach_turn hR
              (hfirst.keeps s₁ hb) (fun c hc => h c (List.mem_cons_of_mem b hc)) ha hrun
            exact ⟨_, s₂, s₃, hs₂, hR.trans _ _ s s₁ s₂ (hfirst.around s₁ hb) hbetween, hturn,
              fun e he => List.mem_append_right _ (hevents e he)⟩

end Rules

end Traced
