import Mathlib.Logic.Relation

/-!
# Two parties with a channel each way

A party sends messages, waits for one or has stopped. What is sent is received in the order
in which it was sent, and nobody knows how long it is under way.

> When one order of the steps comes to an end, each order comes to this end.

A party that waits cannot look whether there is a message, so that the steps of the two
parties commute.
-/

namespace Duplex

variable {μ σ τ : Type*}

/-- What a party does next. -/
inductive Act (μ σ : Type*)
  | send (ms : List μ) (next : σ)
  | recv (next : μ → σ)
  | stop

/-- The states of the parties and what is under way to each. -/
structure Net (μ σ τ : Type*) where
  left : σ
  right : τ
  toLeft : List μ
  toRight : List μ

variable (f : σ → Act μ σ) (g : τ → Act μ τ)

inductive Step : Net μ σ τ → Net μ σ τ → Prop
  | leftSend {s s' t ms dn up} (h : f s = .send ms s') : Step ⟨s, t, dn, up⟩ ⟨s', t, dn, up ++ ms⟩
  | leftRecv {s k t m dn up} (h : f s = .recv k) : Step ⟨s, t, m :: dn, up⟩ ⟨k m, t, dn, up⟩
  | rightSend {s t t' ms dn up} (h : g t = .send ms t') : Step ⟨s, t, dn, up⟩ ⟨s, t', dn ++ ms, up⟩
  | rightRecv {s t k m dn up} (h : g t = .recv k) : Step ⟨s, t, dn, m :: up⟩ ⟨s, k m, dn, up⟩

/-- Any number of steps, in any order. -/
abbrev Run : Net μ σ τ → Net μ σ τ → Prop := Relation.ReflTransGen (Step f g)

variable {f g} {a b c w : Net μ σ τ}

theorem diamond (hb : Step f g a b) (hc : Step f g a c) :
    b = c ∨ ∃ d, Step f g b d ∧ Step f g c d := by
  cases hb with
  | @leftSend s s' t ms dn up h =>
      cases hc with
      | leftSend h' =>
          rw [h] at h'
          cases h'
          exact .inl rfl
      | leftRecv h' => exact nomatch h.symm.trans h'
      | rightSend h' => exact .inr ⟨_, .rightSend h', .leftSend h⟩
      | rightRecv h' => exact .inr ⟨_, .rightRecv h', .leftSend h⟩
  | @leftRecv s k t m dn up h =>
      cases hc with
      | leftSend h' => exact nomatch h.symm.trans h'
      | leftRecv h' =>
          rw [h] at h'
          cases h'
          exact .inl rfl
      | rightSend h' => exact .inr ⟨_, .rightSend h', .leftRecv h⟩
      | rightRecv h' => exact .inr ⟨_, .rightRecv h', .leftRecv h⟩
  | @rightSend s t t' ms dn up h =>
      cases hc with
      | leftSend h' => exact .inr ⟨_, .leftSend h', .rightSend h⟩
      | leftRecv h' => exact .inr ⟨_, .leftRecv h', .rightSend h⟩
      | rightSend h' =>
          rw [h] at h'
          cases h'
          exact .inl rfl
      | rightRecv h' => exact nomatch h.symm.trans h'
  | @rightRecv s t k m dn up h =>
      cases hc with
      | leftSend h' => exact .inr ⟨_, .leftSend h', .rightRecv h⟩
      | leftRecv h' => exact .inr ⟨_, .leftRecv h', .rightRecv h⟩
      | rightSend h' => exact nomatch h.symm.trans h'
      | rightRecv h' =>
          rw [h] at h'
          cases h'
          exact .inl rfl

variable (f g) in
/-- All orders of the steps come to this end. -/
def EndsAt (a w : Net μ σ τ) : Prop :=
  (∀ b, Run f g a b → Run f g b w) ∧ ∀ x, ¬Step f g w x

/-- Whatever has been done, the end of one order of the steps is still reached. -/
theorem endsAt_of_run (hrun : Run f g a w) (hend : ∀ x, ¬Step f g w x) : EndsAt f g a w := by
  refine ⟨fun b h => ?_, hend⟩
  obtain ⟨d, hwd, hbd⟩ := Relation.church_rosser (fun x y z hy hz => by
    rcases diamond hy hz with rfl | ⟨d, hyd, hzd⟩
    · exact ⟨y, .refl, .refl⟩
    · exact ⟨d, .single hyd, .single hzd⟩) hrun h
  rcases hwd.cases_head with rfl | ⟨x, hx, -⟩
  · exact hbd
  · exact absurd hx (hend x)

end Duplex
