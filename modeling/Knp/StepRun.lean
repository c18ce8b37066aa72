import Mathlib.Logic.Basic

/-!
# Runs of a step function

A run is the list of the inputs of its steps. `EachState` says of all states of a
run what `EachStep` says of all steps. Where, as long as a property holds, a step keeps
it just if the step meets a condition, the property holds in all states of a
run just if all steps meet the condition.
-/

namespace StepRun

variable {σ ι : Type*} (step : σ → ι → σ)

/-- `C` holds of each input and the state it is applied to. -/
def EachStep (C : σ → ι → Prop) : σ → List ι → Prop
  | _, [] => True
  | s, i :: l => C s i ∧ EachStep C (step s i) l

/-- `P` holds of each state, the first and the last included. -/
def EachState (P : σ → Prop) : σ → List ι → Prop
  | s, [] => P s
  | s, i :: l => P s ∧ EachState P (step s i) l

variable {step}
variable {V C : σ → ι → Prop} {W P : σ → Prop} {s : σ} {l l' : List ι}

theorem EachState.head (h : EachState step P s l) : P s := by
  cases l with
  | nil => exact h
  | cons i l => exact h.1

theorem EachState.last (h : EachState step P s l) : P (l.foldl step s) := by
  induction l generalizing s with
  | nil => exact h
  | cons i l ih => exact ih h.2

theorem eachStep_true (s : σ) (l : List ι) : EachStep step (fun _ _ => True) s l := by
  induction l generalizing s with
  | nil => trivial
  | cons i l ih => exact ⟨trivial, ih _⟩

theorem eachStep_of_forall {p : ι → Prop} (h : ∀ i ∈ l, p i) :
    EachStep step (fun _ i => p i) s l := by
  induction l generalizing s with
  | nil => trivial
  | cons i l ih =>
    exact ⟨h i List.mem_cons_self, ih fun j hj => h j (List.mem_cons_of_mem i hj)⟩

theorem eachStep_append :
    EachStep step C s (l ++ l') ↔ EachStep step C s l ∧ EachStep step C (l.foldl step s) l' := by
  induction l generalizing s with
  | nil => simp [EachStep]
  | cons i l ih => simp [EachStep, ih, and_assoc]

/-- Steps that are possible keep `W`; those that meet `C`, and only those, keep `P` as well. -/
theorem eachState_iff (hW : ∀ s i, W s → V s i → W (step s i))
    (hP : ∀ s i, W s → P s → V s i → (P (step s i) ↔ C s i))
    (hw : W s) (hp : P s) (hv : EachStep step V s l) :
    EachState step P s l ↔ EachStep step C s l := by
  induction l generalizing s with
  | nil => simp [EachState, EachStep, hp]
  | cons i l ih =>
    obtain ⟨hvi, hvl⟩ := hv
    have hstep := hP s i hw hp hvi
    constructor
    · rintro ⟨-, hrest⟩
      exact ⟨hstep.mp hrest.head, (ih (hW s i hw hvi) hrest.head hvl).mp hrest⟩
    · rintro ⟨hc, hrest⟩
      exact ⟨hp, (ih (hW s i hw hvi) (hstep.mpr hc) hvl).mpr hrest⟩

/-- If a step that meets `C` keeps `P` and does what `V` says, then so do the steps of a run that
all meet `C`. -/
theorem eachState_of_eachStep (hstep : ∀ s i, P s → C s i → P (step s i) ∧ V s i) (hp : P s)
    (hc : EachStep step C s l) : EachState step P s l ∧ EachStep step V s l := by
  induction l generalizing s with
  | nil => exact ⟨hp, trivial⟩
  | cons i l ih =>
    obtain ⟨hi, hl⟩ := hc
    obtain ⟨hp', hv⟩ := hstep s i hp hi
    obtain ⟨hstates, hsteps⟩ := ih hp' hl
    exact ⟨⟨hp, hstates⟩, hv, hsteps⟩

/-- Two loops do the same if each turn does, as long as the second loop ends in a state in `Q`:
one that no turn of it leads back to. -/
theorem foldl_congr_of_mono {f g : σ → ι → σ} {I Q : σ → Prop} (hI : ∀ s i, I s → I (g s i))
    (hmono : ∀ s i, I s → Q (g s i) → Q s) (heq : ∀ s i, I s → Q (g s i) → f s i = g s i)
    (hs : I s) (hok : Q (l.foldl g s)) : l.foldl f s = l.foldl g s := by
  have hback : ∀ (l : List ι) (s : σ), I s → Q (l.foldl g s) → Q s := by
    intro l
    induction l with
    | nil => exact fun _ _ h => h
    | cons i l ih => exact fun s hs h => hmono s i hs (ih _ (hI s i hs) h)
  induction l generalizing s with
  | nil => rfl
  | cons i l ih =>
    rw [List.foldl_cons, List.foldl_cons, heq s i hs (hback l _ (hI s i hs) hok)]
    exact ih (hI s i hs) hok

end StepRun
