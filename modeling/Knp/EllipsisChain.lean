import Mathlib.Data.Option.Basic
import Mathlib.Tactic.Common
import Knp.StepRun

/-!
# The table of omitted arguments (`context.c`)

A slot of `ELLIPSIS_MGR` is a chain of components, one for each pp string. A component is taken
for an empty one if it has no sentence or the tag number 0, and the search for a pp string
ends there: the component is overwritten, and what is linked behind it is cut off.

> The table returns what was stored last for each pp string, in all states of a run, just if
> nothing is stored while the search ends at a component that is there for another pp string
> or has one behind it.
-/

namespace Knp

/-- `ELLIPSIS_COMPONENT`; `score` is of an arbitrary type, `next` the rest of the list. -/
structure EllipsisComponent (S : Type*) where
  s : Option Nat
  ppStr : Option String
  bnst : Int
  score : S
  dist : Int
deriving DecidableEq

/-- The arguments of a store for a pp string. -/
structure EllipsisStore (S : Type*) where
  ppStr : String
  sp : Option Nat
  tagN : Int
  score : S
  dist : Int

section Chain

variable {S : Type*}

/-- `s && bnst` -/
def EllipsisComponent.occupied (c : EllipsisComponent S) : Bool := c.s.isSome && c.bnst ≠ 0

def EllipsisStore.component (x : EllipsisStore S) : EllipsisComponent S :=
  ⟨x.sp, some x.ppStr, x.tagN, x.score, x.dist⟩

/-- The loop of `StoreEllipsisComponent` over the components that are occupied. -/
def storeEllipsisComponent (x : EllipsisStore S) :
    List (EllipsisComponent S) → List (EllipsisComponent S)
  | [] => [x.component]
  | c :: rest =>
      if c.occupied then
        -- ノ格格指定あり: 上書き
        if c.ppStr = some x.ppStr then x.component :: rest
        else c :: storeEllipsisComponent x rest
      else [x.component]

/-- `CheckEllipsisComponent` -/
def checkEllipsisComponent (ppStr : String) (chain : List (EllipsisComponent S)) :
    Option (EllipsisComponent S) :=
  chain.find? fun c => c.ppStr = some ppStr

/-- A slot after `InitEllipsisMGR`. -/
def emptyEllipsisSlot (zero : S) : List (EllipsisComponent S) := [⟨none, none, 0, zero, 0⟩]

/-- The stores so far, and the chain. -/
abbrev EllipsisTable (S : Type*) := List (EllipsisStore S) × List (EllipsisComponent S)

def ellipsisStep (t : EllipsisTable S) (x : EllipsisStore S) : EllipsisTable S :=
  (t.1 ++ [x], storeEllipsisComponent x t.2)

/-- The component that was stored last for a pp string. -/
def lastStored (ppStr : String) (stores : List (EllipsisStore S)) : Option (EllipsisComponent S) :=
  (stores.reverse.find? fun x => x.ppStr = ppStr).map EllipsisStore.component

/-- What is returned for any pp string is what was stored last for it. -/
def ReturnsLast (t : EllipsisTable S) : Prop :=
  ∀ ppStr, checkEllipsisComponent ppStr t.2 = lastStored ppStr t.1

/-- The search for the pp string ends at a component that is not occupied, and this one or one
behind it is there for another pp string. -/
def LosesOther (ppStr : String) : List (EllipsisComponent S) → Prop
  | [] => False
  | c :: rest =>
      if c.occupied then c.ppStr ≠ some ppStr ∧ LosesOther ppStr rest
      else ∃ d ∈ c :: rest, d.ppStr ≠ none ∧ d.ppStr ≠ some ppStr

/-- Each pp string has one component. -/
def OneForEach (chain : List (EllipsisComponent S)) : Prop :=
  chain.Pairwise fun c d => c.ppStr = none ∨ c.ppStr ≠ d.ppStr

/-! ## One store -/

variable {x : EllipsisStore S} {c d : EllipsisComponent S} {chain rest : List (EllipsisComponent S)}
  {ppStr other : String} {t : EllipsisTable S}

theorem component_ppStr (x : EllipsisStore S) : x.component.ppStr = some x.ppStr := rfl

theorem check_cons_of_eq (h : c.ppStr = some ppStr) :
    checkEllipsisComponent ppStr (c :: rest) = some c :=
  List.find?_cons_of_pos (decide_eq_true h)

theorem check_cons_of_ne (h : c.ppStr ≠ some ppStr) :
    checkEllipsisComponent ppStr (c :: rest) = checkEllipsisComponent ppStr rest :=
  List.find?_cons_of_neg fun heq => h (of_decide_eq_true heq)

theorem check_eq_none : checkEllipsisComponent ppStr chain = none ↔
    ∀ d ∈ chain, d.ppStr ≠ some ppStr := by
  rw [checkEllipsisComponent, List.find?_eq_none]
  exact forall₂_congr fun d _ => not_congr decide_eq_true_iff

theorem mem_store (h : d ∈ storeEllipsisComponent x chain) : d = x.component ∨ d ∈ chain := by
  induction chain with
  | nil => exact Or.inl (List.mem_singleton.mp h)
  | cons c rest ih =>
      rw [storeEllipsisComponent] at h
      split_ifs at h
      · exact (List.mem_cons.mp h).imp_right (List.mem_cons_of_mem c)
      · rcases List.mem_cons.mp h with rfl | h
        · exact Or.inr List.mem_cons_self
        · exact (ih h).imp_right (List.mem_cons_of_mem c)
      · exact Or.inl (List.mem_singleton.mp h)

theorem OneForEach.store (h : OneForEach chain) : OneForEach (storeEllipsisComponent x chain) := by
  induction chain with
  | nil => exact List.pairwise_singleton _ _
  | cons c rest ih =>
      obtain ⟨hc, hrest⟩ := List.pairwise_cons.mp h
      rw [storeEllipsisComponent]
      split_ifs with hocc hpp
      · refine List.pairwise_cons.mpr ⟨?_, hrest⟩
        rw [component_ppStr, ← hpp]
        exact hc
      · refine List.pairwise_cons.mpr ⟨?_, ih hrest⟩
        intro d hd
        rcases mem_store hd with rfl | hd
        · exact Or.inr hpp
        · exact hc d hd
      · exact List.pairwise_singleton _ _

/-- What was stored is returned. -/
theorem check_store_self (x : EllipsisStore S) (chain : List (EllipsisComponent S)) :
    checkEllipsisComponent x.ppStr (storeEllipsisComponent x chain) = some x.component := by
  induction chain with
  | nil => exact check_cons_of_eq (component_ppStr x)
  | cons c rest ih =>
      rw [storeEllipsisComponent]
      split_ifs with hocc hpp
      · exact check_cons_of_eq (component_ppStr x)
      · rw [check_cons_of_ne hpp, ih]
      · exact check_cons_of_eq (component_ppStr x)

/-- The other pp strings keep their components just if the store does not lose any. -/
theorem check_store_other_iff (h : OneForEach chain) :
    (∀ other, other ≠ x.ppStr → checkEllipsisComponent other (storeEllipsisComponent x chain) =
      checkEllipsisComponent other chain) ↔ ¬ LosesOther x.ppStr chain := by
  have hx : ∀ other, other ≠ x.ppStr → x.component.ppStr ≠ some other :=
    fun other hne heq => hne (Option.some.inj heq).symm
  induction chain with
  | nil => exact iff_of_true (fun other hne => check_cons_of_ne (hx other hne)) id
  | cons c rest ih =>
      obtain ⟨hc, hrest⟩ := List.pairwise_cons.mp h
      rw [storeEllipsisComponent, LosesOther]
      split_ifs with hocc hpp
      · refine iff_of_true ?_ (fun hlose => hlose.1 hpp)
        intro other hne
        rw [check_cons_of_ne (hx other hne), check_cons_of_ne]
        rw [hpp]
        exact hx other hne
      · rw [not_and, forall_prop_of_true hpp]
        refine Iff.trans (forall₂_congr fun other hne => ?_) (ih hrest)
        by_cases hown : c.ppStr = some other
        · -- neither list has another component for it
          have hnot : ∀ d ∈ rest, d.ppStr ≠ some other := by
            intro d hd heq
            rcases hc d hd with hnone | hdiff
            · rw [hnone] at hown
              cases hown
            · exact hdiff (hown.trans heq.symm)
          have hstore : ∀ d ∈ storeEllipsisComponent x rest, d.ppStr ≠ some other := by
            intro d hd
            rcases mem_store hd with rfl | hd
            · exact hx other hne
            · exact hnot d hd
          rw [check_cons_of_eq hown, check_cons_of_eq hown, check_eq_none.mpr hnot,
            check_eq_none.mpr hstore]
          exact iff_of_true rfl rfl
        · rw [check_cons_of_ne hown, check_cons_of_ne hown]
      · have hsingle : ∀ other, other ≠ x.ppStr →
            checkEllipsisComponent other [x.component] = none :=
          fun other hne => check_cons_of_ne (hx other hne)
        constructor
        · rintro hkeep ⟨d, hd, hsome, hne⟩
          obtain ⟨other, hother⟩ := Option.ne_none_iff_exists'.mp hsome
          have hdiff : other ≠ x.ppStr := by
            rintro rfl
            exact hne hother
          have hnone := (hkeep other hdiff).symm.trans (hsingle other hdiff)
          exact check_eq_none.mp hnone d hd hother
        · intro hlose other hne
          rw [hsingle other hne]
          refine (check_eq_none.mpr ?_).symm
          intro d hd heq
          refine hlose ⟨d, hd, ?_, ?_⟩
          · rw [heq]
            exact Option.some_ne_none other
          · rw [heq]
            exact fun hsome => hne (Option.some.inj hsome)

/-! ## All stores -/

theorem lastStored_append (ppStr : String) (stores : List (EllipsisStore S)) (x : EllipsisStore S) :
    lastStored ppStr (stores ++ [x]) =
      if x.ppStr = ppStr then some x.component else lastStored ppStr stores := by
  rw [lastStored, List.reverse_append, List.reverse_singleton, List.singleton_append,
    List.find?_cons]
  split_ifs with h
  · rw [decide_eq_true h]
    rfl
  · rw [decide_eq_false h]
    rfl

theorem ellipsisStep_returnsLast_iff (h : OneForEach t.2) (hlast : ReturnsLast t) :
    ReturnsLast (ellipsisStep t x) ↔ ¬ LosesOther x.ppStr t.2 := by
  rw [← check_store_other_iff h]
  constructor
  · intro hnew other hne
    have hstep := hnew other
    rw [ellipsisStep, lastStored_append, if_neg (fun heq => hne heq.symm), ← hlast other] at hstep
    exact hstep
  · intro hkeep other
    rw [ellipsisStep, lastStored_append]
    split_ifs with hown
    · subst hown
      exact check_store_self x t.2
    · exact (hkeep other (fun heq => hown heq.symm)).trans (hlast other)

theorem emptyEllipsisSlot_oneForEach (zero : S) : OneForEach (emptyEllipsisSlot zero) :=
  List.pairwise_singleton _ _

/-- `StoreEllipsisComponent` and `CheckEllipsisComponent`, for any sequence of stores with a pp
string: after each of them the last component of every pp string is returned, and none for the
others, just if no store loses the component of another pp string. -/
theorem ellipsisTable_returnsLast (zero : S) (stores : List (EllipsisStore S)) :
    StepRun.EachState ellipsisStep ReturnsLast ([], emptyEllipsisSlot zero) stores ↔
      StepRun.EachStep ellipsisStep (fun t x => ¬ LosesOther x.ppStr t.2)
        ([], emptyEllipsisSlot zero) stores :=
  StepRun.eachState_iff (V := fun _ _ => True) (W := fun t => OneForEach t.2)
    (fun _ _ h _ => h.store) (fun _ _ h hlast _ => ellipsisStep_returnsLast_iff h hlast)
    (emptyEllipsisSlot_oneForEach zero) (fun _ => rfl) (StepRun.eachStep_true _ _)

/-- A component of the first sentence with the tag number 0 is lost when a second one comes. -/
theorem tagZero_lost :
    let no : EllipsisStore Int := ⟨"ノ", some 0, 0, 1, 0⟩
    let ga : EllipsisStore Int := ⟨"ガ", some 0, 3, 1, 0⟩
    lastStored "ノ" [no, ga] = some no.component ∧
      checkEllipsisComponent "ノ" ([no, ga].foldl ellipsisStep ([], emptyEllipsisSlot 0)).2 =
        none := by
  decide

end Chain

end Knp
