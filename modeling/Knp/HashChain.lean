import Mathlib.Logic.Function.Basic

/-!
# Hash tables with chains

A table has a chain of entries for each bucket. An entry is added at the end of the
chain for its key, and a key is looked for in one chain from the front.

> A table into which a sequence of entries was put finds what a search of the whole
> sequence finds.

The hash function is arbitrary.
-/

namespace HashChain

variable {κ α : Type}

abbrev Table (α : Type) : Type := Nat → List α

def empty : Table α := fun _ => []

variable (bucket : κ → Nat) (key : α → κ)

/-- The entry at the end of the chain for its key. -/
def append (t : Table α) (a : α) : Table α :=
  Function.update t (bucket (key a)) (t (bucket (key a)) ++ [a])

/-- The first entry with the key, in the chain for it. -/
def find [DecidableEq κ] (t : Table α) (k : κ) : Option α :=
  (t (bucket k)).find? fun a => key a = k

/-- The chains are the parts of the sequence. -/
def Holds (t : Table α) (as : List α) : Prop :=
  ∀ i, t i = as.filter fun a => bucket (key a) = i

theorem holds_empty : Holds bucket key empty [] := by
  intro i
  rfl

variable {bucket key} {t : Table α} {as : List α}

theorem Holds.append (h : Holds bucket key t as) (a : α) :
    Holds bucket key (append bucket key t a) (as ++ [a]) := by
  intro i
  rw [List.filter_append, ← h i]
  by_cases hi : bucket (key a) = i
  · subst hi
    rw [HashChain.append, Function.update_self, List.filter_cons_of_pos (by simp), List.filter_nil]
  · rw [HashChain.append, Function.update_of_ne (Ne.symm hi),
      List.filter_cons_of_neg (by simpa using hi),
      List.filter_nil, List.append_nil]

theorem Holds.find_eq [DecidableEq κ] (h : Holds bucket key t as) (k : κ) :
    find bucket key t k = as.find? fun a => key a = k := by
  rw [find, h (bucket k), List.find?_filter]
  congr 1
  funext a
  by_cases ha : key a = k
  · simp [ha]
  · simp [ha]

theorem Holds.mem_of_find [DecidableEq κ] (h : Holds bucket key t as) {k : κ} {a : α}
    (hfind : find bucket key t k = some a) : a ∈ as ∧ key a = k := by
  rw [h.find_eq] at hfind
  have hkey := List.find?_some hfind
  exact ⟨List.mem_of_find?_eq_some hfind, of_decide_eq_true hkey⟩

end HashChain
