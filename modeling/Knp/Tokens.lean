import Mathlib.Data.List.Basic

/-!
# Strings in pieces

Strings are lists of bytes. `strtok` gives the pieces between separators,
without the empty ones; `strstr` the place where a string is found first.
-/

namespace Tokens

variable {c : UInt8} {s w : List UInt8}

/-- The pieces that `strtok` gives one after the other. -/
def strtok (c : UInt8) (s : List UInt8) : List (List UInt8) := (s.splitOn c).filter (· ≠ [])

/-- What is before and behind the first occurrence of `w`. -/
def cutAt (w : List UInt8) : List UInt8 → Option (List UInt8 × List UInt8)
  | [] => if w = [] then some ([], []) else none
  | c :: s =>
      if w.isPrefixOf (c :: s) then some ([], (c :: s).drop w.length)
      else (cutAt w s).map fun p => (c :: p.1, p.2)

/-- Strings one after the other, each with a NUL behind it. -/
def join (ss : List (List UInt8)) : List UInt8 := [0].intercalate ss ++ [0]

theorem splitOn_join {ss : List (List UInt8)} (hne : ss ≠ []) (h : ∀ s ∈ ss, 0 ∉ s) :
    (join ss).dropLast.splitOn 0 = ss := by
  rw [join, List.dropLast_concat]
  exact List.splitOn_intercalate 0 h hne

end Tokens
