import Mathlib.Data.Nat.Bitwise
import Mathlib.Tactic.Common

/-!
# The hash functions (`hash` of `tools.c`, `internal_hash` of `hash.c`)

Both exclusive-or the entries of a random table and differ in the number of
buckets.
-/

namespace Knp

def NSEED : Nat := 32

/-- A row of 256 random numbers for each of `NSEED` positions. -/
abbrev Seed := Nat → UInt8 → UInt32

/-- The loop over the bytes of the key. -/
def hashLoop (seed : Seed) : Nat → UInt32 → List UInt8 → UInt32
  | _, h, [] => h
  | j, h, c :: key => hashLoop seed ((j + 1) &&& (NSEED - 1)) (h ^^^ seed j c) key

def hashWith (seed : Seed) (size : Nat) (key : List UInt8) : Nat :=
  (hashLoop seed 0 0 key).toNat &&& (size - 1)

theorem hashWith_lt (seed : Seed) {size : Nat} (h : 0 < size) (key : List UInt8) :
    hashWith seed size key < size :=
  lt_of_le_of_lt Nat.and_le_right (Nat.sub_lt h Nat.one_pos)

def TBLSIZE : Nat := 1024

/-- `hash` -/
def hash (seed : Seed) (key : List UInt8) : Nat := hashWith seed TBLSIZE key

theorem hash_lt (seed : Seed) (key : List UInt8) : hash seed key < TBLSIZE :=
  hashWith_lt seed (by decide) key

end Knp
