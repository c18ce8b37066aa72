import Mathlib.Data.List.Basic
import Mathlib.Data.List.Nodup
import Mathlib.Order.Nat

/-!
# Singly linked lists in memory

A list is a head link and cells that hold a value and the link to the next cell. A
link is stored at a place: the head, or the `next` field of a cell. Reading through a
null pointer or in a freed cell is undefined.
-/

namespace LinkedList

structure Node (α : Type*) where
  val : α
  next : Option Nat

structure Mem (α : Type*) where
  head : Option Nat
  cell : Nat → Option (Node α)

/-- Where a link is stored. The pointer to a cell may be null. -/
inductive Place
  | head
  | next (p : Option Nat)

variable {α : Type*}

namespace Mem

def read (m : Mem α) : Place → Option (Option Nat)
  | .head => some m.head
  | .next p => p.bind fun p => (m.cell p).map Node.next

def set (m : Mem α) (p : Nat) (c : Option (Node α)) : Mem α :=
  { m with cell := Function.update m.cell p c }

def free (m : Mem α) (p : Nat) : Mem α := m.set p none

def write (m : Mem α) (link : Option Nat) : Place → Option (Mem α)
  | .head => some { m with head := link }
  | .next p => p.bind fun p => (m.cell p).map fun c => m.set p (some { c with next := link })

theorem read_next {m : Mem α} {p : Nat} {c : Node α} (h : m.cell p = some c) :
    m.read (.next (some p)) = some c.next := by simp [read, h]

theorem write_next {m : Mem α} {p : Nat} {c : Node α} (h : m.cell p = some c) (link : Option Nat) :
    m.write link (.next (some p)) = some (m.set p (some { c with next := link })) := by
  simp [write, h]

@[simp] theorem set_head (m : Mem α) (p : Nat) (c : Option (Node α)) : (m.set p c).head = m.head :=
  rfl

@[simp] theorem set_self (m : Mem α) (p : Nat) (c : Option (Node α)) : (m.set p c).cell p = c := by
  simp [set]

theorem set_of_ne (m : Mem α) {p q : Nat} (c : Option (Node α)) (h : q ≠ p) :
    (m.set p c).cell q = m.cell q := by
  simp [set, h]

end Mem

/-! ## The list that starts at a link -/

/-- The cells behind a link, each with its address. -/
def Chain (m : Mem α) : Option Nat → List (Nat × α) → Prop
  | link, [] => link = none
  | link, (p, a) :: cs => link = some p ∧ ∃ next, m.cell p = some ⟨a, next⟩ ∧ Chain m next cs

/-- The memory holds the list: the cells behind the head, no two of them at one address. -/
def Represents (m : Mem α) (l : List α) : Prop :=
  ∃ cs : List (Nat × α), (cs.map Prod.fst).Nodup ∧ Chain m m.head cs ∧ cs.map Prod.snd = l

/-! ## Parts of a list -/

/-- The cells from a link to another one. -/
def Segment (m : Mem α) : Option Nat → List (Nat × α) → Option Nat → Prop
  | link, [], last => link = last
  | link, (p, a) :: cs, last =>
      link = some p ∧ ∃ next, m.cell p = some ⟨a, next⟩ ∧ Segment m next cs last

section Segments

variable {m m' : Mem α} {link last : Option Nat} {cs cs' : List (Nat × α)} {c : Nat × α}

theorem segment_none_iff : Segment m link cs none ↔ Chain m link cs := by
  induction cs generalizing link with
  | nil => exact Iff.rfl
  | cons c cs ih => exact and_congr_right fun _ => exists_congr fun _ => and_congr_right fun _ => ih

theorem segment_append : Segment m link (cs ++ cs') last ↔
    ∃ mid, Segment m link cs mid ∧ Segment m mid cs' last := by
  induction cs generalizing link with
  | nil => simp [Segment]
  | cons c cs ih =>
      simp only [List.cons_append, Segment, ih]
      constructor
      · rintro ⟨hp, next, hc, mid, hcs, hcs'⟩
        exact ⟨mid, ⟨hp, next, hc, hcs⟩, hcs'⟩
      · rintro ⟨mid, ⟨hp, next, hc, hcs⟩, hcs'⟩
        exact ⟨hp, next, hc, mid, hcs, hcs'⟩

theorem Segment.congr (h : Segment m link cs last)
    (hcell : ∀ p ∈ cs.map Prod.fst, m'.cell p = m.cell p) : Segment m' link cs last := by
  induction cs generalizing link with
  | nil => exact h
  | cons c cs ih =>
      obtain ⟨rfl, next, hnext, hcs⟩ := h
      have hhead := hcell c.1 (by simp)
      exact ⟨rfl, next, hhead.trans hnext,
        ih hcs fun p hp => hcell p (by simp at hp ⊢; exact .inr hp)⟩

/-- The last cell of a part gets another link. -/
theorem Segment.relink (h : Segment m link (cs ++ [c]) last)
    {last' : Option Nat} (hc : m'.cell c.1 = some ⟨c.2, last'⟩)
    (hcell : ∀ p ∈ cs.map Prod.fst, m'.cell p = m.cell p) :
    Segment m' link (cs ++ [c]) last' := by
  obtain ⟨mid, hcs, hlast⟩ := segment_append.mp h
  exact segment_append.mpr ⟨mid, hcs.congr hcell, hlast.1, last', hc, rfl⟩

theorem Segment.cell (h : Segment m link (cs ++ [c]) last) : m.cell c.1 = some ⟨c.2, last⟩ := by
  obtain ⟨mid, -, -, next, hc, rfl⟩ := segment_append.mp h
  exact hc

end Segments

/-! ## Whole lists -/

section Chains

variable {m m' : Mem α} {link : Option Nat} {cs cs' : List (Nat × α)} {l l' : List α}

/-- What lies elsewhere does not matter. -/
theorem Chain.congr (h : Chain m link cs) (hcell : ∀ p ∈ cs.map Prod.fst, m'.cell p = m.cell p) :
    Chain m' link cs :=
  segment_none_iff.mp ((segment_none_iff.mpr h).congr hcell)

theorem Chain.unique (h : Chain m link cs) (h' : Chain m link cs') : cs = cs' := by
  induction cs generalizing link cs' with
  | nil =>
      cases cs' with
      | nil => rfl
      | cons c' cs' =>
          obtain ⟨hlink, -⟩ := h'
          exact absurd (h.symm.trans hlink) (by simp)
  | cons c cs ih =>
      obtain ⟨rfl, next, hnext, hcs⟩ := h
      cases cs' with
      | nil => exact absurd h' (by simp [Chain])
      | cons c' cs' =>
          obtain ⟨hp, next', hnext', hcs'⟩ := h'
          have hp : c.1 = c'.1 := Option.some.inj hp
          rw [← hp, hnext] at hnext'
          obtain ⟨hval, rfl⟩ := Node.mk.inj (Option.some.inj hnext')
          rw [ih hcs hcs', Prod.ext hp hval]

theorem Represents.unique (h : Represents m l) (h' : Represents m l') : l = l' := by
  obtain ⟨cs, -, hcs, rfl⟩ := h
  obtain ⟨cs', -, hcs', rfl⟩ := h'
  rw [hcs.unique hcs']

/-- The cells of a list one after the other. -/
def place : Nat → List α → Mem α
  | _, [] => ⟨none, fun _ => none⟩
  | p, a :: l => { (place (p + 1) l).set p (some ⟨a, (place (p + 1) l).head⟩) with head := some p }

theorem chain_place (l : List α) (p : Nat) :
    Chain (place p l) (place p l).head ((List.range' p l.length).zip l) := by
  induction l generalizing p with
  | nil => rfl
  | cons a l ih =>
      rw [List.length_cons, List.range'_succ, List.zip_cons_cons]
      refine ⟨rfl, (place (p + 1) l).head, (place (p + 1) l).set_self p _,
        (ih (p + 1)).congr fun q hq => ?_⟩
      have hmem : q ∈ List.range' (p + 1) l.length := by
        obtain ⟨c, hc, rfl⟩ := List.mem_map.mp hq
        exact (List.of_mem_zip hc).1
      have hge : p + 1 ≤ q := (List.mem_range'_1.mp hmem).1
      exact (place (p + 1) l).set_of_ne _ (by omega)

/-- Every list is held by a memory. -/
theorem represents_place (l : List α) (p : Nat) : Represents (place p l) l := by
  have hlen : (List.range' p l.length).length = l.length := by simp
  refine ⟨_, ?_, chain_place l p, List.map_snd_zip hlen.ge⟩
  rw [List.map_fst_zip hlen.le]
  exact List.nodup_range'

end Chains

end LinkedList
