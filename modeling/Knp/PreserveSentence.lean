import Mathlib.Data.List.Forall2

/-!
# Preserving a sentence (`PreserveSentence` of `context.c`)

The arrays of the working sentence are copied to fresh memory one after the
other, and the links between them are shifted by hand. A link is the address of
an element, in units of the element type of its array, and 0 for `NULL`; the
other fields of an element are one value.

> The copy is isomorphic to the sentence if and only if the links that are shifted
> without a test for `NULL` are set, and neither the sentence has coordinations
> nor the place of the copy had.

The counters of the coordinations are not copied. The link of a coordination to
its manager is shifted to the array of managers that the place had before, and
the link of a manager to its parent is shifted where it is `NULL`: some manager
has none.
-/

namespace Knp

variable {α : Type*}

/-- The links of `BNST_DATA`; the children end with `NULL`. -/
structure BnstLinks (α : Type*) where
  rest : α
  mrphPtr : Int
  headPtr : Int
  parent : Int
  child : List Int
  predBPtr : Int
  tagPtr : Int

/-- The links of `TAG_DATA`. -/
structure TagLinks (α : Type*) where
  rest : α
  mrphPtr : Int
  settouPtr : Int
  jirituPtr : Int
  fuzokuPtr : Int
  headPtr : Int
  parent : Int
  child : List Int
  predBPtr : Int
  next : Int
  bPtr : Int

/-- The link of `PARA_DATA`. -/
structure ParaLink (α : Type*) where
  rest : α
  managerPtr : Int

/-- The links of `PARA_MANAGER`, with its `child_num` children. -/
structure ManagerLinks (α : Type*) where
  rest : α
  parent : Int
  child : List Int
  bnstPtr : Int

/-- Where the arrays begin that links lead to. -/
structure Bases where
  mrph : Int
  bnst : Int
  tag : Int
  manager : Int

/-- `SENTENCE_DATA` -/
structure SentenceLinks (α : Type*) where
  senNum : Nat
  mrphNum : Nat
  bnstNum : Nat
  newBnstNum : Nat
  tagNum : Nat
  newTagNum : Nat
  paraNum : Nat
  paraMNum : Nat
  place : Bases
  mrphData : List α
  bnstData : List (BnstLinks α)
  tagData : List (TagLinks α)
  paraData : List (ParaLink α)
  paraManager : List (ManagerLinks α)

def SENTENCE_MAX : Nat := 512

/-- `new + (p - old)` -/
def rebase (new old p : Int) : Int := new + (p - old)

/-- A link that is shifted unless it is `NULL`. -/
def rebaseSet (new old p : Int) : Int := if p ≠ 0 then rebase new old p else p

/-- `for (j = 0; child[j]; j++)` -/
def rebaseChildren (new old : Int) : List Int → List Int
  | [] => []
  | p :: l => if p ≠ 0 then rebase new old p :: rebaseChildren new old l else p :: l

def preserveBnst (new old : Bases) (b : BnstLinks α) : BnstLinks α where
  rest := b.rest
  mrphPtr := rebase new.mrph old.mrph b.mrphPtr
  headPtr := rebase new.mrph old.mrph b.headPtr
  parent := rebaseSet new.bnst old.bnst b.parent
  child := rebaseChildren new.bnst old.bnst b.child
  predBPtr := rebaseSet new.bnst old.bnst b.predBPtr
  tagPtr := rebaseSet new.tag old.tag b.tagPtr

def preserveTag (new old : Bases) (t : TagLinks α) : TagLinks α where
  rest := t.rest
  mrphPtr := rebase new.mrph old.mrph t.mrphPtr
  settouPtr := rebaseSet new.mrph old.mrph t.settouPtr
  jirituPtr := rebase new.mrph old.mrph t.jirituPtr
  fuzokuPtr := rebaseSet new.mrph old.mrph t.fuzokuPtr
  headPtr := rebase new.mrph old.mrph t.headPtr
  parent := rebaseSet new.tag old.tag t.parent
  child := rebaseChildren new.tag old.tag t.child
  predBPtr := rebaseSet new.tag old.tag t.predBPtr
  next := rebaseSet new.tag old.tag t.next
  bPtr := rebase new.bnst old.bnst t.bPtr

def preserveManager (new old : Bases) (m : ManagerLinks α) : ManagerLinks α where
  rest := m.rest
  parent := m.parent + (new.manager - old.manager)
  child := m.child.map fun p => p + (new.manager - old.manager)
  bnstPtr := m.bnstPtr + (new.bnst - old.bnst)

/-- The copy in the memory `new`. The place `slot` keeps what is not assigned. -/
def copySentence (new : Bases) (slot s : SentenceLinks α) : SentenceLinks α :=
  { slot with
    senNum := s.senNum
    mrphNum := s.mrphNum
    mrphData := s.mrphData.take s.mrphNum
    bnstNum := s.bnstNum
    newBnstNum := s.newBnstNum
    bnstData := (s.bnstData.take (s.bnstNum + s.newBnstNum)).map (preserveBnst new s.place)
    tagNum := s.tagNum
    newTagNum := s.newTagNum
    tagData := (s.tagData.take (s.tagNum + s.newTagNum)).map (preserveTag new s.place)
    -- the array of managers is still that of the place
    paraData := (s.paraData.take s.paraNum).map fun p =>
      { p with managerPtr := p.managerPtr + (slot.place.manager - s.place.manager) }
    paraManager := (s.paraManager.take s.paraMNum).map (preserveManager new s.place)
    place := new }

/-- 一時的措置: the sentences are numbered anew when there are too many. -/
def checkSenNum (s : SentenceLinks α) : SentenceLinks α :=
  if SENTENCE_MAX < s.senNum then { s with senNum := 1 } else s

/-- `PreserveSentence`: the working sentence and the copy. -/
def preserveSentence (new : Bases) (slot s : SentenceLinks α) : SentenceLinks α × SentenceLinks α :=
  (checkSenNum s, copySentence new slot (checkSenNum s))

/-! ## Isomorphic copies -/

/-- A link names the same element in the new array; `NULL` stays `NULL`. -/
structure LinkCopied (new old p p' : Int) : Prop where
  null : p = 0 → p' = 0
  same : p ≠ 0 → p' ≠ 0 ∧ p' - new = p - old

/-- The children before `NULL`. -/
def childLinks (l : List Int) : List Int := l.takeWhile (· ≠ 0)

def ChildrenCopied (new old : Int) (l l' : List Int) : Prop :=
  List.Forall₂ (LinkCopied new old) (childLinks l) (childLinks l')

structure BnstCopied (new old : Bases) (b b' : BnstLinks α) : Prop where
  rest : b'.rest = b.rest
  mrphPtr : LinkCopied new.mrph old.mrph b.mrphPtr b'.mrphPtr
  headPtr : LinkCopied new.mrph old.mrph b.headPtr b'.headPtr
  parent : LinkCopied new.bnst old.bnst b.parent b'.parent
  child : ChildrenCopied new.bnst old.bnst b.child b'.child
  predBPtr : LinkCopied new.bnst old.bnst b.predBPtr b'.predBPtr
  tagPtr : LinkCopied new.tag old.tag b.tagPtr b'.tagPtr

structure TagCopied (new old : Bases) (t t' : TagLinks α) : Prop where
  rest : t'.rest = t.rest
  mrphPtr : LinkCopied new.mrph old.mrph t.mrphPtr t'.mrphPtr
  settouPtr : LinkCopied new.mrph old.mrph t.settouPtr t'.settouPtr
  jirituPtr : LinkCopied new.mrph old.mrph t.jirituPtr t'.jirituPtr
  fuzokuPtr : LinkCopied new.mrph old.mrph t.fuzokuPtr t'.fuzokuPtr
  headPtr : LinkCopied new.mrph old.mrph t.headPtr t'.headPtr
  parent : LinkCopied new.tag old.tag t.parent t'.parent
  child : ChildrenCopied new.tag old.tag t.child t'.child
  predBPtr : LinkCopied new.tag old.tag t.predBPtr t'.predBPtr
  next : LinkCopied new.tag old.tag t.next t'.next
  bPtr : LinkCopied new.bnst old.bnst t.bPtr t'.bPtr

structure ParaCopied (new old : Bases) (p p' : ParaLink α) : Prop where
  rest : p'.rest = p.rest
  managerPtr : LinkCopied new.manager old.manager p.managerPtr p'.managerPtr

structure ManagerCopied (new old : Bases) (m m' : ManagerLinks α) : Prop where
  rest : m'.rest = m.rest
  parent : LinkCopied new.manager old.manager m.parent m'.parent
  child : List.Forall₂ (LinkCopied new.manager old.manager) m.child m'.child
  bnstPtr : LinkCopied new.bnst old.bnst m.bnstPtr m'.bnstPtr

/-- The copy has the same counters and the same elements in the same order, and
their links name the elements of its own arrays. -/
structure IsCopy (s c : SentenceLinks α) : Prop where
  senNum : c.senNum = s.senNum
  mrphNum : c.mrphNum = s.mrphNum
  bnstNum : c.bnstNum = s.bnstNum
  newBnstNum : c.newBnstNum = s.newBnstNum
  tagNum : c.tagNum = s.tagNum
  newTagNum : c.newTagNum = s.newTagNum
  paraNum : c.paraNum = s.paraNum
  paraMNum : c.paraMNum = s.paraMNum
  mrphData : c.mrphData = s.mrphData.take s.mrphNum
  bnstData : List.Forall₂ (BnstCopied c.place s.place) (s.bnstData.take (s.bnstNum + s.newBnstNum))
    c.bnstData
  tagData : List.Forall₂ (TagCopied c.place s.place) (s.tagData.take (s.tagNum + s.newTagNum)) c.tagData
  paraData : List.Forall₂ (ParaCopied c.place s.place) (s.paraData.take s.paraNum) c.paraData
  paraManager : List.Forall₂ (ManagerCopied c.place s.place) (s.paraManager.take s.paraMNum)
    c.paraManager

/-! ## Links that are shifted -/

section Links

variable {new old p : Int}

theorem linkCopied_rebase_iff (hpos : 0 < new) (hne : new ≠ old) (hin : p ≠ 0 → old ≤ p) :
    LinkCopied new old p (rebase new old p) ↔ p ≠ 0 := by
  unfold rebase
  constructor
  · intro h hp
    have := h.null hp
    omega
  · intro hp
    have := hin hp
    exact ⟨fun h => absurd h hp, fun _ => by omega⟩

theorem linkCopied_rebaseSet (hpos : 0 < new) (hin : p ≠ 0 → old ≤ p) :
    LinkCopied new old p (rebaseSet new old p) := by
  unfold rebaseSet rebase
  constructor
  · intro hp
    simp [hp]
  · intro hp
    have := hin hp
    rw [if_pos hp]
    omega

theorem childrenCopied_rebase (hpos : 0 < new) : ∀ {l : List Int},
    (∀ p ∈ childLinks l, old ≤ p) → ChildrenCopied new old l (rebaseChildren new old l)
  | [], _ => .nil
  | p :: l, hin => by
      unfold ChildrenCopied childLinks rebaseChildren at *
      by_cases hp : p ≠ 0
      · rw [List.takeWhile_cons_of_pos (by simpa using hp)] at hin ⊢
        have hle := hin p List.mem_cons_self
        have hnew : rebase new old p ≠ 0 := by
          unfold rebase
          omega
        rw [if_pos hp, List.takeWhile_cons_of_pos (by simpa using hnew)]
        refine .cons ⟨fun h => absurd h hp, fun _ => ⟨hnew, ?_⟩⟩
          (childrenCopied_rebase hpos fun q hq => hin q (List.mem_cons_of_mem p hq))
        unfold rebase
        omega
      · rw [if_neg hp, List.takeWhile_cons_of_neg (by simpa using hp)]
        exact .nil

theorem linkCopied_shift {d : Int} (hd : d ≠ 0) (h : LinkCopied new old p (p + d)) : p ≠ 0 := by
  intro hp
  have := h.null hp
  omega

end Links

/-! ## Analysed sentences -/

/-- The links of a bunsetsu that are set lie in their arrays. -/
structure BnstInside (place : Bases) (b : BnstLinks α) : Prop where
  mrphPtr : b.mrphPtr ≠ 0 → place.mrph ≤ b.mrphPtr
  headPtr : b.headPtr ≠ 0 → place.mrph ≤ b.headPtr
  parent : b.parent ≠ 0 → place.bnst ≤ b.parent
  child : ∀ p ∈ childLinks b.child, place.bnst ≤ p
  predBPtr : b.predBPtr ≠ 0 → place.bnst ≤ b.predBPtr
  tagPtr : b.tagPtr ≠ 0 → place.tag ≤ b.tagPtr

structure TagInside (place : Bases) (t : TagLinks α) : Prop where
  mrphPtr : t.mrphPtr ≠ 0 → place.mrph ≤ t.mrphPtr
  settouPtr : t.settouPtr ≠ 0 → place.mrph ≤ t.settouPtr
  jirituPtr : t.jirituPtr ≠ 0 → place.mrph ≤ t.jirituPtr
  fuzokuPtr : t.fuzokuPtr ≠ 0 → place.mrph ≤ t.fuzokuPtr
  headPtr : t.headPtr ≠ 0 → place.mrph ≤ t.headPtr
  parent : t.parent ≠ 0 → place.tag ≤ t.parent
  child : ∀ p ∈ childLinks t.child, place.tag ≤ p
  predBPtr : t.predBPtr ≠ 0 → place.tag ≤ t.predBPtr
  next : t.next ≠ 0 → place.tag ≤ t.next
  bPtr : t.bPtr ≠ 0 → place.bnst ≤ t.bPtr

/-- An analysed sentence: its links lie in its arrays, and the managers are a
forest by their parents. -/
structure Analysed (s : SentenceLinks α) : Prop where
  bnst : ∀ b ∈ s.bnstData.take (s.bnstNum + s.newBnstNum), BnstInside s.place b
  tag : ∀ t ∈ s.tagData.take (s.tagNum + s.newTagNum), TagInside s.place t
  para_le : s.paraNum ≤ s.paraData.length
  manager_le : s.paraMNum ≤ s.paraManager.length
  para : ∀ p ∈ s.paraData.take s.paraNum, p.managerPtr ≠ 0 →
    ∃ j < s.paraMNum, p.managerPtr = s.place.manager + j
  forest : ∃ rank : Nat → Nat, ∀ i m, (s.paraManager.take s.paraMNum)[i]? = some m →
    m.parent ≠ 0 → ∃ j < s.paraMNum, m.parent = s.place.manager + j ∧ rank j < rank i

/-- The memory for the copy is not that of the sentence; nor is what the place had. -/
structure Fresh (new : Bases) (slot s : SentenceLinks α) : Prop where
  mrph : 0 < new.mrph ∧ new.mrph ≠ s.place.mrph
  bnst : 0 < new.bnst ∧ new.bnst ≠ s.place.bnst
  tag : 0 < new.tag
  manager : new.manager ≠ s.place.manager
  slot : slot.place.manager ≠ s.place.manager

/-- The links that are shifted without a test are set. -/
structure UntestedSet (s : SentenceLinks α) : Prop where
  bnst : ∀ b ∈ s.bnstData.take (s.bnstNum + s.newBnstNum), b.mrphPtr ≠ 0 ∧ b.headPtr ≠ 0
  tag : ∀ t ∈ s.tagData.take (s.tagNum + s.newTagNum),
    t.mrphPtr ≠ 0 ∧ t.jirituPtr ≠ 0 ∧ t.headPtr ≠ 0 ∧ t.bPtr ≠ 0

variable {new : Bases} {slot s : SentenceLinks α}

theorem bnstCopied_iff {old : Bases} {b : BnstLinks α} (hmrph : 0 < new.mrph ∧ new.mrph ≠ old.mrph)
    (hbnst : 0 < new.bnst) (htag : 0 < new.tag) (hb : BnstInside old b) :
    BnstCopied new old b (preserveBnst new old b) ↔ b.mrphPtr ≠ 0 ∧ b.headPtr ≠ 0 := by
  have hm := linkCopied_rebase_iff hmrph.1 hmrph.2 hb.mrphPtr
  have hh := linkCopied_rebase_iff hmrph.1 hmrph.2 hb.headPtr
  constructor
  · exact fun h => ⟨hm.mp h.mrphPtr, hh.mp h.headPtr⟩
  · rintro ⟨h₁, h₂⟩
    exact ⟨rfl, hm.mpr h₁, hh.mpr h₂, linkCopied_rebaseSet hbnst hb.parent,
      childrenCopied_rebase hbnst hb.child, linkCopied_rebaseSet hbnst hb.predBPtr,
      linkCopied_rebaseSet htag hb.tagPtr⟩

theorem tagCopied_iff {old : Bases} {t : TagLinks α} (hmrph : 0 < new.mrph ∧ new.mrph ≠ old.mrph)
    (hbnst : 0 < new.bnst ∧ new.bnst ≠ old.bnst) (htag : 0 < new.tag) (ht : TagInside old t) :
    TagCopied new old t (preserveTag new old t) ↔
      t.mrphPtr ≠ 0 ∧ t.jirituPtr ≠ 0 ∧ t.headPtr ≠ 0 ∧ t.bPtr ≠ 0 := by
  have hm := linkCopied_rebase_iff hmrph.1 hmrph.2 ht.mrphPtr
  have hj := linkCopied_rebase_iff hmrph.1 hmrph.2 ht.jirituPtr
  have hh := linkCopied_rebase_iff hmrph.1 hmrph.2 ht.headPtr
  have hb := linkCopied_rebase_iff hbnst.1 hbnst.2 ht.bPtr
  constructor
  · exact fun h => ⟨hm.mp h.mrphPtr, hj.mp h.jirituPtr, hh.mp h.headPtr, hb.mp h.bPtr⟩
  · rintro ⟨h₁, h₂, h₃, h₄⟩
    exact ⟨rfl, hm.mpr h₁, linkCopied_rebaseSet hmrph.1 ht.settouPtr, hj.mpr h₂,
      linkCopied_rebaseSet hmrph.1 ht.fuzokuPtr, hh.mpr h₃, linkCopied_rebaseSet htag ht.parent,
      childrenCopied_rebase htag ht.child, linkCopied_rebaseSet htag ht.predBPtr,
      linkCopied_rebaseSet htag ht.next, hb.mpr h₄⟩

/-- Where there are managers, one has no parent. -/
theorem Analysed.root (hs : Analysed s) (hpos : s.paraMNum ≠ 0) :
    ∃ m ∈ s.paraManager.take s.paraMNum, m.parent = 0 := by
  obtain ⟨rank, hrank⟩ := hs.forest
  have hle := hs.manager_le
  by_contra hnone
  -- a manager of least rank would have a parent of lower rank
  have hdown : ∀ n i, rank i = n → ¬ i < s.paraMNum := by
    intro n
    induction n using Nat.strongRecOn with
    | ind n ih =>
        intro i hi hlt
        have hlen : i < (s.paraManager.take s.paraMNum).length := by
          rw [List.length_take]
          omega
        obtain ⟨j, hj, -, hless⟩ := hrank i _ (List.getElem?_eq_getElem hlen) fun h =>
          hnone ⟨_, List.getElem_mem hlen, h⟩
        exact ih (rank j) (hi ▸ hless) j rfl hj
  exact hdown _ 0 rfl (Nat.pos_of_ne_zero hpos)

theorem copySentence_iff (hs : Analysed s) (hnew : Fresh new slot s) :
    IsCopy s (copySentence new slot s) ↔
      UntestedSet s ∧ s.paraNum = 0 ∧ s.paraMNum = 0 ∧ slot.paraNum = 0 ∧ slot.paraMNum = 0 := by
  constructor
  · intro h
    have hbnst := h.bnstData
    have htag := h.tagData
    have hpara := h.paraData
    have hmanager := h.paraManager
    simp only [copySentence, List.forall₂_map_right_iff, List.forall₂_same] at hbnst htag hpara hmanager
    have hzero : s.paraMNum = 0 := by
      by_contra hpos
      obtain ⟨m, hm, hroot⟩ := hs.root hpos
      refine linkCopied_shift ?_ (hmanager m hm).parent hroot
      have := hnew.manager
      omega
    have hpzero : s.paraNum = 0 := by
      by_contra hpos
      have hlen := hs.para_le
      have hlt : 0 < (s.paraData.take s.paraNum).length := by
        rw [List.length_take]
        omega
      have hmem := List.getElem_mem hlt
      have hset : (s.paraData.take s.paraNum)[0].managerPtr ≠ 0 := by
        refine linkCopied_shift ?_ (hpara _ hmem).managerPtr
        have := hnew.slot
        omega
      obtain ⟨j, hj, -⟩ := hs.para _ hmem hset
      omega
    exact ⟨⟨fun b hb => (bnstCopied_iff hnew.mrph hnew.bnst.1 hnew.tag (hs.bnst b hb)).mp (hbnst b hb),
      fun t ht => (tagCopied_iff hnew.mrph hnew.bnst hnew.tag (hs.tag t ht)).mp (htag t ht)⟩,
      hpzero, hzero, h.paraNum.trans hpzero, h.paraMNum.trans hzero⟩
  · rintro ⟨hset, hpzero, hzero, hslot, hslotM⟩
    refine ⟨rfl, rfl, rfl, rfl, rfl, rfl, hslot.trans hpzero.symm, hslotM.trans hzero.symm, rfl,
      ?_, ?_, ?_, ?_⟩
    · simp only [copySentence, List.forall₂_map_right_iff, List.forall₂_same]
      exact fun b hb => (bnstCopied_iff hnew.mrph hnew.bnst.1 hnew.tag (hs.bnst b hb)).mpr
        (hset.bnst b hb)
    · simp only [copySentence, List.forall₂_map_right_iff, List.forall₂_same]
      exact fun t ht => (tagCopied_iff hnew.mrph hnew.bnst hnew.tag (hs.tag t ht)).mpr (hset.tag t ht)
    · simp [copySentence, hpzero]
    · simp [copySentence, hzero]

/-- **Preserving a sentence.** -/
theorem preserveSentence_iff (hs : Analysed s) (hnew : Fresh new slot s) :
    IsCopy (preserveSentence new slot s).1 (preserveSentence new slot s).2 ↔
      UntestedSet s ∧ s.paraNum = 0 ∧ s.paraMNum = 0 ∧ slot.paraNum = 0 ∧ slot.paraMNum = 0 := by
  unfold preserveSentence checkSenNum
  split
  · have hs' : Analysed { s with senNum := 1 } :=
      ⟨hs.bnst, hs.tag, hs.para_le, hs.manager_le, hs.para, hs.forest⟩
    have hnew' : Fresh new slot { s with senNum := 1 } :=
      ⟨hnew.mrph, hnew.bnst, hnew.tag, hnew.manager, hnew.slot⟩
    refine (copySentence_iff hs' hnew').trans (and_congr_left' ?_)
    exact ⟨fun h => ⟨h.bnst, h.tag⟩, fun h => ⟨h.bnst, h.tag⟩⟩
  · exact copySentence_iff hs hnew

/-- One bunsetsu with one tag and one morpheme, and one coordination. -/
def oneBnst (paraNum : Nat) : SentenceLinks Unit where
  senNum := 1
  mrphNum := 1
  bnstNum := 1
  newBnstNum := 0
  tagNum := 1
  newTagNum := 0
  paraNum := paraNum
  paraMNum := paraNum
  place := ⟨100, 200, 300, 400⟩
  mrphData := [()]
  bnstData := [⟨(), 100, 100, 0, [0], 0, 300⟩]
  tagData := [⟨(), 100, 0, 100, 0, 100, 0, [0], 0, 0, 200⟩]
  paraData := [⟨(), 400⟩]
  paraManager := [⟨(), 0, [], 200⟩]

/-- A place that has not been used. -/
def emptySlot : SentenceLinks Unit := ⟨0, 0, 0, 0, 0, 0, 0, 0, ⟨0, 0, 0, 0⟩, [], [], [], [], []⟩

theorem oneBnst_copied : IsCopy (preserveSentence ⟨500, 600, 700, 800⟩ emptySlot (oneBnst 0)).1
      (preserveSentence ⟨500, 600, 700, 800⟩ emptySlot (oneBnst 0)).2 ↔
    UntestedSet (oneBnst 0) ∧ (oneBnst 0).paraNum = 0 ∧ (oneBnst 0).paraMNum = 0 ∧
      emptySlot.paraNum = 0 ∧ emptySlot.paraMNum = 0 :=
  have hs : Analysed (oneBnst 0) := {
    bnst := by
      intro b hb
      obtain rfl : b = ⟨(), 100, 100, 0, [0], 0, 300⟩ := by simpa [oneBnst] using hb
      constructor <;> simp [oneBnst, childLinks]
    tag := by
      intro t ht
      obtain rfl : t = ⟨(), 100, 0, 100, 0, 100, 0, [0], 0, 0, 200⟩ := by simpa [oneBnst] using ht
      constructor <;> simp [oneBnst, childLinks]
    para_le := by decide
    manager_le := by decide
    para := by simp [oneBnst]
    forest := ⟨id, by simp [oneBnst]⟩ }
  preserveSentence_iff hs ⟨by decide, by decide, by decide, by decide, by decide⟩

/-- The root of the managers has a parent in the copy. -/
theorem oneBnst_not_copied : ¬ IsCopy
    (preserveSentence ⟨500, 600, 700, 800⟩ emptySlot (oneBnst 1)).1
    (preserveSentence ⟨500, 600, 700, 800⟩ emptySlot (oneBnst 1)).2 := by
  intro h
  have hlink : (400 : Int) = 0 := (List.forall₂_cons.mp h.paraManager).1.parent.null rfl
  omega

end Knp
