import Knp.LinkedList
import Knp.Scanf
import Knp.SurfaceCase

/-!
# Provisional anaphora (`context.c`)

`EllipsisDetectForVerb` leaves a feature 「照応仮決定;...」 at the predicate for each demonstrative
that it has found the antecedent of. `demonstrative2coreference` takes these features out of the
list and gives one to the tag of the demonstrative. The number of the tag is read behind 11 bytes
of the text.

> In UTF-8 the 11 bytes end in the middle of the name, where there is no number.

Behind the name and the semicolon everything is read. Then the deletion is right as long as no two
of these features stand one behind the other, with a kept feature in front and any feature behind:
`fpp` points to the variable `next` after a deletion, and the next one frees the wrong cell.

A result is `none` where the C code uses a variable that is not set, or a cell that is freed.
-/

namespace Knp

open Scanf LinkedList

/-! ## The function -/

def provisionalName : List UInt8 := utf8 "照応仮決定"

def isProvisional (cp : List UInt8) : Bool := provisionalName.isPrefixOf cp

/-- `"%d;C用;%[^;];%[^;];%s"` -/
def referencePattern : List Directive :=
  .int :: .lit 59 :: ((utf8 "C用;").map .lit ++ [.until 59, .lit 59, .until 59, .lit 59, .str])

/-- The variables of `sscanf` that are used afterwards; `none` as long as they are not set. -/
structure ReferenceVars where
  num : Option Int
  target : Option (List UInt8)
  rest : Option (List UInt8)

def intSet (vs : List Value) (k : Nat) (old : Option Int) : Option Int :=
  match vs[k]? with
  | some (.int n) => some n
  | _ => old

def strSet (vs : List Value) (k : Nat) (old : Option (List UInt8)) : Option (List UInt8) :=
  match vs[k]? with
  | some (.str s) => some s
  | _ => old

def ReferenceVars.sscanf (vars : ReferenceVars) (text : List UInt8) : ReferenceVars :=
  let vs := scan referencePattern text
  ⟨intSet vs 0 vars.num, strSet vs 1 vars.target, strSet vs 3 vars.rest⟩

/-- `"C用;%s;=;%s"` -/
def coreferenceText (target rest : List UInt8) : List UInt8 :=
  utf8 "C用;" ++ (target ++ (utf8 ";=;" ++ rest))

/-- What `fpp` points to: a link of the list, or the variable `next`. -/
inductive FppPlace
  | link (place : Place)
  | next

/-- The list of the predicate, the variables, and what `assign_cfeature` has been called with. -/
structure ReferenceState where
  mem : Mem (List UInt8)
  fpp : FppPlace
  preFp : Option Nat
  next : Option Nat
  vars : ReferenceVars
  assigned : List (Int × List UInt8)

/-- `*fpp` -/
def ReferenceState.star (s : ReferenceState) : Option (Option Nat) :=
  match s.fpp with
  | .link place => s.mem.read place
  | .next => some s.next

def freeCell (m : Mem (List UInt8)) : Option Nat → Option (Mem (List UInt8))
  | none => some m
  | some p => (m.cell p).map fun _ => m.free p

/-- The cell is taken out. If `fpp` points to `next`, then `free(*fpp)` comes after `next` has
been set. -/
def ReferenceState.takeOut (s : ReferenceState) (link : Option Nat) : Option ReferenceState := do
  let s := { s with next := link }
  let m ← freeCell s.mem (← s.star)
  match s.preFp with
  | none =>
      match s.fpp with
      | .link place =>
          let m ← m.write link place
          return { s with mem := m }
      | .next => return { s with mem := m }
  | some pre =>
      let m ← m.write link (.next (some pre))
      return { s with mem := m, fpp := .next }

/-- The loop, with the number of bytes that are passed over in front of the number. -/
def referenceLoop (skipped : Nat) : Nat → ReferenceState → Option ReferenceState
  | 0, _ => none
  | fuel + 1, s => do
      match ← s.star with
      | none => return s
      | some p =>
          let c ← s.mem.cell p
          if isProvisional c.val then
            let vars := s.vars.sscanf (c.val.drop skipped)
            let text := coreferenceText (← vars.target) (← vars.rest)
            let s := { s with vars := vars, assigned := s.assigned ++ [(← vars.num, text)] }
            referenceLoop skipped fuel (← s.takeOut c.next)
          else
            referenceLoop skipped fuel
              { s with preFp := some p, fpp := .link (.next (some p)) }

def referenceStart (m : Mem (List UInt8)) : ReferenceState :=
  ⟨m, .link .head, none, none, ⟨none, none, none⟩, []⟩

/-- `demonstrative2coreference`, with a bound on the turns of the loop. -/
def demonstrative2coreference (fuel : Nat) (m : Mem (List UInt8)) : Option ReferenceState :=
  referenceLoop 11 fuel (referenceStart m)

/-! ## What it is for -/

/-- What `EllipsisDetectForVerb` has found out about a demonstrative. -/
structure ProvisionalRef where
  num : Int
  target : List UInt8
  rel : List UInt8
  rest : List UInt8

/-- The text of the feature at the predicate. -/
def ProvisionalRef.text (r : ProvisionalRef) : List UInt8 :=
  provisionalName ++ 59 :: (putInt r.num ++ 59 :: (utf8 "C用;" ++
    (r.target ++ 59 :: (r.rel ++ 59 :: r.rest))))

/-- The tag of the demonstrative and its feature. -/
def ProvisionalRef.moved (r : ProvisionalRef) : Int × List UInt8 :=
  (r.num, coreferenceText r.target r.rest)

/-- A feature of the predicate. -/
inductive PredFeature
  | reference (r : ProvisionalRef)
  | other (cp : List UInt8) (h : isProvisional cp = false)

namespace PredFeature

def text : PredFeature → List UInt8
  | reference r => r.text
  | other cp _ => cp

def ref? : PredFeature → Option ProvisionalRef
  | reference r => some r
  | other _ _ => none

end PredFeature

/-- The loop comes to an end, the other features are left in their order, and each tag has got
its feature. -/
def MovesBehind (skipped : Nat) (m : Mem (List UInt8)) (fs : List PredFeature) : Prop :=
  ∃ fuel s, referenceLoop skipped fuel (referenceStart m) = some s ∧
    Represents s.mem ((fs.filter fun f => f.ref?.isNone).map PredFeature.text) ∧
      s.assigned = (fs.filterMap PredFeature.ref?).map ProvisionalRef.moved

/-- With the loop of `demonstrative2coreference`. -/
def ReferencesMoved (m : Mem (List UInt8)) (fs : List PredFeature) : Prop :=
  ∃ fuel s, demonstrative2coreference fuel m = some s ∧
    Represents s.mem ((fs.filter fun f => f.ref?.isNone).map PredFeature.text) ∧
      s.assigned = (fs.filterMap PredFeature.ref?).map ProvisionalRef.moved

/-! ## The texts -/

section Texts

variable {r : ProvisionalRef} {f : PredFeature} {vars : ReferenceVars}

theorem isProvisional_text (r : ProvisionalRef) : isProvisional r.text = true :=
  List.isPrefixOf_iff_prefix.mpr (List.prefix_append _ _)

theorem PredFeature.isProvisional_text (f : PredFeature) :
    isProvisional f.text = f.ref?.isSome := by
  cases f with
  | reference r => exact Knp.isProvisional_text r
  | other cp h => exact h

/-- The last byte of 決, and 定. -/
theorem provisionalName_drop : provisionalName.drop 11 = [186, 229, 174, 154] := by decide

theorem provisionalName_length : provisionalName.length = 15 := by decide

/-- No variable is set. -/
theorem sscanf_text (vars : ReferenceVars) (r : ProvisionalRef) :
    vars.sscanf (r.text.drop 11) = vars := by
  have hdrop : r.text.drop 11 = provisionalName.drop 11 ++ 59 :: (putInt r.num ++ 59 ::
      (utf8 "C用;" ++ (r.target ++ 59 :: (r.rel ++ 59 :: r.rest)))) := by
    rw [ProvisionalRef.text, List.drop_append_of_le_length]
    rw [provisionalName_length]
    decide
  rw [hdrop, provisionalName_drop]
  rfl

/-- What is read back: a target and a case without a semicolon, and a rest without white space. -/
structure ProvisionalRef.Readable (r : ProvisionalRef) : Prop where
  target_ne : r.target ≠ []
  target_free : 59 ∉ r.target
  rel_ne : r.rel ≠ []
  rel_free : 59 ∉ r.rel
  rest_word : IsWord r.rest

/-- The text is read behind so many bytes. -/
def ProvisionalRef.ReadBehind (skipped : Nat) (r : ProvisionalRef) : Prop :=
  ∀ vars : ReferenceVars,
    vars.sscanf (r.text.drop skipped) = ⟨some r.num, some r.target, some r.rest⟩

/-- Behind the name and the semicolon everything is read. -/
theorem ProvisionalRef.Readable.readBehind (h : r.Readable) : r.ReadBehind 16 := by
  intro vars
  have hdrop : r.text.drop 16 = putInt r.num ++ 59 :: (utf8 "C用;" ++
      (r.target ++ 59 :: (r.rel ++ 59 :: r.rest))) := by
    have hlen : 16 = provisionalName.length + 1 := by rw [provisionalName_length]
    rw [ProvisionalRef.text, hlen, List.drop_length_add_append]
    rfl
  have hscan : scan referencePattern (r.text.drop 16) =
      [.int r.num, .str r.target, .str r.rel, .str r.rest] := by
    rw [hdrop, referencePattern, scan_int _ rfl, scan_lit, scan_lits,
      scan_until h.target_ne h.target_free, scan_lit, scan_until h.rel_ne h.rel_free, scan_lit,
      scan_str_end h.rest_word]
  rw [ReferenceVars.sscanf, hscan]
  rfl

end Texts

/-! ## The loop as it is -/

section Loop

variable {s : ReferenceState} {link : Option Nat} {cs : List (Nat × List UInt8)} {q : Nat}
  {a : List UInt8} {fs : List PredFeature} {r : ProvisionalRef} {skipped fuel : Nat}

/-- The first cell is that of the first feature. -/
theorem chain_of_texts {m : Mem (List UInt8)} {f : PredFeature} (hcs : Chain m link cs)
    (hfs : cs.map Prod.snd = (f :: fs).map PredFeature.text) :
    ∃ p next cs', cs = (p, f.text) :: cs' ∧ link = some p ∧ m.cell p = some ⟨f.text, next⟩ ∧
      Chain m next cs' ∧ cs'.map Prod.snd = fs.map PredFeature.text := by
  cases cs with
  | nil => cases hfs
  | cons c cs =>
      obtain ⟨p, b⟩ := c
      obtain ⟨hval, htail⟩ := List.cons.inj hfs
      obtain rfl : b = f.text := hval
      obtain ⟨hlink, next, hc, hrest⟩ := hcs
      exact ⟨p, next, cs, rfl, hlink, hc, hrest, htail⟩

/-- No variable is set before the first of these features, and none by it. -/
theorem referenceLoop_eq_none (hstar : s.star = some link) (hcs : Chain s.mem link cs)
    (hfs : cs.map Prod.snd = fs.map PredFeature.text) (hvars : s.vars = ⟨none, none, none⟩)
    (href : ∃ f ∈ fs, f.ref?.isSome) : referenceLoop 11 fuel s = none := by
  induction fuel generalizing s link cs fs with
  | zero => rfl
  | succ fuel ih =>
      obtain ⟨f, hf, hsome⟩ := href
      cases fs with
      | nil => exact absurd hf List.not_mem_nil
      | cons g fs =>
          obtain ⟨p, next, cs, rfl, rfl, hc, hrest, htail⟩ := chain_of_texts hcs hfs
          have hprov := g.isProvisional_text
          cases g with
          | reference r =>
              have hread : s.vars.sscanf ((PredFeature.reference r).text.drop 11) =
                  ⟨none, none, none⟩ := by
                rw [← hvars]
                exact sscanf_text s.vars r
              simp [referenceLoop, hstar, hc, hprov, hread, PredFeature.ref?]
          | other cp hcp =>
              have hnext : referenceLoop 11 fuel
                  { s with preFp := some p, fpp := .link (.next (some p)) } = none := by
                refine ih (Mem.read_next hc) hrest htail hvars ⟨f, ?_, hsome⟩
                rcases List.mem_cons.mp hf with rfl | hf
                · cases hsome
                · exact hf
              simpa [referenceLoop, hstar, hc, hprov, PredFeature.ref?] using hnext

end Loop

/-! ## The deletion -/

/-- A deletion through the variable `next`, with a cell behind: it is that one which is freed. -/
def Dangles : Bool → List PredFeature → Prop
  | _, [] => False
  | via, f :: fs =>
      if f.ref?.isSome then (via = true ∧ fs ≠ []) ∨ Dangles true fs else Dangles false fs

/-- What the loop leaves behind the cell `q` with the value `a`. -/
structure WalkedBehind (s s' : ReferenceState) (q : Nat) (a : List UInt8)
    (cs : List (Nat × List UInt8)) (fs : List PredFeature) : Prop where
  head_eq : s'.mem.head = s.mem.head
  exists_kept : ∃ link kept, s'.mem.cell q = some ⟨a, link⟩ ∧ Chain s'.mem link kept ∧
    (kept.map Prod.fst).Sublist (cs.map Prod.fst) ∧
      kept.map Prod.snd = (fs.filter fun f => f.ref?.isNone).map PredFeature.text
  assigned_eq : s'.assigned =
    s.assigned ++ (fs.filterMap PredFeature.ref?).map ProvisionalRef.moved
  frame : ∀ p, p ∉ q :: cs.map Prod.fst → s'.mem.cell p = s.mem.cell p

section Deletion

variable {s : ReferenceState} {link : Option Nat} {cs : List (Nat × List UInt8)} {q : Nat}
  {a : List UInt8} {f : PredFeature} {fs : List PredFeature} {r : ProvisionalRef}
  {skipped fuel : Nat} {via : Bool}

/-- The loop stands behind the cell `q`, which has been kept: `fpp` points to its link, or, after
a deletion, to `next`. -/
structure StandsBehind (s : ReferenceState) (q : Nat) (a : List UInt8) (link : Option Nat)
    (via : Bool) : Prop where
  preFp_eq : s.preFp = some q
  cell_eq : s.mem.cell q = some ⟨a, link⟩
  fpp_eq : s.fpp = if via then .next else .link (.next (some q))
  next_eq : via = true → s.next = link

theorem StandsBehind.star (h : StandsBehind s q a link via) : s.star = some link := by
  rw [ReferenceState.star, h.fpp_eq]
  cases via with
  | true => exact congrArg some (h.next_eq rfl)
  | false => exact Mem.read_next h.cell_eq

/-- A kept cell. -/
theorem referenceLoop_other {p : Nat} {b : List UInt8} {next : Option Nat}
    (hstar : s.star = some (some p)) (hc : s.mem.cell p = some ⟨b, next⟩)
    (hcp : isProvisional b = false) :
    referenceLoop skipped (fuel + 1) s =
      referenceLoop skipped fuel { s with preFp := some p, fpp := .link (.next (some p)) } := by
  simp [referenceLoop, hstar, hc, hcp]

/-- The loop stands behind the cell that it has kept. -/
theorem standsBehind_of_cell {p : Nat} {b : List UInt8} {next : Option Nat}
    (hc : s.mem.cell p = some ⟨b, next⟩) :
    StandsBehind { s with preFp := some p, fpp := .link (.next (some p)) } p b next false :=
  ⟨rfl, hc, rfl, fun h => by cases h⟩

/-- A cell that is kept, and what the loop leaves behind it. -/
theorem WalkedBehind.keep {s' : ReferenceState} {p : Nat} (hq : s.mem.cell q = some ⟨a, some p⟩)
    (hqnot : q ∉ p :: cs.map Prod.fst) (hother : f.ref? = none)
    (h : WalkedBehind { s with preFp := some p, fpp := .link (.next (some p)) } s' p f.text cs fs) :
    WalkedBehind s s' q a ((p, f.text) :: cs) (f :: fs) := by
  obtain ⟨link', kept, hcell, hchain, hsub, hkept⟩ := h.exists_kept
  refine ⟨h.head_eq, ⟨some p, (p, f.text) :: kept, ?_, ⟨rfl, link', hcell, hchain⟩,
    hsub.cons_cons p, ?_⟩, ?_, ?_⟩
  · rw [h.frame q hqnot]
    exact hq
  · rw [List.filter_cons_of_pos (by rw [hother]; rfl), List.map_cons, List.map_cons, hkept]
  · rw [List.filterMap_cons_none hother]
    exact h.assigned_eq
  · intro x hx
    exact h.frame x (not_or.mp (List.mem_cons.not.mp hx)).2

/-- A cell that is taken out, and what the loop leaves behind. -/
theorem WalkedBehind.drop {s₁ s' : ReferenceState} {p : Nat} {b : List UInt8}
    (h : WalkedBehind s₁ s' q a cs fs) (hhead : s₁.mem.head = s.mem.head)
    (hassigned : s₁.assigned = s.assigned ++ [r.moved])
    (hframe : ∀ x, x ≠ q → x ≠ p → s₁.mem.cell x = s.mem.cell x) :
    WalkedBehind s s' q a ((p, b) :: cs) (.reference r :: fs) := by
  obtain ⟨link', kept, hcell, hchain, hsub, hkept⟩ := h.exists_kept
  refine ⟨h.head_eq.trans hhead, ⟨link', kept, hcell, hchain, hsub.cons p, hkept⟩, ?_, ?_⟩
  · rw [h.assigned_eq, hassigned]
    exact List.append_assoc ..
  · intro x hx
    rw [List.map_cons] at hx
    obtain ⟨hxq, hxp⟩ := not_or.mp (List.mem_cons.not.mp hx)
    obtain ⟨hxp, hxcs⟩ := not_or.mp (List.mem_cons.not.mp hxp)
    rw [h.frame x (List.mem_cons.not.mpr (not_or.mpr ⟨hxq, hxcs⟩))]
    exact hframe x hxq hxp

theorem referenceLoop_reference {p : Nat} {next : Option Nat} (hr : r.ReadBehind skipped)
    (hstar : s.star = some (some p)) (hc : s.mem.cell p = some ⟨r.text, next⟩) :
    referenceLoop skipped (fuel + 1) s =
      ({ s with
          vars := ⟨some r.num, some r.target, some r.rest⟩
          assigned := s.assigned ++ [r.moved] } : ReferenceState).takeOut next >>=
        referenceLoop skipped fuel := by
  have hread := hr s.vars
  simp only [referenceLoop, hstar, hc, Option.bind_eq_bind, Option.bind_some, isProvisional_text,
    if_true, hread]
  rfl

/-- The first deletion behind `q`: the cell is freed, and `q` gets its link. -/
theorem StandsBehind.takeOut_link {p : Nat} {b : List UInt8} {next : Option Nat}
    (h : StandsBehind s q a (some p) false) (hne : q ≠ p) (hp : s.mem.cell p = some ⟨b, next⟩) :
    ∃ s', s.takeOut next = some s' ∧ StandsBehind s' q a next true ∧
      s'.mem.head = s.mem.head ∧ s'.assigned = s.assigned ∧ s'.vars = s.vars ∧
        ∀ x, x ≠ q → x ≠ p → s'.mem.cell x = s.mem.cell x := by
  have hfree : (s.mem.free p).cell q = some ⟨a, some p⟩ := by
    rw [Mem.free, Mem.set_of_ne _ _ hne, h.cell_eq]
  refine ⟨⟨(s.mem.free p).set q (some ⟨a, next⟩), .next, some q, next, s.vars, s.assigned⟩, ?_, ?_,
    rfl, rfl, rfl, ?_⟩
  · have hstar : ({ s with next := next } : ReferenceState).star = some (some p) := by
      rw [ReferenceState.star, h.fpp_eq]
      exact Mem.read_next h.cell_eq
    simp only [ReferenceState.takeOut, Option.bind_eq_bind, hstar, Option.bind_some, freeCell, hp,
      Option.map_some]
    simp [h.preFp_eq, Mem.write_next hfree]
  · exact ⟨rfl, Mem.set_self .., rfl, fun _ => rfl⟩
  · intro x hxq hxp
    rw [Mem.set_of_ne _ _ hxq, Mem.free, Mem.set_of_ne _ _ hxp]

/-- The next one: the link of the cell has been written to `next`, and what it points to is
freed. -/
theorem StandsBehind.takeOut_next {p : Nat} (h : StandsBehind s q a (some p) true)
    (next : Option Nat) :
    s.takeOut next = (freeCell s.mem next).bind fun m =>
      (m.write next (.next (some q))).map fun m =>
        { s with mem := m, fpp := .next, next := next } := by
  have hstar : ({ s with next := next } : ReferenceState).star = some next := by
    rw [ReferenceState.star, h.fpp_eq]
    rfl
  simp only [ReferenceState.takeOut, Option.bind_eq_bind, hstar, Option.bind_some]
  simp [h.preFp_eq, Option.map_eq_bind]

/-- A deletion that is the first behind `q`, or at the end of the list. -/
theorem StandsBehind.takeOut {p : Nat} {b : List UInt8} {next : Option Nat}
    (h : StandsBehind s q a (some p) via) (hne : q ≠ p) (hp : s.mem.cell p = some ⟨b, next⟩)
    (hend : via = true → next = none) :
    ∃ s', s.takeOut next = some s' ∧ StandsBehind s' q a next true ∧
      s'.mem.head = s.mem.head ∧ s'.assigned = s.assigned ∧
        ∀ x, x ≠ q → x ≠ p → s'.mem.cell x = s.mem.cell x := by
  cases via with
  | false =>
      obtain ⟨s', htake, hstands, hhead, hassigned, -, hframe⟩ := h.takeOut_link hne hp
      exact ⟨s', htake, hstands, hhead, hassigned, hframe⟩
  | true =>
      obtain rfl := hend rfl
      refine ⟨⟨s.mem.set q (some ⟨a, none⟩), .next, s.preFp, none, s.vars, s.assigned⟩, ?_,
        ⟨h.preFp_eq, Mem.set_self .., rfl, fun _ => rfl⟩, rfl, rfl, ?_⟩
      · rw [h.takeOut_next, freeCell, Option.bind_some, Mem.write_next h.cell_eq]
        rfl
      · intro x hxq _
        exact Mem.set_of_ne _ _ hxq

/-- Where no deletion frees a wrong cell. -/
theorem referenceLoop_behind (h : StandsBehind s q a link via) (hcs : Chain s.mem link cs)
    (hnd : (q :: cs.map Prod.fst).Nodup) (hfs : cs.map Prod.snd = fs.map PredFeature.text)
    (hread : ∀ r ∈ fs.filterMap PredFeature.ref?, r.ReadBehind skipped) (hsafe : ¬Dangles via fs) :
    ∃ s', referenceLoop skipped (fs.length + 1) s = some s' ∧ WalkedBehind s s' q a cs fs := by
  induction fs generalizing s q a link cs via with
  | nil =>
      obtain rfl : cs = [] := List.map_eq_nil_iff.mp hfs
      obtain rfl : link = none := hcs
      refine ⟨s, ?_, rfl, ⟨none, [], h.cell_eq, rfl, List.Sublist.refl _, rfl⟩, ?_, fun _ _ => rfl⟩
      · simp [referenceLoop, h.star]
      · simp
  | cons f fs ih =>
      obtain ⟨p, next, cs, rfl, rfl, hc, hrest, htail⟩ := chain_of_texts hcs hfs
      obtain ⟨hqnot, hnd'⟩ := List.nodup_cons.mp hnd
      rw [List.map_cons] at hqnot hnd'
      obtain ⟨hcnot, hnd''⟩ := List.nodup_cons.mp hnd'
      have hstar := h.star
      rw [List.length_cons]
      cases f with
      | other cp hcp =>
          obtain ⟨s', hloop, hwalk⟩ := ih (standsBehind_of_cell hc) hrest hnd' htail
            (fun r hr => hread r (by simpa [PredFeature.ref?] using hr))
            (by simpa [Dangles, PredFeature.ref?] using hsafe)
          refine ⟨s', ?_, hwalk.keep h.cell_eq hqnot rfl⟩
          rw [referenceLoop_other hstar hc hcp]
          exact hloop
      | reference r =>
          have hr : r.ReadBehind skipped := hread r (by simp [PredFeature.ref?])
          have hdangles : ¬((via = true ∧ fs ≠ []) ∨ Dangles true fs) := by
            simpa [Dangles, PredFeature.ref?] using hsafe
          obtain ⟨hvia, hsafe'⟩ := not_or.mp hdangles
          obtain ⟨hne, hqnot⟩ := not_or.mp (List.mem_cons.not.mp hqnot)
          have hend : via = true → next = none := by
            intro htrue
            obtain rfl : fs = [] := not_not.mp fun hne => hvia ⟨htrue, hne⟩
            obtain rfl : cs = [] := List.map_eq_nil_iff.mp htail
            exact hrest
          have hstands : StandsBehind { s with
              vars := ⟨some r.num, some r.target, some r.rest⟩
              assigned := s.assigned ++ [r.moved] } q a (some p) via :=
            ⟨h.preFp_eq, h.cell_eq, h.fpp_eq, h.next_eq⟩
          obtain ⟨s₁, htake, hstands₁, hhead, hassigned, hframe⟩ := hstands.takeOut hne hc hend
          have hrest₁ : Chain s₁.mem next cs := hrest.congr fun x hx =>
            hframe x (fun hxq => hqnot (hxq ▸ hx)) fun hxc => hcnot (hxc ▸ hx)
          obtain ⟨s', hloop, hwalk⟩ := ih hstands₁ hrest₁ (List.nodup_cons.mpr ⟨hqnot, hnd''⟩) htail
            (fun r' hr' => hread r' (List.mem_cons_of_mem r hr')) hsafe'
          refine ⟨s', ?_, hwalk.drop hhead hassigned hframe⟩
          rw [referenceLoop_reference hr hstar hc, htake]
          exact hloop

/-- A freed cell is read. -/
theorem referenceLoop_freed {p : Nat} (hstar : s.star = some (some p)) (hp : s.mem.cell p = none) :
    referenceLoop skipped fuel s = none := by
  cases fuel with
  | zero => rfl
  | succ fuel => simp [referenceLoop, hstar, hp]

theorem referenceLoop_dangles (h : StandsBehind s q a link via) (hcs : Chain s.mem link cs)
    (hnd : (q :: cs.map Prod.fst).Nodup) (hfs : cs.map Prod.snd = fs.map PredFeature.text)
    (hread : ∀ r ∈ fs.filterMap PredFeature.ref?, r.ReadBehind skipped)
    (hdangles : Dangles via fs) :
    referenceLoop skipped fuel s = none := by
  induction fs generalizing fuel s q a link cs via with
  | nil => exact hdangles.elim
  | cons f fs ih =>
      cases fuel with
      | zero => rfl
      | succ fuel =>
      obtain ⟨p, next, cs, rfl, rfl, hc, hrest, htail⟩ := chain_of_texts hcs hfs
      obtain ⟨hqnot, hnd'⟩ := List.nodup_cons.mp hnd
      rw [List.map_cons] at hqnot hnd'
      obtain ⟨hcnot, hnd''⟩ := List.nodup_cons.mp hnd'
      have hstar := h.star
      cases f with
      | other cp hcp =>
          rw [referenceLoop_other hstar hc hcp]
          exact ih (standsBehind_of_cell hc) hrest hnd' htail
            (fun r hr => hread r (by simpa [PredFeature.ref?] using hr))
            (by simpa [Dangles, PredFeature.ref?] using hdangles)
      | reference r =>
          have hr : r.ReadBehind skipped := hread r (by simp [PredFeature.ref?])
          have hcases : (via = true ∧ fs ≠ []) ∨ Dangles true fs := by
            simpa [Dangles, PredFeature.ref?] using hdangles
          obtain ⟨hne, hqnot⟩ := not_or.mp (List.mem_cons.not.mp hqnot)
          have hstands : StandsBehind { s with
              vars := ⟨some r.num, some r.target, some r.rest⟩
              assigned := s.assigned ++ [r.moved] } q a (some p) via :=
            ⟨h.preFp_eq, h.cell_eq, h.fpp_eq, h.next_eq⟩
          rw [referenceLoop_reference hr hstar hc]
          cases via with
          | true =>
              -- a feature is behind, and its cell is freed
              have hfs' : fs ≠ [] := by
                rcases hcases with ⟨-, hne⟩ | hlater
                · exact hne
                · rintro rfl
                  exact hlater
              obtain ⟨c', cs', rfl⟩ : ∃ c' cs', cs = c' :: cs' :=
                List.exists_cons_of_ne_nil fun hnil => hfs' (by simpa [hnil] using htail.symm)
              obtain ⟨rfl, next', hc', -⟩ := hrest
              have hqc' : q ≠ c'.1 := fun heq => hqnot (heq ▸ List.mem_cons_self)
              have hfree : (s.mem.free c'.1).cell q = some ⟨a, some p⟩ := by
                rw [Mem.free, Mem.set_of_ne _ _ hqc', h.cell_eq]
              have hgone : ((s.mem.free c'.1).set q (some ⟨a, some c'.1⟩)).cell c'.1 = none := by
                rw [Mem.set_of_ne _ _ hqc'.symm, Mem.free, Mem.set_self]
              rw [hstands.takeOut_next]
              simp only [freeCell, hc', Option.map_some, Option.bind_some, Mem.write_next hfree]
              exact referenceLoop_freed rfl hgone
          | false =>
              have hlater : Dangles true fs := hcases.resolve_left fun hvia => by cases hvia.1
              obtain ⟨s₁, htake, hstands₁, -, -, hframe⟩ :=
                hstands.takeOut hne hc fun hvia => by cases hvia
              have hrest₁ : Chain s₁.mem next cs := hrest.congr fun x hx =>
                hframe x (fun hxq => hqnot (hxq ▸ hx)) fun hxc => hcnot (hxc ▸ hx)
              rw [htake]
              exact ih hstands₁ hrest₁ (List.nodup_cons.mpr ⟨hqnot, hnd''⟩) htail
                (fun r' hr' => hread r' (List.mem_cons_of_mem r hr')) hlater

theorem dangles_iff {via : Bool} : Dangles via fs ↔
    (via = true ∧ ∃ f g back, fs = f :: g :: back ∧ f.ref?.isSome) ∨
      ∃ front f g h back, fs = front ++ f :: g :: h :: back ∧ f.ref?.isSome ∧ g.ref?.isSome := by
  induction fs generalizing via with
  | nil => simp [Dangles]
  | cons f fs ih =>
      rw [Dangles]
      split
      next href =>
        rw [ih]
        constructor
        · rintro (⟨hvia, hne⟩ | ⟨-, g, h, back, rfl, hg⟩ | ⟨front, g, h, i, back, rfl, hgh⟩)
          · obtain ⟨g, back, rfl⟩ := List.exists_cons_of_ne_nil hne
            exact .inl ⟨hvia, f, g, back, rfl, href⟩
          · exact .inr ⟨[], f, g, h, back, rfl, href, hg⟩
          · exact .inr ⟨f :: front, g, h, i, back, rfl, hgh⟩
        · rintro (⟨hvia, f', g, back, heq, -⟩ | ⟨front, f', g, h, back, heq, hf', hg⟩)
          · obtain ⟨rfl, rfl⟩ := List.cons.inj heq
            exact .inl ⟨hvia, List.cons_ne_nil _ _⟩
          · cases front with
            | nil =>
                obtain ⟨rfl, rfl⟩ := List.cons.inj heq
                exact .inr (.inl ⟨rfl, g, h, back, rfl, hg⟩)
            | cons f'' front =>
                obtain ⟨rfl, rfl⟩ := List.cons.inj heq
                exact .inr (.inr ⟨front, f', g, h, back, rfl, hf', hg⟩)
      next hother =>
        rw [ih]
        constructor
        · rintro (⟨hvia, -⟩ | ⟨front, g, h, i, back, rfl, hgh⟩)
          · cases hvia
          · exact .inr ⟨f :: front, g, h, i, back, rfl, hgh⟩
        · rintro (⟨-, f', g, back, heq, hf'⟩ | ⟨front, f', g, h, back, heq, hf', hg⟩)
          · obtain ⟨rfl, rfl⟩ := List.cons.inj heq
            exact absurd hf' hother
          · cases front with
            | nil =>
                obtain ⟨rfl, rfl⟩ := List.cons.inj heq
                exact absurd hf' hother
            | cons f'' front =>
                obtain ⟨rfl, rfl⟩ := List.cons.inj heq
                exact .inr ⟨front, f', g, h, back, rfl, hf', hg⟩

/-- At the head the features are taken out one after the other. -/
theorem takeOut_head {p : Nat} {b : List UInt8} {next : Option Nat} (hfpp : s.fpp = .link .head)
    (hpre : s.preFp = none) (hhead : s.mem.head = some p) (hp : s.mem.cell p = some ⟨b, next⟩) :
    s.takeOut next =
      some { s with mem := { s.mem.free p with head := next }, next := next } := by
  have hstar : ({ s with next := next } : ReferenceState).star = some (some p) := by
    rw [ReferenceState.star, hfpp]
    exact congrArg some hhead
  simp only [ReferenceState.takeOut, Option.bind_eq_bind, hstar, Option.bind_some, freeCell, hp,
    Option.map_some]
  simp [hpre, hfpp, Mem.write]

/-- From the head on. -/
theorem referenceLoop_head (hfpp : s.fpp = .link .head) (hpre : s.preFp = none)
    (hcs : Chain s.mem s.mem.head cs) (hnd : (cs.map Prod.fst).Nodup)
    (hfs : cs.map Prod.snd = fs.map PredFeature.text)
    (hread : ∀ r ∈ fs.filterMap PredFeature.ref?, r.ReadBehind skipped) :
    (¬Dangles false (fs.dropWhile fun f => f.ref?.isSome) →
        ∃ s', referenceLoop skipped (fs.length + 1) s = some s' ∧
          Represents s'.mem ((fs.filter fun f => f.ref?.isNone).map PredFeature.text) ∧
            s'.assigned = s.assigned ++ (fs.filterMap PredFeature.ref?).map ProvisionalRef.moved) ∧
      (Dangles false (fs.dropWhile fun f => f.ref?.isSome) →
        ∀ fuel, referenceLoop skipped fuel s = none) := by
  induction fs generalizing s cs with
  | nil =>
      obtain rfl : cs = [] := List.map_eq_nil_iff.mp hfs
      have hnone : s.mem.head = none := hcs
      have hstar : s.star = some none := by
        rw [ReferenceState.star, hfpp]
        exact congrArg some hnone
      refine ⟨fun _ => ⟨s, ?_, ⟨[], List.nodup_nil, hnone, rfl⟩, (List.append_nil _).symm⟩,
        fun h => h.elim⟩
      simp [referenceLoop, hstar]
  | cons f fs ih =>
      obtain ⟨p, next, cs, rfl, hlink, hc, hrest, htail⟩ := chain_of_texts hcs hfs
      obtain ⟨hcnot, hnd'⟩ := List.nodup_cons.mp hnd
      have hstar : s.star = some (some p) := by
        rw [ReferenceState.star, hfpp]
        exact congrArg some hlink
      rw [List.length_cons]
      cases f with
      | other cp hcp =>
          have hread' : ∀ r ∈ fs.filterMap PredFeature.ref?, r.ReadBehind skipped :=
            fun r hr => hread r (by simpa [PredFeature.ref?] using hr)
          constructor
          · intro hsafe
            obtain ⟨s', hloop, hwalk⟩ := referenceLoop_behind (standsBehind_of_cell hc) hrest hnd
              htail hread' (by simpa [Dangles, PredFeature.ref?] using hsafe)
            obtain ⟨link', kept, hcell, hchain, hsub, hkept⟩ := hwalk.exists_kept
            refine ⟨s', ?_, ⟨(p, cp) :: kept, (hsub.cons_cons p).nodup hnd,
              ⟨hwalk.head_eq.trans hlink, link', hcell, hchain⟩, ?_⟩, ?_⟩
            · rw [referenceLoop_other hstar hc hcp]
              exact hloop
            · rw [List.filter_cons_of_pos rfl, List.map_cons, List.map_cons, hkept]
              rfl
            · rw [List.filterMap_cons_none rfl]
              exact hwalk.assigned_eq
          · intro hdangles fuel
            cases fuel with
            | zero => rfl
            | succ fuel =>
                rw [referenceLoop_other hstar hc hcp]
                exact referenceLoop_dangles (standsBehind_of_cell hc) hrest hnd htail hread'
                  (by simpa [Dangles, PredFeature.ref?] using hdangles)
      | reference r =>
          have hr : r.ReadBehind skipped := hread r (by simp [PredFeature.ref?])
          have hfree : Chain { s.mem.free p with head := next } next cs :=
            hrest.congr fun x hx => Mem.set_of_ne _ _ fun hxc => hcnot (hxc ▸ hx)
          have htake := takeOut_head (s := { s with
              vars := ⟨some r.num, some r.target, some r.rest⟩
              assigned := s.assigned ++ [r.moved] }) hfpp hpre hlink hc
          have hdrop : (PredFeature.reference r :: fs).dropWhile (fun f => f.ref?.isSome) =
              fs.dropWhile fun f => f.ref?.isSome := List.dropWhile_cons_of_pos rfl
          rw [hdrop]
          obtain ⟨hsafe, hdangles⟩ := ih
            (s := ⟨{ s.mem.free p with head := next }, s.fpp, s.preFp, next,
              ⟨some r.num, some r.target, some r.rest⟩, s.assigned ++ [r.moved]⟩)
            hfpp hpre hfree hnd' htail fun r' hr' => hread r' (List.mem_cons_of_mem r hr')
          constructor
          · intro hnot
            obtain ⟨s', hloop, hrep, hassigned⟩ := hsafe hnot
            refine ⟨s', ?_, hrep, hassigned.trans (List.append_assoc ..)⟩
            rw [referenceLoop_reference hr hstar hc, htake]
            exact hloop
          · intro hd fuel
            cases fuel with
            | zero => rfl
            | succ fuel =>
                rw [referenceLoop_reference hr hstar hc, htake]
                exact hdangles hd fuel

end Deletion

/-! ## The results -/

/-- Behind the first kept feature two of these features stand one behind the other, with a
feature behind them. -/
def HasPair (fs : List PredFeature) : Prop :=
  ∃ front f g h back, fs.dropWhile (fun f => f.ref?.isSome) = front ++ f :: g :: h :: back ∧
    f.ref?.isSome ∧ g.ref?.isSome

section Results

variable {m : Mem (List UInt8)} {fs : List PredFeature} {skipped : Nat}

theorem dangles_iff_hasPair :
    Dangles false (fs.dropWhile fun f => f.ref?.isSome) ↔ HasPair fs := by
  rw [dangles_iff]
  exact or_iff_right fun h => by cases h.1

/-- **When the deletion is right, if the texts are read.** -/
theorem movesBehind_iff (h : Represents m (fs.map PredFeature.text))
    (hread : ∀ r ∈ fs.filterMap PredFeature.ref?, r.ReadBehind skipped) :
    MovesBehind skipped m fs ↔ ¬HasPair fs := by
  obtain ⟨cs, hnd, hcs, hfs⟩ := h
  obtain ⟨hsafe, hdangles⟩ :=
    referenceLoop_head (s := referenceStart m) rfl rfl hcs hnd hfs hread
  rw [← dangles_iff_hasPair]
  constructor
  · rintro ⟨fuel, s, hloop, -⟩ hd
    rw [hdangles hd fuel] at hloop
    cases hloop
  · intro hnot
    obtain ⟨s, hloop, hrep, hassigned⟩ := hsafe hnot
    exact ⟨fs.length + 1, s, hloop, hrep, hassigned⟩

/-- With the name and the semicolon passed over, as they are long in UTF-8. -/
theorem movesBehind_name_iff (h : Represents m (fs.map PredFeature.text))
    (hread : ∀ r ∈ fs.filterMap PredFeature.ref?, r.Readable) :
    MovesBehind 16 m fs ↔ ¬HasPair fs :=
  movesBehind_iff h fun r hr => (hread r hr).readBehind

theorem not_hasPair_of_others (h : fs.filterMap PredFeature.ref? = []) : ¬HasPair fs := by
  rintro ⟨front, f, g, g', back, heq, hf, -⟩
  have hmem : f ∈ fs := (List.dropWhile_suffix _).subset
    (heq ▸ List.mem_append_right front List.mem_cons_self)
  rw [List.filterMap_eq_nil_iff.mp h f hmem] at hf
  cases hf

/-- **When `demonstrative2coreference` is right**: no feature is to be moved. -/
theorem referencesMoved_iff (h : Represents m (fs.map PredFeature.text)) :
    ReferencesMoved m fs ↔ fs.filterMap PredFeature.ref? = [] := by
  constructor
  · rintro ⟨fuel, s, hloop, -⟩
    by_contra hne
    obtain ⟨cs, -, hcs, hfs⟩ := h
    obtain ⟨r, hr⟩ := List.exists_mem_of_ne_nil _ hne
    obtain ⟨f, hf, href⟩ := List.mem_filterMap.mp hr
    have hnone : referenceLoop 11 fuel (referenceStart m) = none :=
      referenceLoop_eq_none rfl hcs hfs rfl ⟨f, hf, by rw [href]; rfl⟩
    rw [demonstrative2coreference, hnone] at hloop
    cases hloop
  · intro hothers
    have hread : ∀ r ∈ fs.filterMap PredFeature.ref?, r.ReadBehind 11 := by
      rw [hothers]
      exact List.forall_mem_nil _
    exact (movesBehind_iff h hread).mpr (not_hasPair_of_others hothers)

/-- 「それ」 at the tag 0 is 「本」 in the sentence before. -/
def soreRef : ProvisionalRef where
  num := 0
  target := utf8 "【本】"
  rel := utf8 "ヲ"
  rest := utf8 "1;2;0.900:?(1文前):2文節"

/-- It is not moved, whatever else happens. -/
theorem soreRef_not_moved :
    ¬ReferencesMoved (place 0 [soreRef.text]) [.reference soreRef] := by
  rintro ⟨fuel, s, hloop, -⟩
  have hsome : ∃ f ∈ [PredFeature.reference soreRef], f.ref?.isSome :=
    ⟨.reference soreRef, List.mem_singleton_self _, rfl⟩
  have hnone : referenceLoop 11 fuel (referenceStart (place 0 [soreRef.text])) = none :=
    referenceLoop_eq_none rfl (chain_place _ 0) rfl rfl hsome
  rw [demonstrative2coreference, hnone] at hloop
  cases hloop

theorem soreRef_moved_iff : ReferencesMoved (place 0 [soreRef.text]) [.reference soreRef] ↔
    [PredFeature.reference soreRef].filterMap PredFeature.ref? = [] :=
  referencesMoved_iff (represents_place [soreRef.text] 0)

end Results

end Knp
