import Knp.HandOver
import Knp.StrongPara

/-!
# Modifiers of coordinations (`tree_conv.c`)

The modifiers of a coordination modify all of its conjuncts.
`para_modifier_expand` adds them to the child arrays of the conjuncts and takes
them out of the array of the node that stands for the coordination, which it
does by writing a NULL.

> If no other child stands behind the modifiers, no node is lost. The modifiers
> stand at each conjunct that is not a coordination itself, all other nodes
> stand where they stood.
-/

namespace Knp

open Walks

/-- The child array up to its NULL. -/
def TreeData.children (d : TreeData) (p : Nat) : List Nat :=
  NullArray.entries PARA_PART_MAX (d.child p)

/-- A child that a coordination does not keep; `renyou` stands for 係:連用. -/
def isModifier (renyou : Nat → Bool) (d : TreeData) (c : Nat) : Bool :=
  decide (d.paraType c = .nil) && !renyou c

/-- The loop over `j`: the conjuncts among the children of `b` get `c`. -/
def giveConjuncts (b c : Nat) : Nat → Nat → TreeData → Option TreeData
  | 0, _, _ => none
  | fuel + 1, j, d =>
      match d.child b j with
      | none => some d
      | some q =>
          if d.paraType q = .normal then
            (tAddNode q c none d).bind (giveConjuncts b c fuel (j + 1))
          else giveConjuncts b c fuel (j + 1) d

/-- The loop over the children of a coordination `b`, from `i` on. -/
def moveModifiers (renyou : Nat → Bool) (b : Nat) : Nat → Nat → TreeData → Option TreeData
  | 0, _, _ => none
  | fuel + 1, i, d =>
      match d.child b i with
      | none => some d
      | some c =>
          if isModifier renyou d c then
            (giveConjuncts b c PARA_PART_MAX 0
              { d with toParaP := Function.update d.toParaP c true }).bind fun d =>
              (d.setChild b i none).bind (moveModifiers renyou b fuel (i + 1))
          else moveModifiers renyou b fuel (i + 1) d

/-- The last loop, over the children that are left. -/
def eachChild (run : Nat → TreeData → Option TreeData) (b : Nat) :
    Nat → Nat → TreeData → Option TreeData
  | 0, _, _ => none
  | fuel + 1, i, d =>
      match d.child b i with
      | none => some d
      | some c => (run c d).bind (eachChild run b fuel (i + 1))

/-- `para_modifier_expand`, with the depth of its recursion. -/
def paraModifierExpand (renyou : Nat → Bool) : Nat → Nat → TreeData → Option TreeData
  | 0, _, _ => none
  | depth + 1, b, d =>
      (if d.paraTopP b then moveModifiers renyou b PARA_PART_MAX 0 d else some d).bind
        (eachChild (paraModifierExpand renyou depth) b PARA_PART_MAX 0)

/-! ## Which children move -/

/-- The coordinations of a tree, with their modifiers and conjuncts. -/
def expandPlan (renyou : Nat → Bool) (d : TreeData) : HandOver Nat where
  group := d.paraTopP
  keep p := if d.paraTopP p then (d.children p).filter fun c => !isModifier renyou d c
    else d.children p
  gives p := if d.paraTopP p then (d.children p).filter fun c => isModifier renyou d c else []
  takers p := if d.paraTopP p then (d.children p).filter fun c => d.paraType c = .normal else []
  takers_keep p c hc := by
    split_ifs at hc ⊢ with htop
    · rw [List.mem_filter] at hc ⊢
      refine ⟨hc.1, ?_⟩
      have hnormal : d.paraType c = .normal := of_decide_eq_true hc.2
      simp [isModifier, hnormal]
    · cases hc
  of_takers p c hc := by
    by_contra htop
    rw [if_neg htop] at hc
    cases hc
  of_gives p c hc := by
    by_contra htop
    rw [if_neg htop] at hc
    cases hc

/-- A tree below `root` whose coordinations have conjuncts, and no other children
behind their modifiers; the arrays have room for what comes to them. -/
structure Expandable (renyou : Nat → Bool) (d : TreeData) (root n : Nat) : Prop where
  ended : Ended d
  tree : IsTree d.children root
  below : ∀ x, Reach d.children root x → x < n
  conjunct : ∀ q, d.paraTopP q → ∃ c ∈ d.children q, d.paraType c = .normal
  behind : ∀ q, d.paraTopP q → d.children q =
    ((d.children q).filter fun c => !isModifier renyou d c) ++
      (d.children q).filter fun c => isModifier renyou d c
  room : ∀ p (l : List Nat), l.Nodup →
    (∀ x ∈ l, ∃ q, (expandPlan renyou d).Down q p ∧ x ∈ (expandPlan renyou d).gives q) →
    ((expandPlan renyou d).keep p).length + l.length < PARA_PART_MAX

section Plan

variable {renyou : Nat → Bool} {d d' : TreeData} {root n p q c b : Nat}

theorem Ended.reads (h : Ended d) (p : Nat) : NullArray.Reads (d.child p) (d.children p) ∧
    (d.children p).length < PARA_PART_MAX := by
  obtain ⟨l, hlen, hl⟩ := h p
  rw [TreeData.children, hl.entries_eq hlen]
  exact ⟨hl, hlen⟩

theorem Expandable.kids_eq (h : Expandable renyou d root n) :
    (expandPlan renyou d).kids (expandPlan renyou d).gives = d.children := by
  funext p
  unfold HandOver.kids expandPlan
  dsimp only
  split_ifs with htop
  · exact (h.behind p htop).symm
  · exact List.append_nil _

/-- Ranks that fall from a node to its children, and to those it may get. -/
theorem Expandable.exists_rank (h : Expandable renyou d root n) :
    ∃ rank, (expandPlan renyou d).Ranked root rank ∧ rank root < n := by
  have htree : IsTree ((expandPlan renyou d).kids (expandPlan renyou d).gives) root := by
    rw [h.kids_eq]
    exact h.tree
  have hbelow : ∀ x, Reach ((expandPlan renyou d).kids (expandPlan renyou d).gives) root x →
      x < n := by
    rw [h.kids_eq]
    exact h.below
  obtain ⟨rank, hrank, hbound⟩ := exists_height (r := (expandPlan renyou d).Comes root) (n := n)
    (fun a b hab => ⟨hbelow a (hab.reach htree), hbelow b hab.1⟩)
    (HandOver.comes_acyclic htree)
  refine ⟨rank, ⟨htree, fun q hq => ?_, fun p c hp hc => hrank c p ⟨hp, Or.inl hc⟩,
    fun q p x hq hqp hx => ?_⟩, hbound root (hbelow root .refl)⟩
  · obtain ⟨c, hc, hnormal⟩ := h.conjunct q hq
    refine List.ne_nil_of_mem (a := c) ?_
    have htop : d.paraTopP q := hq
    show c ∈ if d.paraTopP q then _ else _
    rw [if_pos htop]
    exact List.mem_filter.mpr ⟨hc, decide_eq_true hnormal⟩
  · have hp := hq.trans (HandOver.reach_of_down hqp)
    exact hrank x p ⟨hp, Or.inr ⟨q, hqp, hx⟩⟩

end Plan

/-! ## The loops of one coordination -/

section Loops

variable {renyou : Nat → Bool} {d d' : TreeData} {b c p q : Nat} {l keep ms ts : List Nat}
  {kind : Nat → ParaType}

theorem tAddNode_other (h : tAddNode q c none d = some d') (hne : p ≠ q) :
    d'.child p = d.child p := by
  obtain ⟨childNum, -, hput⟩ := Option.bind_eq_some_iff.mp h
  split_ifs at hput
  obtain rfl := Option.some.inj hput
  exact Function.update_of_ne hne ..

/-- The conjuncts of the list get the child, one after the other. -/
theorem giveConjuncts_eq (hlen : l.length < PARA_PART_MAX)
    (hb : ∀ q ∈ l, kind q = .normal → q ≠ b) : ∀ (fuel j : Nat) {d : TreeData},
    j + fuel = PARA_PART_MAX → j ≤ l.length → d.paraType = kind →
    NullArray.Reads (d.child b) l → giveConjuncts b c fuel j d =
      ((l.drop j).filter fun q => kind q = .normal).foldlM (fun d q => tAddNode q c none d) d
  | 0, j, d, hfuel, hj, _, _ => by omega
  | fuel + 1, j, d, hfuel, hj, hkind, hl => by
      rw [giveConjuncts]
      rcases Nat.lt_or_eq_of_le hj with hlt | rfl
      · rw [hl.entry hlt, List.drop_eq_getElem_cons hlt]
        simp only [hkind]
        split_ifs with hnormal
        · rw [List.filter_cons_of_pos (by simpa using hnormal), List.foldlM_cons]
          refine Option.bind_congr fun d₁ hadd => ?_
          have hcopied := tAddNode_copied hadd
          refine giveConjuncts_eq hlen hb fuel (j + 1) (by omega) hlt ?_ ?_
          · rw [hcopied.else_eq]
            exact hkind
          · rw [tAddNode_other hadd (hb _ (List.getElem_mem hlt) hnormal).symm]
            exact hl
        · rw [List.filter_cons_of_neg (by simpa using hnormal)]
          exact giveConjuncts_eq hlen hb fuel (j + 1) (by omega) hlt hkind hl
      · rw [hl.null, List.drop_length]
        rfl

theorem addAll_other : ∀ {ts : List Nat} {d : TreeData}, b ∉ ts →
    ts.foldlM (fun d t => tAddNode t c none d) d = some d' → d'.child b = d.child b
  | [], d, _, h => by
      obtain rfl := Option.some.inj h
      rfl
  | t :: ts, d, hb, h => by
      rw [List.foldlM_cons] at h
      obtain ⟨d₁, hadd, hrest⟩ := Option.bind_eq_some_iff.mp h
      rw [List.mem_cons, not_or] at hb
      rw [addAll_other hb.2 hrest, tAddNode_other hadd hb.1]

/-- The array of `b` when the modifiers before place `i` have been taken out. -/
structure AtModifier (b i : Nat) (keep ms : List Nat) (d : TreeData) : Prop where
  starts : NullArray.Starts (d.child b) keep
  rest : ∀ j ≤ ms.length, d.child b (i + j) = ms[j]?
  null : keep.length < i → d.child b keep.length = none
  le : keep.length ≤ i
  lt : i + ms.length < PARA_PART_MAX

theorem AtModifier.reads {i : Nat} (h : AtModifier b i keep ms d) :
    ∃ tail, (∀ c ∈ tail, c ∈ ms) ∧ (keep ++ tail).length < PARA_PART_MAX ∧
      NullArray.Reads (d.child b) (keep ++ tail) := by
  have hlt := h.lt
  rcases Nat.lt_or_eq_of_le h.le with hpast | heq
  · refine ⟨[], fun c hc => absurd hc List.not_mem_nil, ?_, ?_⟩
    · rw [List.append_nil]
      omega
    · rw [List.append_nil]
      intro k hk
      rcases Nat.lt_or_eq_of_le hk with hk | rfl
      · exact h.starts k hk
      · rw [h.null hpast, List.getElem?_eq_none le_rfl]
  · refine ⟨ms, fun c hc => hc, ?_, fun k hk => ?_⟩
    · rw [List.length_append]
      omega
    · rw [List.length_append] at hk
      rcases Nat.lt_or_ge k keep.length with hlow | hhigh
      · rw [h.starts k hlow, List.getElem?_append_left hlow]
      · rw [List.getElem?_append_right hhigh, ← h.rest (k - keep.length) (by omega), ← heq]
        congr 1
        omega

/-- The last modifier has been taken out. -/
theorem AtModifier.done {i : Nat} (h : AtModifier b i keep [] d) :
    NullArray.Reads (d.child b) keep := by
  obtain ⟨tail, htail, -, hreads⟩ := h.reads
  rw [List.eq_nil_iff_forall_not_mem.mpr fun c hc => List.not_mem_nil (htail c hc),
    List.append_nil] at hreads
  exact hreads

/-- A NULL takes the place of the modifier at `i`. -/
theorem AtModifier.next {i : Nat} (h : AtModifier b i keep (c :: ms) d)
    (hset : d.setChild b i none = some d') : AtModifier b (i + 1) keep ms d' := by
  have hlt := h.lt
  have hle := h.le
  rw [List.length_cons] at hlt
  rw [TreeData.setChild, if_pos (by omega)] at hset
  obtain rfl := Option.some.inj hset
  have hsame : ∀ k, k ≠ i → Function.update d.child b (Function.update (d.child b) i none) b k =
      d.child b k := fun k hk => by
    rw [Function.update_self, Function.update_of_ne hk]
  refine ⟨fun k hk => ?_, fun j hj => ?_, fun _ => ?_, Nat.le_succ_of_le hle, by omega⟩
  · exact (hsame k (by omega)).trans (h.starts k hk)
  · refine (hsame (i + 1 + j) (by omega)).trans ?_
    rw [Nat.add_assoc, Nat.add_comm 1 j, h.rest (j + 1) (Nat.succ_le_succ hj),
      List.getElem?_cons_succ]
  · by_cases heq : keep.length = i
    · show Function.update d.child b (Function.update (d.child b) i none) b keep.length = none
      rw [heq, Function.update_self, Function.update_self]
    · exact (hsame _ heq).trans (h.null (by omega))

theorem setChild_else {i : Nat} {v : Option Nat} (h : d.setChild b i v = some d') :
    d' = { d with child := d'.child } ∧ ∀ p ≠ b, d'.child p = d.child p := by
  rw [TreeData.setChild] at h
  split_ifs at h
  obtain rfl := Option.some.inj h
  exact ⟨rfl, fun p hp => Function.update_of_ne hp ..⟩

/-- All conjuncts get the modifier. -/
theorem giveConjuncts_spec (hts : ts.Nodup) (hb : b ∉ ts)
    (hfilter : l.filter (fun q => kind q = .normal) = ts) (hlen : l.length < PARA_PART_MAX)
    (hl : NullArray.Reads (d.child b) l) (hkind : d.paraType = kind) (hended : Ended d)
    (hroom : ∀ p ∈ ts, ∃ l, NullArray.Reads (d.child p) l ∧ l.length + 1 < PARA_PART_MAX) :
    ∃ d', giveConjuncts b c PARA_PART_MAX 0 d = some d' ∧ d'.child b = d.child b ∧
      Copied [] (linksTo c ts) d d' ∧ Ended d' := by
  have hkids : ∀ p ∈ ts, kidsOf (linksTo c ts) p = [c] := fun p hp => by
    rw [kidsOf_linksTo, List.count_eq_one_of_mem hts hp]
    rfl
  have hgive : giveConjuncts b c PARA_PART_MAX 0 d =
      ts.foldlM (fun d q => tAddNode q c none d) d := by
    rw [giveConjuncts_eq hlen (fun q hq hnormal heq => ?_) PARA_PART_MAX 0 (Nat.zero_add _)
      (Nat.zero_le _) hkind hl, List.drop_zero, hfilter]
    rw [← hfilter] at hb
    exact hb (List.mem_filter.mpr ⟨heq ▸ hq, decide_eq_true (heq ▸ hnormal)⟩)
  have hfits : HasRoom (linksTo c ts) d := fun p hp => by
    obtain ⟨_, hmem, rfl⟩ := List.mem_map.mp hp
    obtain ⟨t, ht, rfl⟩ := List.mem_map.mp hmem
    obtain ⟨l, hl, hlen⟩ := hroom t ht
    refine ⟨l, hl, ?_⟩
    rw [hkids t ht, List.length_append, List.length_singleton]
    exact hlen
  obtain ⟨hrun, hlinks⟩ := addAll_spec (c := c) ts hended
  obtain ⟨d', hd'⟩ := hrun.mpr hfits
  exact ⟨d', hgive.trans hd', addAll_other hb hd', hlinks d' hd',
    (hlinks d' hd').ended hended hfits⟩

/-- The modifiers that are left go to the conjuncts. -/
theorem moveModifiers_rest (hts : ts.Nodup) (hb : b ∉ ts)
    (hconj : keep.filter (fun q => kind q = .normal) = ts) :
    ∀ (ms : List Nat) {fuel i : Nat} {d : TreeData}, ms.length < fuel →
      (∀ c ∈ ms, kind c = .nil ∧ renyou c = false) → AtModifier b i keep ms d →
      d.paraType = kind → Ended d →
      (∀ p ∈ ts, ∃ l, NullArray.Reads (d.child p) l ∧ l.length + ms.length < PARA_PART_MAX) →
      ∃ d', moveModifiers renyou b fuel i d = some d' ∧
        d' = { d with child := d'.child, toParaP := d'.toParaP } ∧
        NullArray.Reads (d'.child b) keep ∧
        ∀ p ≠ b, ∀ l, NullArray.Reads (d.child p) l →
          NullArray.Reads (d'.child p) (l ++ if p ∈ ts then ms else [])
  | _, 0, _, _, hfuel, _, _, _, _, _ => absurd hfuel (Nat.not_lt_zero _)
  | [], fuel + 1, i, d, _, _, hat, _, _, _ => by
      have hnull : d.child b i = none := hat.rest 0 le_rfl
      refine ⟨d, by rw [moveModifiers, hnull], rfl, hat.done, fun p _ l hl => ?_⟩
      rw [ite_self, List.append_nil]
      exact hl
  | c :: ms, fuel + 1, i, d, hfuel, hms, hat, hkind, hended, hroom => by
      obtain ⟨hnil, hrenyou⟩ := hms c List.mem_cons_self
      have hentry : d.child b i = some c := hat.rest 0 (Nat.zero_le _)
      have hmod : isModifier renyou d c = true := by simp [isModifier, hkind, hnil, hrenyou]
      obtain ⟨tail, htail, hlen, hreads⟩ := hat.reads
      have hfilter : (keep ++ tail).filter (fun q => kind q = .normal) = ts := by
        have hnone : tail.filter (fun q => kind q = .normal) = [] := by
          rw [List.filter_eq_nil_iff]
          intro q hq
          simp [(hms q (htail q hq)).1]
        rw [List.filter_append, hconj, hnone, List.append_nil]
      obtain ⟨d₁, hgive, hown, hcopied, hended₁⟩ := giveConjuncts_spec (c := c)
        (d := { d with toParaP := Function.update d.toParaP c true }) hts hb hfilter hlen hreads hkind
        hended fun p hp => by
          obtain ⟨l, hl, hlen⟩ := hroom p hp
          rw [List.length_cons] at hlen
          exact ⟨l, hl, by omega⟩
      have hi : i < PARA_PART_MAX := Nat.lt_of_le_of_lt (Nat.le_add_right _ _) hat.lt
      obtain ⟨d₂, hset⟩ : ∃ d₂, d₁.setChild b i none = some d₂ := ⟨_, if_pos hi⟩
      obtain ⟨helse₂, hother⟩ := setChild_else hset
      have hat₁ : AtModifier b i keep (c :: ms) d₁ := by
        refine ⟨?_, ?_, ?_, hat.le, hat.lt⟩ <;> rw [hown]
        exacts [hat.starts, hat.rest, hat.null]
      have hnext := hat₁.next hset
      have hkids : ∀ p, kidsOf (linksTo c ts) p = if p ∈ ts then [c] else [] := fun p => by
        rw [kidsOf_linksTo, hts.count]
        split_ifs <;> rfl
      obtain ⟨d', hrun, helse, hkeep, hrest⟩ := moveModifiers_rest hts hb hconj ms
        (Nat.lt_of_succ_lt_succ hfuel) (fun q hq => hms q (List.mem_cons_of_mem c hq)) hnext
        (by
          rw [helse₂, hcopied.else_eq]
          exact hkind)
        (fun p => by
          by_cases hp : p = b
          · obtain ⟨tail, -, hlen, hreads⟩ := hnext.reads
            exact ⟨keep ++ tail, hlen, hp ▸ hreads⟩
          · obtain ⟨l, hlen, hl⟩ := hended₁ p
            exact ⟨l, hlen, by rwa [hother p hp]⟩)
        fun p hp => by
          obtain ⟨l, hl, hlen⟩ := hroom p hp
          refine ⟨l ++ [c], ?_, ?_⟩
          · have hread := hcopied.reads p l hl
            rw [hkids, if_pos hp] at hread
            rwa [hother p fun hpb => hb (hpb ▸ hp)]
          · rw [List.length_append, List.length_singleton]
            rw [List.length_cons] at hlen
            omega
      refine ⟨d', ?_, ?_, hkeep, fun p hp l hl => ?_⟩
      · rw [moveModifiers, hentry]
        simp only [hmod, if_true]
        rw [hgive, Option.bind_some, hset, Option.bind_some]
        exact hrun
      · rw [helse, helse₂, hcopied.else_eq]
      · have hread := hcopied.reads p l hl
        rw [hkids] at hread
        have hlast := hrest p hp _ ((hother p hp).symm ▸ hread)
        rw [List.append_assoc] at hlast
        convert hlast using 2
        split_ifs <;> rfl

/-- The children that stay are passed over. -/
theorem moveModifiers_pass (hstay : ∀ c ∈ keep, isModifier renyou d c = false)
    (hstarts : NullArray.Starts (d.child b) keep) (fuel : Nat) : ∀ (k i : Nat),
    i + k = keep.length →
      moveModifiers renyou b (k + fuel) i d = moveModifiers renyou b fuel keep.length d
  | 0, i, hi => by
      obtain rfl : i = keep.length := hi
      rw [Nat.zero_add]
  | k + 1, i, hi => by
      have hlt : i < keep.length := by omega
      have hentry : d.child b i = some keep[i] := by
        rw [hstarts i hlt, List.getElem?_eq_getElem hlt]
      rw [← moveModifiers_pass hstay hstarts fuel k (i + 1) (by omega), Nat.add_right_comm,
        moveModifiers, hentry]
      simp only [hstay keep[i] (List.getElem_mem hlt), Bool.false_eq_true, if_false]

/-- A coordination keeps `keep`, and each of its conjuncts gets the modifiers. -/
theorem moveModifiers_spec (hts : ts.Nodup) (hb : b ∉ ts)
    (hconj : keep.filter (fun q => kind q = .normal) = ts)
    (hstay : ∀ c ∈ keep, isModifier renyou d c = false)
    (hms : ∀ c ∈ ms, kind c = .nil ∧ renyou c = false) (hkind : d.paraType = kind)
    (hended : Ended d) (hl : NullArray.Reads (d.child b) (keep ++ ms))
    (hroom : ∀ p ∈ ts, ∃ l, NullArray.Reads (d.child p) l ∧ l.length + ms.length < PARA_PART_MAX) :
    ∃ d', moveModifiers renyou b PARA_PART_MAX 0 d = some d' ∧
      d' = { d with child := d'.child, toParaP := d'.toParaP } ∧
      NullArray.Reads (d'.child b) keep ∧
      ∀ p ≠ b, ∀ l, NullArray.Reads (d.child p) l →
        NullArray.Reads (d'.child p) (l ++ if p ∈ ts then ms else []) := by
  obtain ⟨l', hlen, hl'⟩ := hended b
  rw [hl'.unique hl, List.length_append] at hlen
  have hstarts : NullArray.Starts (d.child b) keep := fun k hk => by
    rw [hl k (by rw [List.length_append]; omega), List.getElem?_append_left hk]
  have hat : AtModifier b keep.length keep ms d :=
    ⟨hstarts, fun j hj => by
      rw [hl _ (by rw [List.length_append]; omega),
        List.getElem?_append_right (Nat.le_add_right _ _), Nat.add_sub_cancel_left],
      fun hlt => absurd hlt (lt_irrefl _), le_rfl, hlen⟩
  have hpass : moveModifiers renyou b (keep.length + (PARA_PART_MAX - keep.length)) 0 d =
      moveModifiers renyou b (PARA_PART_MAX - keep.length) keep.length d :=
    moveModifiers_pass hstay hstarts _ keep.length 0 (Nat.zero_add _)
  rw [Nat.add_sub_cancel' (by omega)] at hpass
  rw [hpass]
  exact moveModifiers_rest hts hb hconj ms (by omega) hms hat hkind hended hroom

end Loops

/-! ## The whole tree -/

/-- `d` is the tree `d₀`, with `held` in the arrays behind the children that stay. -/
structure Stands (renyou : Nat → Bool) (d₀ : TreeData) (held : Nat → List Nat) (d : TreeData) :
    Prop where
  else_eq : d = { d₀ with child := d.child, toParaP := d.toParaP }
  reads : ∀ p, NullArray.Reads (d.child p) ((expandPlan renyou d₀).kids held p)

section Tree

variable {renyou : Nat → Bool} {d₀ d d' : TreeData} {root n b : Nat} {held : Nat → List Nat}
  {rank : Nat → Nat}

/-- There is room for what is held at any time. -/
theorem Expandable.fits (h : Expandable renyou d₀ root n)
    (hinv : (expandPlan renyou d₀).Inv root held) (p : Nat) :
    ((expandPlan renyou d₀).kids held p).length < PARA_PART_MAX := by
  rw [HandOver.kids, List.length_append]
  exact h.room p (held p) (hinv.nodup p) (hinv.source p)

theorem mem_gives {q c : Nat} : c ∈ (expandPlan renyou d₀).gives q ↔
    d₀.paraTopP q ∧ c ∈ d₀.children q ∧ isModifier renyou d₀ c := by
  unfold expandPlan
  dsimp only
  split_ifs with htop
  · simp [htop]
  · simp [htop]

theorem isModifier_iff {c : Nat} :
    isModifier renyou d c ↔ d.paraType c = .nil ∧ renyou c = false := by
  simp [isModifier]

/-- The first loop of `para_modifier_expand` hands over. -/
theorem visit_stands (h : Expandable renyou d₀ root n)
    (hrank : (expandPlan renyou d₀).Ranked root rank)
    (hb : Reach ((expandPlan renyou d₀).kids (expandPlan renyou d₀).gives) root b)
    (hinv : (expandPlan renyou d₀).Inv root held) (hd : Stands renyou d₀ held d) :
    ∃ d', (if d.paraTopP b then moveModifiers renyou b PARA_PART_MAX 0 d else some d) = some d' ∧
      Stands renyou d₀ (if (expandPlan renyou d₀).group b then
        (expandPlan renyou d₀).handOver b held else held) d' := by
  have htop : d.paraTopP = (expandPlan renyou d₀).group := by
    rw [hd.else_eq]
    rfl
  rw [htop]
  by_cases hgroup : (expandPlan renyou d₀).group b
  · rw [if_pos hgroup, if_pos hgroup]
    have htopb : d₀.paraTopP b = true := hgroup
    have hkeep : (expandPlan renyou d₀).keep b =
        (d₀.children b).filter fun c => !isModifier renyou d₀ c := if_pos htopb
    have htakers : (expandPlan renyou d₀).takers b =
        (d₀.children b).filter fun c => d₀.paraType c = .normal := if_pos htopb
    have hkind : d.paraType = d₀.paraType := by rw [hd.else_eq]
    have hinv' := hrank.inv_handOver hinv hb hgroup
    have hended : Ended d := fun p => ⟨_, h.fits hinv p, hd.reads p⟩
    have hself : b ∉ (expandPlan renyou d₀).takers b := fun hmem => hrank.taker_ne hb hmem rfl
    have hne : ∀ p ∈ (expandPlan renyou d₀).takers b, p ≠ b := fun p hp => hrank.taker_ne hb hp
    have hnodup : ((expandPlan renyou d₀).takers b).Nodup := by
      rw [htakers]
      exact (h.tree.nodup b).filter _
    have hconj : ((expandPlan renyou d₀).keep b).filter (fun q => d₀.paraType q = .normal) =
        (expandPlan renyou d₀).takers b := by
      rw [hkeep, htakers, List.filter_filter]
      refine List.filter_congr fun c _ => ?_
      by_cases hnormal : d₀.paraType c = .normal <;> simp [isModifier, hnormal]
    have hstay : ∀ c ∈ (expandPlan renyou d₀).keep b, isModifier renyou d c = false := by
      intro c hc
      rw [hkeep, List.mem_filter] at hc
      have hsame : isModifier renyou d c = isModifier renyou d₀ c := by
        rw [isModifier, isModifier, hkind]
      rw [hsame]
      simpa using hc.2
    have hgiven : ∀ c ∈ held b, d₀.paraType c = .nil ∧ renyou c = false := by
      intro c hc
      obtain ⟨q, -, hq⟩ := hinv.source b c hc
      exact isModifier_iff.mp (mem_gives.mp hq).2.2
    obtain ⟨d', hrun, helse, hown, hother⟩ := moveModifiers_spec hnodup hself hconj hstay hgiven
      hkind hended (hd.reads b) fun p hp => by
        refine ⟨_, hd.reads p, ?_⟩
        have hfit := h.fits hinv' p
        rw [HandOver.kids, HandOver.handOver_taker (hne p hp) hp, ← List.append_assoc,
          List.length_append] at hfit
        exact hfit
    refine ⟨d', hrun, ?_, fun p => ?_⟩
    · rw [helse, hd.else_eq]
    · by_cases hpb : p = b
      · rw [hpb, HandOver.kids, HandOver.handOver_self, List.append_nil]
        exact hown
      · have hread := hother p hpb _ (hd.reads p)
        by_cases hp : p ∈ (expandPlan renyou d₀).takers b
        · rw [HandOver.kids, HandOver.handOver_taker hpb hp, ← List.append_assoc]
          rwa [if_pos hp] at hread
        · rw [HandOver.kids, HandOver.handOver_other hpb hp]
          rwa [if_neg hp, List.append_nil] at hread
  · rw [if_neg hgroup, if_neg hgroup]
    exact ⟨d, rfl, hd⟩

/-- The last loop: each child in turn, while the children of `b` stay. -/
theorem eachChild_stands {run : Nat → TreeData → Option TreeData}
    (body : (Nat → List Nat) → Nat → Nat → List Nat) {l : List Nat}
    (hlen : l.length < PARA_PART_MAX)
    (hbody : ∀ c ∈ l, ∀ held d, (expandPlan renyou d₀).Inv root held → Stands renyou d₀ held d →
      ∃ d', run c d = some d' ∧ Stands renyou d₀ (body held c) d' ∧
        (expandPlan renyou d₀).Inv root (body held c) ∧ body held c b = held b) :
    ∀ (fuel i : Nat) {held : Nat → List Nat} {d : TreeData}, i + fuel = PARA_PART_MAX →
      i ≤ l.length → (expandPlan renyou d₀).kids held b = l →
      (expandPlan renyou d₀).Inv root held → Stands renyou d₀ held d →
      ∃ d', eachChild run b fuel i d = some d' ∧
        Stands renyou d₀ ((l.drop i).foldl body held) d'
  | 0, i, _, _, hfuel, hi, _, _, _ => by omega
  | fuel + 1, i, held, d, hfuel, hi, hl, hinv, hd => by
      have hreads := hd.reads b
      rw [hl] at hreads
      rw [eachChild]
      rcases Nat.lt_or_eq_of_le hi with hlt | rfl
      · obtain ⟨d₁, hrun, hd₁, hinv₁, hsame⟩ := hbody l[i] (List.getElem_mem hlt) held d hinv hd
        rw [hreads.entry hlt, List.drop_eq_getElem_cons hlt, List.foldl_cons]
        dsimp only
        rw [hrun, Option.bind_some]
        refine eachChild_stands body hlen hbody fuel (i + 1) (by omega) hlt ?_ hinv₁ hd₁
        exact (congrArg ((expandPlan renyou d₀).keep b ++ ·) hsame).trans hl
      · rw [hreads.null, List.drop_length]
        exact ⟨d, rfl, hd⟩

/-- The code does what the plan says. -/
theorem paraModifierExpand_stands (h : Expandable renyou d₀ root n)
    (hrank : (expandPlan renyou d₀).Ranked root rank) : ∀ (depth : Nat) {b : Nat}
    {held : Nat → List Nat} {d : TreeData}, rank b < depth →
      Reach ((expandPlan renyou d₀).kids (expandPlan renyou d₀).gives) root b →
      (expandPlan renyou d₀).Inv root held → Stands renyou d₀ held d →
      ∃ d', paraModifierExpand renyou depth b d = some d' ∧
        Stands renyou d₀ ((expandPlan renyou d₀).expand depth b held) d'
  | 0, _, _, _, hdepth, _, _, _ => absurd hdepth (Nat.not_lt_zero _)
  | depth + 1, b, held, d, hdepth, hb, hinv, hd => by
      obtain ⟨d₁, hvisit, hd₁⟩ := visit_stands h hrank hb hinv hd
      have hinv₁ := (HandOver.visit_steps rank held hb).inv hrank hinv
      rw [paraModifierExpand, hvisit, Option.bind_some, HandOver.expand]
      revert hd₁ hinv₁
      generalize (if (expandPlan renyou d₀).group b then (expandPlan renyou d₀).handOver b held
        else held) = held₁
      intro hd₁ hinv₁
      have hbody : ∀ c ∈ (expandPlan renyou d₀).kids held₁ b, ∀ held d,
          (expandPlan renyou d₀).Inv root held → Stands renyou d₀ held d →
          ∃ d', paraModifierExpand renyou depth c d = some d' ∧
            Stands renyou d₀ ((expandPlan renyou d₀).expand depth c held) d' ∧
            (expandPlan renyou d₀).Inv root ((expandPlan renyou d₀).expand depth c held) ∧
            (expandPlan renyou d₀).expand depth c held b = held b := by
        intro c hc held d hinv hd
        have hlow := hrank.kids_rank hinv₁ hb hc
        have hreach := hrank.kids_reach hinv₁ hb hc
        obtain ⟨d', hrun, hd'⟩ := paraModifierExpand_stands h hrank depth (by omega) hreach hinv hd
        have hsteps := HandOver.expand_steps hrank depth (by omega) hreach hinv
        exact ⟨d', hrun, hd', hsteps.inv hrank hinv, hsteps.frame hrank hlow⟩
      obtain ⟨d', hrun, hd'⟩ := eachChild_stands
        (fun held c => (expandPlan renyou d₀).expand depth c held) (h.fits hinv₁ b) hbody
        PARA_PART_MAX 0 (Nat.zero_add _) (Nat.zero_le _) rfl hinv₁ hd₁
      exact ⟨d', hrun, hd'⟩

/-- `para_modifier_expand` loses nothing: the same nodes are reached, those that
are not moved and not below a moved one still by one walk. A moved modifier
stands once at each conjunct below its coordination that is no coordination. -/
theorem paraModifierExpand_keeps (h : Expandable renyou d root n) :
    ∃ d', paraModifierExpand renyou n root d = some d' ∧
      d' = { d with child := d'.child, toParaP := d'.toParaP } ∧
      (∀ x, Reach d'.children root x ↔ Reach d.children root x) ∧
      (∀ w x, follow d.children root w = some x →
        (∀ u v y, w = u ++ v → follow d.children root u = some y →
          ∀ q, y ∉ (expandPlan renyou d).gives q) →
        follow d'.children root w = some x ∧
          ∀ w', follow d'.children root w' = some x → w' = w) ∧
      ∀ p, Reach d.children root p → ∃ given, given.Nodup ∧
        d'.children p = (expandPlan renyou d).keep p ++ given ∧
        ∀ x, x ∈ given ↔ ¬ d.paraTopP p ∧
          ∃ q, (expandPlan renyou d).Down q p ∧ x ∈ (expandPlan renyou d).gives q := by
  obtain ⟨rank, hrank, hroot⟩ := h.exists_rank
  have hstart : Stands renyou d (expandPlan renyou d).gives d :=
    ⟨rfl, fun p => by
      rw [h.kids_eq]
      exact (h.ended.reads p).1⟩
  have hinv := (HandOver.expand_steps hrank n hroot .refl hrank.inv_start).inv hrank hrank.inv_start
  obtain ⟨d', hrun, hd'⟩ :=
    paraModifierExpand_stands h hrank n hroot .refl hrank.inv_start hstart
  have hchildren : d'.children = (expandPlan renyou d).kids
      ((expandPlan renyou d).expand n root (expandPlan renyou d).gives) :=
    funext fun p => (hd'.reads p).entries_eq (h.fits hinv p)
  have hsettled := HandOver.expand_settled hrank hroot
  refine ⟨d', hrun, hd'.else_eq, fun x => ?_, fun w x hw hstay => ?_, fun p hp => ?_⟩
  · rw [hchildren, hrank.reach_held hinv, h.kids_eq]
  · rw [hchildren]
    rw [← h.kids_eq] at hw hstay
    exact hinv.walk_unique hrank hw hstay
  · rw [hchildren]
    rw [← h.kids_eq] at hp
    exact ⟨_, hsettled.nodup p, rfl, fun x => hsettled.mem_held p x hp⟩

end Tree

/-! ## One coordination -/

/-- The coordination 2 with the conjuncts 3 and 1, and the modifier 0. -/
def sharedTree : TreeData :=
  { treeOf [[], [], [3, 1, 0], []] with
    paraTopP := fun p => p = 2
    paraType := fun p => if p = 1 ∨ p = 3 then .normal else .nil }

theorem sharedTree_ended : Ended sharedTree := by
  have h : Ended (treeOf [[], [], [3, 1, 0], []]) := treeOf_ended (by decide)
  exact h

theorem sharedTree_children : sharedTree.children = fun p => [[], [], [3, 1, 0], []].getD p [] :=
  funext fun p => (sharedTree_ended.reads p).1.unique (treeOf_reads [[], [], [3, 1, 0], []] p)

theorem mem_sharedTree {p x : Nat} (h : x ∈ sharedTree.children p) :
    p = 2 ∧ (x = 3 ∨ x = 1 ∨ x = 0) := by
  rw [sharedTree_children] at h
  rcases p with _ | _ | _ | _ | p
  · cases h
  · cases h
  · simpa using h
  · cases h
  · cases h

theorem sharedTree_expandable : Expandable (fun _ => false) sharedTree 2 4 where
  ended := sharedTree_ended
  tree := by
    refine ⟨fun p => ?_, fun p q x hp hq => ?_, fun p hp => ?_⟩
    · rw [sharedTree_children]
      rcases p with _ | _ | _ | _ | p
      · decide
      · decide
      · decide
      · decide
      · exact List.nodup_nil
    · rw [(mem_sharedTree hp).1, (mem_sharedTree hq).1]
    · have := (mem_sharedTree hp).2
      omega
  below x hx := by
    rcases Relation.ReflTransGen.cases_tail hx with rfl | ⟨p, -, hp⟩
    · decide
    · have := (mem_sharedTree hp).2
      omega
  conjunct q hq := by
    obtain rfl : q = 2 := of_decide_eq_true hq
    refine ⟨3, ?_, rfl⟩
    rw [sharedTree_children]
    decide
  behind q hq := by
    obtain rfl : q = 2 := of_decide_eq_true hq
    rfl
  room p l hnodup hl := by
    have hzero : l ⊆ [0] := fun x hx => by
      obtain ⟨q, -, hq⟩ := hl x hx
      obtain ⟨-, hmem, hmod⟩ := mem_gives.mp hq
      have hnil := (isModifier_iff.mp hmod).1
      rcases (mem_sharedTree hmem).2 with rfl | rfl | rfl
      · cases hnil
      · cases hnil
      · exact List.mem_singleton.mpr rfl
    have hone : l.length ≤ 1 := (List.subperm_of_subset hnodup hzero).length_le
    have hkeep : ((expandPlan (fun _ => false) sharedTree).keep p).length ≤ 3 := by
      have hlen : (sharedTree.children p).length ≤ 3 := by
        rw [sharedTree_children]
        rcases p with _ | _ | _ | _ | p
        · decide
        · decide
        · decide
        · decide
        · exact Nat.zero_le 3
      unfold expandPlan
      dsimp only
      split_ifs
      · exact (List.length_filter_le _ _).trans hlen
      · exact hlen
    have hmax : 4 < PARA_PART_MAX := by decide
    omega

theorem sharedTree_keeps : ∃ d', paraModifierExpand (fun _ => false) 4 2 sharedTree = some d' ∧
    ∀ x, Reach d'.children 2 x ↔ Reach sharedTree.children 2 x := by
  obtain ⟨d', hrun, -, hreach, -⟩ := paraModifierExpand_keeps sharedTree_expandable
  exact ⟨d', hrun, hreach⟩

/-- The modifier is reached through both conjuncts. -/
theorem shared_reached_twice : ∃ d', paraModifierExpand (fun _ => false) 4 2 sharedTree = some d' ∧
    ¬ ∀ x, Reach sharedTree.children 2 x → ∃! w, follow d'.children 2 w = some x := by
  have hrun : ((paraModifierExpand (fun _ => false) 4 2 sharedTree).map fun d =>
      (follow d.children 2 [0, 0], follow d.children 2 [1, 0])) = some (some 0, some 0) := rfl
  obtain ⟨d', hd', hwalks⟩ := Option.map_eq_some_iff.mp hrun
  obtain ⟨hfirst, hsecond⟩ := Prod.mk.inj hwalks
  refine ⟨d', hd', fun hall => ?_⟩
  have hreach : Reach sharedTree.children 2 0 := .single (by rw [sharedTree_children]; decide)
  have hsame := (hall 0 hreach).unique hfirst hsecond
  cases hsame

end Knp
