import Knp.TreeExpand

/-!
# Links of a tree

A run that only attaches children behind the ones that are there is given by its
links, each a child and its parent, in their order.

> The run succeeds exactly as long as the child arrays have room. Then each
> array is longer by the children that the links give to it, and each child
> points to its parent.
-/

namespace Knp

/-- The children that the links give to `p`. -/
def kidsOf (links : List (Nat × Nat)) (p : Nat) : List Nat :=
  (links.filter fun e => e.2 = p).map Prod.fst

/-- What the links make of the tree. -/
structure Attached (links : List (Nat × Nat)) (d d' : TreeData) : Prop where
  num_eq : d'.num = d.num
  reads : ∀ p l, NullArray.Reads (d.child p) l →
    NullArray.Reads (d'.child p) (l ++ kidsOf links p)
  parent_of_mem : (links.map Prod.fst).Nodup → ∀ c p, (c, p) ∈ links → d'.parent c = some p
  parent_keep : ∀ x, x ∉ links.map Prod.fst → d'.parent x = d.parent x

/-- The arrays that get children have room for them. -/
def HasRoom (links : List (Nat × Nat)) (d : TreeData) : Prop :=
  ∀ p ∈ links.map Prod.snd, ∃ l, NullArray.Reads (d.child p) l ∧
    (l ++ kidsOf links p).length < PARA_PART_MAX

/-- From a tree with the numbers `num`, the run makes the links. -/
structure Attaches (num : Nat → Int) (run : TreeData → Option TreeData)
    (links : List (Nat × Nat)) : Prop where
  sound : ∀ d d', d.num = num → run d = some d' → Attached links d d'
  total : ∀ d, d.num = num → HasRoom links d → ∃ d', run d = some d'

section Links

variable {links links' : List (Nat × Nat)} {d d₁ d' : TreeData} {c p x : Nat}

@[simp] theorem kidsOf_nil : kidsOf [] p = [] := rfl

theorem kidsOf_append : kidsOf (links ++ links') p = kidsOf links p ++ kidsOf links' p := by
  simp [kidsOf]

theorem mem_kidsOf : c ∈ kidsOf links p ↔ (c, p) ∈ links := by
  simp [kidsOf]

theorem kidsOf_nodup (h : (links.map Prod.fst).Nodup) : (kidsOf links p).Nodup :=
  h.sublist (List.filter_sublist.map Prod.fst)

theorem Attached.refl : Attached [] d d where
  num_eq := rfl
  reads p l h := by simpa using h
  parent_of_mem _ c p h := by cases h
  parent_keep _ _ := rfl

theorem Attached.trans (h : Attached links d d₁) (h' : Attached links' d₁ d') :
    Attached (links ++ links') d d' where
  num_eq := h'.num_eq.trans h.num_eq
  reads p l hl := by
    rw [kidsOf_append, ← List.append_assoc]
    exact h'.reads p _ (h.reads p l hl)
  parent_of_mem hnodup c p hmem := by
    rw [List.map_append, List.nodup_append'] at hnodup
    obtain ⟨hnodup₁, hnodup₂, hapart⟩ := hnodup
    rcases List.mem_append.mp hmem with hleft | hright
    · rw [h'.parent_keep c fun hc => hapart (List.mem_map.mpr ⟨(c, p), hleft, rfl⟩) hc]
      exact h.parent_of_mem hnodup₁ c p hleft
    · exact h'.parent_of_mem hnodup₂ c p hright
  parent_keep x hx := by
    rw [List.map_append, List.mem_append, not_or] at hx
    rw [h'.parent_keep x hx.2, h.parent_keep x hx.1]

/-- The room for the links behind the first ones. -/
theorem HasRoom.behind (hroom : HasRoom (links ++ links') d) (h : Attached links d d₁) :
    HasRoom links' d₁ := by
  intro p hp
  obtain ⟨l, hl, hlen⟩ := hroom p (by rw [List.map_append]; exact List.mem_append_right _ hp)
  refine ⟨l ++ kidsOf links p, h.reads p l hl, ?_⟩
  rwa [kidsOf_append, ← List.append_assoc] at hlen

theorem HasRoom.front (hroom : HasRoom (links ++ links') d) : HasRoom links d := by
  intro p hp
  obtain ⟨l, hl, hlen⟩ := hroom p (by rw [List.map_append]; exact List.mem_append_left _ hp)
  refine ⟨l, hl, ?_⟩
  rw [kidsOf_append] at hlen
  simp only [List.length_append] at hlen ⊢
  omega

/-- A child stands in one array, and in it once. -/
theorem Attached.isChild (h : Attached links d d') (hnodup : (links.map Prod.fst).Nodup)
    (hstart : NullArray.Reads (d.child p) []) (hlen : (kidsOf links p).length < PARA_PART_MAX)
    (hmem : (c, p) ∈ links) : IsChild d' p c :=
  ⟨kidsOf links p, hlen, h.reads p [] hstart,
    List.count_eq_one_of_mem (kidsOf_nodup hnodup) (mem_kidsOf.mpr hmem)⟩

end Links

/-! ## Runs -/

section Runs

variable {num : Nat → Int} {run run' : TreeData → Option TreeData}
  {links links' : List (Nat × Nat)}

namespace Attaches

theorem congr (h : ∀ d, d.num = num → run d = run' d) (h' : Attaches num run' links) :
    Attaches num run links where
  sound d d' hd hrun := h'.sound d d' hd (h d hd ▸ hrun)
  total d hd hroom := by
    rw [h d hd]
    exact h'.total d hd hroom

/-- What changes neither numbers nor links. -/
theorem keep {change : TreeData → TreeData} (hnum : ∀ d, (change d).num = d.num)
    (hchild : ∀ d, (change d).child = d.child) (hparent : ∀ d, (change d).parent = d.parent) :
    Attaches num (fun d => some (change d)) [] where
  sound d d' _ hrun := by
    obtain rfl := Option.some.inj hrun
    refine ⟨hnum d, fun p l hl => ?_, fun _ c p hmem => absurd hmem List.not_mem_nil,
      fun x _ => by rw [hparent]⟩
    rw [hchild, kidsOf_nil, List.append_nil]
    exact hl
  total d _ _ := ⟨change d, rfl⟩

theorem skip : Attaches num some [] := keep (fun _ => rfl) (fun _ => rfl) fun _ => rfl

theorem bind (h : Attaches num run links) (h' : Attaches num run' links') :
    Attaches num (fun d => (run d).bind run') (links ++ links') where
  sound d d' hd hrun := by
    obtain ⟨d₁, hfirst, hsecond⟩ := Option.bind_eq_some_iff.mp hrun
    have hatt := h.sound d d₁ hd hfirst
    exact hatt.trans (h'.sound d₁ d' (hatt.num_eq.trans hd) hsecond)
  total d hd hroom := by
    obtain ⟨d₁, hfirst⟩ := h.total d hd hroom.front
    have hatt := h.sound d d₁ hd hfirst
    obtain ⟨d', hsecond⟩ := h'.total d₁ (hatt.num_eq.trans hd) (hroom.behind hatt)
    exact ⟨d', Option.bind_eq_some_iff.mpr ⟨d₁, hfirst, hsecond⟩⟩

theorem foldlM {α : Type*} {turn : TreeData → α → Option TreeData}
    {linksAt : α → List (Nat × Nat)} : ∀ {l : List α},
      (∀ a ∈ l, Attaches num (fun d => turn d a) (linksAt a)) →
      Attaches num (fun d => l.foldlM turn d) (l.flatMap linksAt)
  | [], _ => skip
  | a :: l, h => by
      have hrest := foldlM (l := l) fun b hb => h b (List.mem_cons_of_mem a hb)
      exact (h a List.mem_cons_self).bind hrest

/-- `t_attach_node` fails if there is no room for the NULL. -/
theorem attach (p c : Nat) : Attaches num (tAttachNode p c none) [(c, p)] where
  sound d d' _ hrun := by
    obtain ⟨childNum, hcount, hput⟩ := Option.bind_eq_some_iff.mp hrun
    split_ifs at hput
    obtain rfl := Option.some.inj hput
    refine ⟨rfl, fun q l hl => ?_, fun _ c' p' hmem => ?_, fun x hx => ?_⟩
    · by_cases hqp : q = p
      · subst hqp
        have hlen : childNum = l.length := hl.length_of_count hcount
        have hkids : kidsOf [(c, q)] q = [c] := by simp [kidsOf]
        rw [hkids, hlen]
        simpa using hl.snoc c
      · have hkids : kidsOf [(c, p)] q = [] := by simp [kidsOf, Ne.symm hqp]
        rw [hkids, List.append_nil]
        simpa [Function.update_of_ne hqp] using hl
    · obtain ⟨rfl, rfl⟩ := Prod.mk.inj (List.mem_singleton.mp hmem)
      exact Function.update_self ..
    · refine Function.update_of_ne ?_ ..
      simpa using hx
  total d _ hroom := by
    obtain ⟨l, hl, hlen⟩ := hroom p (by simp)
    have hkids : kidsOf [(c, p)] p = [c] := by simp [kidsOf]
    rw [hkids, List.length_append, List.length_singleton] at hlen
    exact ⟨_, tAttachNode_last hl hlen⟩

end Attaches

end Runs

end Knp
