import Knp.Attach
import Knp.Traced

/-!
# Strong coordinations (`tree_conv.c`)

The modifiers of the first conjunct that stand before it modify all conjuncts.
`strong_para_expand` adds each of them to the child arrays of the corresponding
nodes: the coordinations of the manager give the node that corresponds to a node
of the conjunct before.

> The manager lists its coordinations, but the code takes them as they stand in
> `para_data`, from the first one on. It copies right exactly where these
> lead to the same nodes, and the child arrays have room.
-/

namespace Knp

/-- `TreeEnv` with the coordinations. -/
structure StrongEnv extends TreeEnv where
  paraData : Nat → ParaData
  /-- `max_path` of each coordination -/
  maxPath : Nat → Nat → Nat

/-- A modifier of node `b` that manager `m` copies, and the tree before. -/
structure Copy where
  m : Nat
  b : Nat
  child : Nat
  tree : TreeData

/-- `strong_corr_node` -/
def strongCorrNode (env : StrongEnv) (p b : Nat) : Option Nat :=
  let data := env.paraData p
  ((List.range (data.jendPos - data.keyPos)).reverse.find? fun i => env.maxPath p i = b).map
    fun i => data.keyPos + i + 1

/-- One turn of the loop over `pp_ptr`, with `bb_ptr`. -/
def copyTurn (env : StrongEnv) (c : Nat) (s : Option Nat × TreeData) (p : Nat) :
    Option (Option Nat × TreeData) :=
  match s.1.bind (strongCorrNode env p) with
  | some bb => (tAddNode bb c none s.2).map fun d => (some bb, d)
  | none => some (none, s.2)

/-- The coordinations that `pp_ptr` runs over. -/
def walkedData (mgr : ParaManager) : List Nat :=
  List.range' (mgr.paraDataNum.headD 0) mgr.paraDataNum.length

/-- The modifier `c` of node `b` is copied. -/
def copyModifier (env : StrongEnv) (mgr : ParaManager) (b c : Nat) (d : TreeData) :
    Option TreeData :=
  ((walkedData mgr).foldlM (copyTurn env c)
    (some b, { d with toParaP := Function.update d.toParaP c true })).map Prod.snd

/-- The loop over the children of node `b`, from `j` on. -/
def copyModifiers (env : StrongEnv) (m b : Nat) : Nat → Nat → Traced TreeData Copy
  | 0, _ => Traced.stuck
  | fuel + 1, j => fun d =>
      match d.child b j with
      | none => Traced.skip d
      | some c =>
          if c < (env.para.manager m).firstStart then
            ((Traced.event (Copy.mk m b c) (copyModifier env (env.para.manager m) b c)).andThen
              (copyModifiers env m b fuel (j + 1))) d
          else copyModifiers env m b fuel (j + 1) d

/-- `p_ptr->status == 's'` -/
def isStrong (env : StrongEnv) (m : Nat) : Prop :=
  (env.paraData ((env.para.manager m).paraDataNum.headD 0)).status = .s

instance (env : StrongEnv) (m : Nat) : Decidable (isStrong env m) :=
  inferInstanceAs (Decidable (_ = _))

/-- The nodes of the first conjunct. -/
def firstConjunct (mgr : ParaManager) : List Nat :=
  List.range' mgr.firstStart (mgr.stop 0 - mgr.firstStart)

/-- `strong_para_expand` for the manager itself. -/
def expandManager (env : StrongEnv) (m : Nat) : Traced TreeData Copy :=
  if isStrong env m then
    Traced.forEach (fun b => copyModifiers env m b PARA_PART_MAX 0)
      (firstConjunct (env.para.manager m))
  else Traced.skip

/-- `strong_para_expand`, with the depth of its recursion. -/
def strongParaExpand (env : StrongEnv) : Nat → Nat → Traced TreeData Copy
  | 0, _ => Traced.stuck
  | depth + 1, m =>
      (Traced.forEach (strongParaExpand env depth) (env.para.manager m).child).andThen
        (expandManager env m)

/-! ## Copies -/

/-- The nodes that correspond to `b`, one for each coordination. -/
def nodesAlong (env : StrongEnv) : List Nat → Nat → List Nat
  | [], _ => []
  | p :: ps, b => match strongCorrNode env p b with
      | some t => t :: nodesAlong env ps t
      | none => []

/-- The links of a child to new heads. -/
def linksTo (c : Nat) (ts : List Nat) : List (Nat × Nat) := ts.map fun t => (c, t)

/-- The links that the coordinations of the manager ask for. -/
def Copy.links (env : StrongEnv) (e : Copy) : List (Nat × Nat) :=
  linksTo e.child (nodesAlong env (env.para.manager e.m).paraDataNum e.b)

/-- The links that are made. -/
def Copy.madeLinks (env : StrongEnv) (e : Copy) : List (Nat × Nat) :=
  linksTo e.child (nodesAlong env (walkedData (env.para.manager e.m)) e.b)

/-- The coordinations that are taken lead to the nodes that the manager's own
ones lead to. -/
def Copy.SameNodes (env : StrongEnv) (e : Copy) : Prop :=
  (nodesAlong env (walkedData (env.para.manager e.m)) e.b).Perm
    (nodesAlong env (env.para.manager e.m).paraDataNum e.b)

/-- A NULL ends each child array. -/
def Ended (d : TreeData) : Prop :=
  ∀ p, ∃ l, l.length < PARA_PART_MAX ∧ NullArray.Reads (d.child p) l

/-- The nodes of `marked` have got `to_para_p`, the links stand behind the
children, and nothing else has changed. -/
structure Copied (marked : List Nat) (links : List (Nat × Nat)) (d d' : TreeData) : Prop where
  else_eq : d' = { d with child := d'.child, toParaP := d'.toParaP }
  toParaP_eq : ∀ x, d'.toParaP x = (d.toParaP x || decide (x ∈ marked))
  reads : ∀ p l, NullArray.Reads (d.child p) l →
    NullArray.Reads (d'.child p) (l ++ kidsOf links p)

section Links

variable {env : StrongEnv} {d d₁ d' : TreeData} {marked marked' : List Nat}
  {links links' : List (Nat × Nat)} {b c p t : Nat} {ts ts' : List Nat}

theorem Copied.refl : Copied [] [] d d where
  else_eq := rfl
  toParaP_eq x := by simp
  reads p l h := by simpa using h

theorem Copied.trans (h : Copied marked links d d₁) (h' : Copied marked' links' d₁ d') :
    Copied (marked ++ marked') (links ++ links') d d' where
  else_eq := h'.else_eq.trans (congrArg
    (fun t : TreeData => { t with child := d'.child, toParaP := d'.toParaP }) h.else_eq)
  toParaP_eq x := by
    rw [h'.toParaP_eq, h.toParaP_eq, Bool.or_assoc]
    simp only [List.mem_append, Bool.decide_or]
  reads p l hl := by
    rw [kidsOf_append, ← List.append_assoc]
    exact h'.reads p _ (h.reads p l hl)

theorem kidsOf_linksTo : kidsOf (linksTo c ts) p = List.replicate (ts.count p) c := by
  induction ts with
  | nil => rfl
  | cons t ts ih =>
      rw [linksTo, List.map_cons, List.count_cons]
      unfold kidsOf at ih ⊢
      by_cases htp : t = p
      · rw [List.filter_cons_of_pos (by simpa using htp), List.map_cons]
        rw [linksTo] at ih
        rw [ih, if_pos (by simpa using htp), List.replicate_succ]
      · rw [List.filter_cons_of_neg (by simpa using htp)]
        rw [linksTo] at ih
        rw [ih, if_neg (by simpa using htp), Nat.add_zero]

/-- Only how often a head occurs matters. -/
theorem kidsOf_linksTo_perm (h : ts.Perm ts') :
    kidsOf (linksTo c ts) p = kidsOf (linksTo c ts') p := by
  rw [kidsOf_linksTo, kidsOf_linksTo, h.count_eq]

theorem HasRoom.perm (h : ts.Perm ts') (hroom : HasRoom (linksTo c ts) d) :
    HasRoom (linksTo c ts') d := by
  intro p hp
  obtain ⟨l, hl, hlen⟩ := hroom p (by
    rw [linksTo, List.map_map] at hp ⊢
    exact (h.map _).mem_iff.mpr hp)
  exact ⟨l, hl, by rwa [← kidsOf_linksTo_perm h]⟩

theorem kidsOf_eq_nil (h : p ∉ links.map Prod.snd) : kidsOf links p = [] := by
  rw [List.eq_nil_iff_forall_not_mem]
  exact fun x hx => h (List.mem_map.mpr ⟨(x, p), mem_kidsOf.mp hx, rfl⟩)

/-- Room for two lists of links, the second one after the first one. -/
theorem hasRoom_append (hended : Ended d) (h : ∀ p l, NullArray.Reads (d.child p) l →
    NullArray.Reads (d₁.child p) (l ++ kidsOf links p)) :
    HasRoom (links ++ links') d ↔ HasRoom links d ∧ HasRoom links' d₁ := by
  constructor
  · refine fun hroom => ⟨hroom.front, fun p hp => ?_⟩
    obtain ⟨l, hl, hlen⟩ := hroom p (by rw [List.map_append]; exact List.mem_append_right _ hp)
    rw [kidsOf_append, ← List.append_assoc] at hlen
    exact ⟨_, h p l hl, hlen⟩
  · rintro ⟨hfirst, hsecond⟩ p hp
    obtain ⟨l, -, hl⟩ := hended p
    refine ⟨l, hl, ?_⟩
    rw [kidsOf_append, ← List.append_assoc]
    by_cases hright : p ∈ links'.map Prod.snd
    · obtain ⟨l', hl', hlen⟩ := hsecond p hright
      rwa [hl'.unique (h p l hl)] at hlen
    · rw [List.map_append, List.mem_append] at hp
      obtain ⟨l', hl', hlen⟩ := hfirst p (hp.resolve_right hright)
      rwa [kidsOf_eq_nil hright, List.append_nil, hl.unique hl']

/-- `t_add_node` at the end. -/
theorem tAddNode_spec (hended : Ended d) : (∃ d', tAddNode p c none d = some d') ↔
    HasRoom (linksTo c [p]) d := by
  obtain ⟨l, hlen, hl⟩ := hended p
  have hkids : kidsOf (linksTo c [p]) p = [c] := by simp [kidsOf_linksTo]
  constructor
  · rintro ⟨d', hrun⟩ q hq
    obtain rfl : q = p := by simpa [linksTo] using hq
    refine ⟨l, hl, ?_⟩
    rw [tAddNode, hl.count_eq hlen, Option.bind_some] at hrun
    split_ifs at hrun with hroom
    rw [hkids]
    simpa using hroom
  · intro hroom
    obtain ⟨l', hl', hroom'⟩ := hroom p (by simp [linksTo])
    rw [hkids, ← hl.unique hl', List.length_append, List.length_singleton] at hroom'
    rw [tAddNode, hl.count_eq hlen, Option.bind_some, if_pos hroom']
    exact ⟨_, rfl⟩

theorem tAddNode_copied (h : tAddNode p c none d = some d') :
    Copied [] (linksTo c [p]) d d' := by
  obtain ⟨childNum, hcount, hput⟩ := Option.bind_eq_some_iff.mp h
  split_ifs at hput
  obtain rfl := Option.some.inj hput
  refine ⟨rfl, fun x => by simp, fun q l hl => ?_⟩
  rw [kidsOf_linksTo]
  by_cases hqp : q = p
  · subst hqp
    have hlen : childNum = l.length := hl.length_of_count hcount
    rw [hlen]
    simpa using hl.snoc c
  · simpa [Function.update_of_ne hqp, List.count_singleton, Ne.symm hqp] using hl

/-- What has been copied still ends with a NULL. -/
theorem Copied.ended (h : Copied marked links d d') (hended : Ended d) (hroom : HasRoom links d) :
    Ended d' := by
  intro p
  obtain ⟨l, hlen, hl⟩ := hended p
  refine ⟨_, ?_, h.reads p l hl⟩
  by_cases hp : p ∈ links.map Prod.snd
  · obtain ⟨l', hl', hlen'⟩ := hroom p hp
    rwa [hl.unique hl']
  · rwa [kidsOf_eq_nil hp, List.append_nil]

/-- The heads that a run of the loop adds the child to. -/
theorem foldlM_copyTurn : ∀ (ps : List Nat) (b : Nat) (d : TreeData),
    (ps.foldlM (copyTurn env c) (some b, d)).map Prod.snd =
      (nodesAlong env ps b).foldlM (fun d t => tAddNode t c none d) d
  | [], _, _ => rfl
  | p :: ps, b, d => by
      rw [List.foldlM_cons, nodesAlong]
      unfold copyTurn
      rw [Option.bind_some]
      cases hnode : strongCorrNode env p b with
      | none =>
          have hnull : ∀ (ps : List Nat) (d : TreeData),
              (ps.foldlM (copyTurn env c) (none, d)).map Prod.snd = some d := by
            intro ps
            induction ps with
            | nil => exact fun d => rfl
            | cons p ps ih => exact fun d => ih d
          exact hnull ps d
      | some t =>
          simp only [List.foldlM_cons]
          cases tAddNode t c none d with
          | none => rfl
          | some d₁ => exact foldlM_copyTurn ps t d₁

theorem addAll_spec : ∀ (ts : List Nat) {d : TreeData}, Ended d →
    ((∃ d', ts.foldlM (fun d t => tAddNode t c none d) d = some d') ↔
      HasRoom (linksTo c ts) d) ∧
    ∀ d', ts.foldlM (fun d t => tAddNode t c none d) d = some d' →
      Copied [] (linksTo c ts) d d'
  | [], d, _ => ⟨⟨fun _ p hp => absurd hp List.not_mem_nil, fun _ => ⟨d, rfl⟩⟩, fun d' h => by
      obtain rfl := Option.some.inj h
      exact .refl⟩
  | t :: ts, d, hended => by
      have hsplit : linksTo c (t :: ts) = linksTo c [t] ++ linksTo c ts := rfl
      rw [List.foldlM_cons, hsplit]
      cases hadd : tAddNode t c none d with
      | none =>
          have hnoroom : ¬ HasRoom (linksTo c [t]) d := fun hroom => by
            obtain ⟨d', hd'⟩ := (tAddNode_spec hended).mpr hroom
            rw [hadd] at hd'
            cases hd'
          refine ⟨⟨fun ⟨d', h⟩ => (by cases h), fun hroom => absurd hroom.front hnoroom⟩, ?_⟩
          exact fun d' h => (by cases h)
      | some d₁ =>
          have hroom := (tAddNode_spec hended).mp ⟨d₁, hadd⟩
          have hcopied := tAddNode_copied hadd
          obtain ⟨hrun, hrest⟩ := addAll_spec ts (hcopied.ended hended hroom)
          refine ⟨?_, fun d' h => hcopied.trans (hrest d' h)⟩
          rw [hasRoom_append hended hcopied.reads, and_iff_right hroom]
          exact hrun

/-- One modifier: the links that are made, if there is room for them. -/
theorem copyModifier_spec (env : StrongEnv) (mgr : ParaManager) (b c : Nat) (hended : Ended d) :
    ((∃ d', copyModifier env mgr b c d = some d') ↔
      HasRoom (linksTo c (nodesAlong env (walkedData mgr) b)) d) ∧
    ∀ d', copyModifier env mgr b c d = some d' →
      Copied [c] (linksTo c (nodesAlong env (walkedData mgr) b)) d d' := by
  have hmark : Copied [c] [] d { d with toParaP := Function.update d.toParaP c true } := by
    refine ⟨rfl, fun x => ?_, fun p l hl => by simpa using hl⟩
    by_cases hx : x = c <;> simp [hx]
  unfold copyModifier
  rw [foldlM_copyTurn]
  obtain ⟨hrun, hlinks⟩ := addAll_spec (c := c) (nodesAlong env (walkedData mgr) b)
    (d := { d with toParaP := Function.update d.toParaP c true }) hended
  exact ⟨hrun, fun d' h => hmark.trans (hlinks d' h)⟩

/-- Links that do the same to the arrays give each head the same number of times. -/
theorem Copied.perm (h : Copied marked (linksTo c ts) d d')
    (h' : Copied marked (linksTo c ts') d d') (hended : Ended d) : ts.Perm ts' := by
  rw [List.perm_iff_count]
  intro p
  obtain ⟨l, -, hl⟩ := hended p
  have hlists := (h.reads p l hl).unique (h'.reads p l hl)
  rw [List.append_cancel_left_eq, kidsOf_linksTo, kidsOf_linksTo] at hlists
  simpa using congrArg List.length hlists

theorem Copied.of_perm (h : Copied marked (linksTo c ts) d d') (hperm : ts.Perm ts') :
    Copied marked (linksTo c ts') d d' :=
  ⟨h.else_eq, h.toParaP_eq, fun p l hl => kidsOf_linksTo_perm hperm ▸ h.reads p l hl⟩

/-- A modifier is copied to the nodes that the manager asks for exactly if the
coordinations that are taken lead there, and there is room. -/
theorem copyModifier_iff {e : Copy} (hended : Ended e.tree) :
    (∃ d', copyModifier env (env.para.manager e.m) e.b e.child e.tree = some d' ∧
      Copied [e.child] (e.links env) e.tree d') ↔
      e.SameNodes env ∧ HasRoom (e.links env) e.tree := by
  obtain ⟨hrun, hlinks⟩ :=
    copyModifier_spec env (env.para.manager e.m) e.b e.child hended
  constructor
  · rintro ⟨d', hd', hcopied⟩
    have hperm : e.SameNodes env := (hlinks d' hd').perm hcopied hended
    exact ⟨hperm, HasRoom.perm hperm (hrun.mp ⟨d', hd'⟩)⟩
  · rintro ⟨hperm, hroom⟩
    obtain ⟨d', hd'⟩ := hrun.mpr (HasRoom.perm hperm.symm hroom)
    exact ⟨d', hd', (hlinks d' hd').of_perm hperm⟩

end Links

/-! ## The whole run -/

/-- A modifier that stands before the first conjunct of a strong coordination. -/
structure Copy.Front (env : StrongEnv) (e : Copy) : Prop where
  strong : isStrong env e.m
  node : e.b ∈ firstConjunct (env.para.manager e.m)
  front : e.child < (env.para.manager e.m).firstStart
  listed : ∃ l, NullArray.Reads (e.tree.child e.b) l ∧ e.child ∈ l
  ended : Ended e.tree

/-- The events of a run for manager `m`. -/
def Copy.Below (env : StrongEnv) (m : Nat) (e : Copy) : Prop :=
  Descends env.para.manager m e.m ∧ e.Front env

/-- There is room for what is made. -/
def Copy.Fits (env : StrongEnv) (e : Copy) : Prop := HasRoom (e.madeLinks env) e.tree

/-- The links of all events are made. -/
def Makes (env : StrongEnv) (es : List Copy) (d d' : TreeData) : Prop :=
  Copied (es.map Copy.child) (es.flatMap (Copy.madeLinks env)) d d'

/-- A run that makes its links, as long as there is room. -/
abbrev Copies (env : StrongEnv) (m : Nat) (run : Traced TreeData Copy) (d : TreeData) : Prop :=
  Traced.Runs Ended (Copy.Below env m) (Copy.Fits env) (Makes env) run d

section Run

variable {env : StrongEnv} {d d' : TreeData} {m b : Nat} {l : List Nat}

theorem makes_composes (env : StrongEnv) : Traced.Composes (Makes env) where
  refl _ := .refl
  trans es es' s s₁ s' h h' := by
    unfold Makes
    rw [List.map_append, List.flatMap_append]
    exact Copied.trans h h'

/-- One modifier. -/
theorem copyModifier_copies {e : Copy} (hbelow : e.Below env m) : Copies env m
    (Traced.event (Copy.mk e.m e.b e.child)
      (copyModifier env (env.para.manager e.m) e.b e.child)) e.tree := by
  obtain ⟨hrun, hlinks⟩ := copyModifier_spec env (env.para.manager e.m) e.b e.child
    hbelow.2.ended
  refine Traced.Runs.event hbelow hrun fun d' hd' => ?_
  have hcopied := hlinks d' hd'
  have hroom := hrun.mp ⟨d', hd'⟩
  refine ⟨(Copied.ended hcopied hbelow.2.ended hroom), ?_⟩
  unfold Makes
  rw [List.flatMap_cons, List.flatMap_nil, List.append_nil]
  exact hcopied

/-! The three cases of the loop over the children. -/

theorem copyModifiers_null {fuel j : Nat} (h : d.child b j = none) :
    copyModifiers env m b (fuel + 1) j d = Traced.skip d := by
  show (match d.child b j with | none => _ | some c => _) = _
  rw [h]

theorem copyModifiers_front {fuel j c : Nat} (h : d.child b j = some c)
    (hfront : c < (env.para.manager m).firstStart) : copyModifiers env m b (fuel + 1) j d =
      (Traced.event (Copy.mk m b c) (copyModifier env (env.para.manager m) b c)).andThen
        (copyModifiers env m b fuel (j + 1)) d := by
  show (match d.child b j with | none => _ | some c => _) = _
  rw [h]
  exact if_pos hfront

theorem copyModifiers_pass {fuel j c : Nat} (h : d.child b j = some c)
    (hfront : ¬ c < (env.para.manager m).firstStart) :
    copyModifiers env m b (fuel + 1) j d = copyModifiers env m b fuel (j + 1) d := by
  show (match d.child b j with | none => _ | some c => _) = _
  rw [h]
  exact if_neg hfront

theorem copyModifiers_copies (hstrong : isStrong env m)
    (hb : b ∈ firstConjunct (env.para.manager m)) : ∀ (fuel j : Nat) {d : TreeData} {l : List Nat},
    j + fuel = PARA_PART_MAX → Ended d → NullArray.Reads (d.child b) l → j ≤ l.length →
    Copies env m (copyModifiers env m b fuel j) d
  | 0, j, d, l, hfuel, hended, hl, hj => by
      obtain ⟨l', hlen, hl'⟩ := hended b
      rw [hl'.unique hl] at hlen
      omega
  | fuel + 1, j, d, l, hfuel, hended, hl, hj => by
      rcases Nat.lt_or_eq_of_le hj with hlt | rfl
      · have hentry := hl.entry hlt
        by_cases hfront : l[j] < (env.para.manager m).firstStart
        · have hbelow : Copy.Below env m ⟨m, b, l[j], d⟩ :=
            ⟨.refl, hstrong, hb, hfront, ⟨l, hl, List.getElem_mem hlt⟩, hended⟩
          have hcopies := (copyModifier_copies hbelow).andThen (makes_composes env)
            (q := copyModifiers env m b fuel (j + 1)) fun d₁ hended₁ hmakes =>
              copyModifiers_copies hstrong hb fuel (j + 1) (by omega) hended₁
                (hmakes.reads b l hl) (by rw [List.length_append]; omega)
          exact hcopies.congr (copyModifiers_front hentry hfront)
        · exact (copyModifiers_copies hstrong hb fuel (j + 1) (by omega) hended hl hlt).congr
            (copyModifiers_pass hentry hfront)
      · exact (Traced.Runs.skip (makes_composes env) hended).congr (copyModifiers_null hl.null)

theorem expandManager_copies (hended : Ended d) : Copies env m (expandManager env m) d := by
  unfold expandManager
  split_ifs with hstrong
  · refine Traced.Runs.forEach (makes_composes env) hended fun b hb d hended => ?_
    obtain ⟨l, -, hl⟩ := hended b
    exact copyModifiers_copies hstrong hb _ 0 (Nat.zero_add _) hended hl (Nat.zero_le _)
  · exact Traced.Runs.skip (makes_composes env) hended

theorem strongParaExpand_copies {height : Nat → Nat}
    (hheight : ∀ a, ∀ c ∈ (env.para.manager a).child, height c < height a) :
    ∀ (depth m : Nat) {d : TreeData}, height m < depth → Ended d →
      Copies env m (strongParaExpand env depth m) d
  | 0, _, _, hdepth, _ => absurd hdepth (Nat.not_lt_zero _)
  | depth + 1, m, d, hdepth, hended => by
      refine Traced.Runs.andThen (makes_composes env)
        (Traced.Runs.forEach (makes_composes env) hended fun c hc d hended => ?_)
        fun d₁ hended₁ _ => expandManager_copies hended₁
      have hlow := hheight m c hc
      exact (strongParaExpand_copies hheight depth c (by omega) hended).mono fun e he =>
        ⟨.head hc he.1, he.2⟩

/-! ## Which modifiers are copied -/

theorem copyModifiers_each : ∀ (fuel j : Nat) {d d' : TreeData} {l : List Nat},
    Ended d → NullArray.Reads (d.child b) l → j ≤ l.length →
    (copyModifiers env m b fuel j d).2 = some d' →
    ∀ c ∈ l.drop j, c < (env.para.manager m).firstStart →
      ∃ e ∈ (copyModifiers env m b fuel j d).1, e.m = m ∧ e.b = b ∧ e.child = c
  | 0, j, d, d', l, _, _, _, hrun, _, _, _ => by cases hrun
  | fuel + 1, j, d, d', l, hended, hl, hj, hrun, c, hc, hcfront => by
      rcases Nat.lt_or_eq_of_le hj with hlt | rfl
      · have hentry := hl.entry hlt
        rw [List.drop_eq_getElem_cons hlt] at hc
        by_cases hfront : l[j] < (env.para.manager m).firstStart
        · rw [copyModifiers_front hentry hfront] at hrun ⊢
          cases hfirst : copyModifier env (env.para.manager m) b l[j] d with
          | none =>
              rw [Traced.andThen_of_none hfirst] at hrun
              cases hrun
          | some d₁ =>
              rw [Traced.andThen_of_some hfirst] at hrun ⊢
              obtain ⟨hroom, hlinks⟩ := copyModifier_spec env (env.para.manager m) b l[j] hended
              have hcopied := hlinks d₁ hfirst
              rcases List.mem_cons.mp hc with rfl | hc
              · exact ⟨_, List.mem_append_left _ (List.mem_singleton.mpr rfl), rfl, rfl, rfl⟩
              · obtain ⟨e, he, heq⟩ := copyModifiers_each fuel (j + 1)
                  (hcopied.ended hended (hroom.mp ⟨d₁, hfirst⟩)) (hcopied.reads b l hl)
                  (by rw [List.length_append]; omega) hrun c
                  (by
                    rw [List.drop_append_of_le_length hlt]
                    exact List.mem_append_left _ hc) hcfront
                exact ⟨e, List.mem_append_right _ he, heq⟩
        · rw [copyModifiers_pass hentry hfront] at hrun ⊢
          refine copyModifiers_each fuel (j + 1) hended hl hlt hrun c ?_ hcfront
          rcases List.mem_cons.mp hc with rfl | hc
          · exact absurd hcfront hfront
          · exact hc
      · rw [List.drop_length] at hc
        cases hc

/-- `m` copies the modifiers of the tree that are due at the manager `m'`. -/
def CopiesOf (env : StrongEnv) (m' : Nat) (d : TreeData) (es : List Copy) : Prop :=
  isStrong env m' → ∀ b ∈ firstConjunct (env.para.manager m'), ∀ l,
    NullArray.Reads (d.child b) l → ∀ c ∈ l, c < (env.para.manager m').firstStart →
      ∃ e ∈ es, e.m = m' ∧ e.b = b ∧ e.child = c

/-- The children of the tree before are still there. -/
theorem CopiesOf.before {es es' : List Copy} {m' : Nat} (h : CopiesOf env m' d' es)
    (hmakes : Makes env es' d d') : CopiesOf env m' d es :=
  fun hstrong b hb l hl c hc =>
    h hstrong b hb _ (hmakes.reads b l hl) c (List.mem_append_left _ hc)

theorem CopiesOf.mono {es es' : List Copy} {m' : Nat} (h : CopiesOf env m' d es)
    (hsub : ∀ e ∈ es, e ∈ es') : CopiesOf env m' d es' :=
  fun hstrong b hb l hl c hc hfront =>
    let ⟨e, he, heq⟩ := h hstrong b hb l hl c hc hfront
    ⟨e, hsub e he, heq⟩

theorem expandManager_each (hended : Ended d) (hrun : (expandManager env m d).2 = some d') :
    CopiesOf env m d (expandManager env m d).1 := by
  intro hstrong b hb l hl c hc hfront
  unfold expandManager at hrun ⊢
  rw [if_pos hstrong] at hrun ⊢
  obtain ⟨es, d₁, d₂, hended₁, hmakes, hturn, hevents⟩ := Traced.forEach_turn
    (makes_composes env) hended (fun b hb d hended => by
      obtain ⟨l, -, hl⟩ := hended b
      exact copyModifiers_copies hstrong hb _ 0 (Nat.zero_add _) hended hl (Nat.zero_le _)) hb hrun
  obtain ⟨e, he, heq⟩ := copyModifiers_each _ 0 hended₁ (hmakes.reads b l hl) (Nat.zero_le _)
    hturn c (List.mem_append_left _ hc) hfront
  exact ⟨e, hevents e he, heq⟩

theorem strongParaExpand_each {height : Nat → Nat}
    (hheight : ∀ a, ∀ c ∈ (env.para.manager a).child, height c < height a) :
    ∀ (depth m : Nat) {d d' : TreeData}, height m < depth → Ended d →
      (strongParaExpand env depth m d).2 = some d' → ∀ m', Descends env.para.manager m m' →
        CopiesOf env m' d (strongParaExpand env depth m d).1
  | 0, _, _, _, hdepth, _, _, _, _ => absurd hdepth (Nat.not_lt_zero _)
  | depth + 1, m, d, d', hdepth, hended, hrun, m', hm' => by
      have hlow : ∀ c ∈ (env.para.manager m).child, height c < depth := fun c hc => by
        have := hheight m c hc
        omega
      have hbody : ∀ c ∈ (env.para.manager m).child, ∀ d, Ended d →
          Copies env m (strongParaExpand env depth c) d := fun c hc d hended =>
        (strongParaExpand_copies hheight depth c (hlow c hc) hended).mono fun e he =>
          ⟨.head hc he.1, he.2⟩
      have hchildren : Copies env m (Traced.forEach (strongParaExpand env depth)
          (env.para.manager m).child) d := .forEach (makes_composes env) hended hbody
      rw [strongParaExpand] at hrun ⊢
      cases hfirst : (Traced.forEach (strongParaExpand env depth)
          (env.para.manager m).child d).2 with
      | none =>
          rw [Traced.andThen_of_none hfirst] at hrun
          cases hrun
      | some d₁ =>
          rw [Traced.andThen_of_some hfirst] at hrun ⊢
          rcases Relation.ReflTransGen.cases_head hm' with rfl | ⟨c, hc, hcm'⟩
          · have heach := (expandManager_each (hchildren.keeps d₁ hfirst) hrun).before
              (hchildren.around d₁ hfirst)
            exact heach.mono fun e he => List.mem_append_right _ he
          · obtain ⟨es, d₂, d₃, hended₂, hmakes, hturn, hevents⟩ :=
              Traced.forEach_turn (makes_composes env) hended hbody hc hfirst
            have heach := (strongParaExpand_each hheight depth c (hlow c hc) hended₂ hturn m'
              hcm').before hmakes
            exact heach.mono fun e he => List.mem_append_left _ (hevents e he)

/-- `strong_para_expand` copies as it should: each modifier that is due, to the
nodes that the coordinations of its manager ask for, and to no others. -/
structure CopiesAll (env : StrongEnv) (m : Nat) (d : TreeData) (es : List Copy)
    (d' : TreeData) : Prop where
  each : ∀ m', Descends env.para.manager m m' → CopiesOf env m' d es
  only : ∀ e ∈ es, e.Below env m
  step : ∀ e ∈ es, ∃ d₁,
    copyModifier env (env.para.manager e.m) e.b e.child e.tree = some d₁ ∧
      Copied [e.child] (e.links env) e.tree d₁
  whole : Copied (es.map Copy.child) (es.flatMap (Copy.links env)) d d'

theorem Makes.links {es : List Copy} (h : Makes env es d d') (hsame : ∀ e ∈ es, e.SameNodes env) :
    Copied (es.map Copy.child) (es.flatMap (Copy.links env)) d d' := by
  have hkids : ∀ p, kidsOf (es.flatMap (Copy.madeLinks env)) p =
      kidsOf (es.flatMap (Copy.links env)) p := by
    intro p
    clear h
    induction es with
    | nil => rfl
    | cons e es ih =>
        rw [List.flatMap_cons, List.flatMap_cons, kidsOf_append, kidsOf_append]
        rw [ih fun e' he' => hsame e' (List.mem_cons_of_mem e he')]
        exact congrArg (· ++ _) (kidsOf_linksTo_perm (hsame e List.mem_cons_self))
  exact ⟨h.else_eq, h.toParaP_eq, fun p l hl => hkids p ▸ h.reads p l hl⟩

/-- Coordinations that lie one behind the other in `para_data`. -/
theorem sameNodes_of_contiguous {e : Copy}
    (h : (env.para.manager e.m).paraDataNum = walkedData (env.para.manager e.m)) :
    e.SameNodes env := by
  unfold Copy.SameNodes
  rw [← h]

/-- The copies are right exactly if at each of them the coordinations that are
taken lead to the nodes that the manager asks for, and these have room. -/
theorem strongParaExpand_iff (hforest : env.para.IsForest) (hm : m < env.para.paraMNum)
    (hended : Ended d) :
    (∃ d', (strongParaExpand env env.para.paraMNum m d).2 = some d' ∧
      CopiesAll env m d (strongParaExpand env env.para.paraMNum m d).1 d') ↔
      ∀ e ∈ (strongParaExpand env env.para.paraMNum m d).1,
        e.SameNodes env ∧ HasRoom (e.links env) e.tree := by
  obtain ⟨height, hheight, hbound⟩ := exists_height hforest.parent_lt hforest.acyclic
  have hlow : ∀ a, ∀ c ∈ (env.para.manager a).child, height c < height a :=
    fun a c hc => hheight c a (hforest.parent_of_mem hc)
  have hcopies := strongParaExpand_copies hlow env.para.paraMNum m (hbound m hm) hended
  constructor
  · rintro ⟨d', -, hall⟩ e he
    exact (copyModifier_iff (hcopies.events e he).2.ended).mp (hall.step e he)
  · intro hright
    obtain ⟨d', hd'⟩ := hcopies.succeeds.mpr fun e he =>
      HasRoom.perm (hright e he).1.symm (hright e he).2
    refine ⟨d', hd', ?_, hcopies.events, fun e he => ?_, ?_⟩
    · exact strongParaExpand_each hlow _ m (hbound m hm) hended hd'
    · exact (copyModifier_iff (hcopies.events e he).2.ended).mpr (hright e he)
    · exact (hcopies.around d' hd').links fun e he => (hright e he).1

end Run

/-! ## Three conjuncts -/

/-- 0 modifies 1. The conjuncts 1-2, 3-5 and 6-7 are coordinated, and within the
second one 3 and 4. The coordinations of the manager 0 are given. -/
def nestedEnv (paraDataNum : List Nat) : StrongEnv where
  bnstNum := 8
  mask _ _ := 1
  para := { initParaManager fun _ _ => .not with
    manager := fun m =>
      if m = 0 then ⟨paraDataNum, [1, 3, 6], [2, 5, 7], none, [1], .s⟩
      else if m = 1 then ⟨[1], [3, 4], [3, 4], some 0, [], .w⟩
      else emptyManager
    paraMNum := 2 }
  paraData p :=
    if p = 0 then ⟨1, 2, 5, 0, .s⟩ else if p = 1 then ⟨3, 3, 4, 0, .n⟩ else ⟨3, 5, 7, 0, .s⟩
  maxPath p i := (if p = 0 then [1, 2, 2] else if p = 1 then [3] else [3, 5]).getD i 0

/-- The tree of the children that are listed. -/
def treeOf (kids : List (List Nat)) : TreeData where
  num i := i
  dpndHead _ := -1
  parent _ := none
  child p k := (kids.getD p [])[k]?
  paraTopP _ := false
  paraType _ := .nil
  toParaP _ := false

def nestedTree : TreeData := treeOf [[], [0], [1], [], [3], [2, 4], [], [5, 6]]

theorem nestedEnv_parent {paraDataNum : List Nat} {m p : Nat}
    (h : ((nestedEnv paraDataNum).para.manager m).parent = some p) : m = 1 ∧ p = 0 := by
  simp only [nestedEnv] at h
  split_ifs at h with h0 h1
  · exact ⟨h1, (Option.some.inj h).symm⟩
  · cases h

theorem nestedEnv_child {paraDataNum : List Nat} {m q : Nat}
    (h : m ∈ ((nestedEnv paraDataNum).para.manager q).child) : m = 1 ∧ q = 0 := by
  simp only [nestedEnv] at h
  split_ifs at h with h0 h1
  · exact ⟨List.mem_singleton.mp h, h0⟩
  · cases h
  · cases h

theorem nestedEnv_isForest (paraDataNum : List Nat) : (nestedEnv paraDataNum).para.IsForest where
  parent_lt m p h := by
    obtain ⟨rfl, rfl⟩ := nestedEnv_parent h
    exact ⟨Nat.one_lt_two, Nat.two_pos⟩
  acyclic m h := by
    obtain ⟨p, hp, hrest⟩ := Relation.TransGen.head'_iff.mp h
    obtain ⟨rfl, rfl⟩ := nestedEnv_parent hp
    rcases Relation.ReflTransGen.cases_head hrest with heq | ⟨q, hq, -⟩
    · cases heq
    · cases (nestedEnv_parent hq).1
  listed_once m p h := by
    obtain ⟨rfl, rfl⟩ := nestedEnv_parent h
    exact ⟨rfl, fun q hq hmem => hq (nestedEnv_child hmem).2⟩
  unlisted m h q hmem := by
    obtain ⟨rfl, rfl⟩ := nestedEnv_child hmem
    cases h

theorem treeOf_reads (kids : List (List Nat)) (p : Nat) :
    NullArray.Reads ((treeOf kids).child p) (kids.getD p []) := fun _ _ => rfl

theorem treeOf_ended {kids : List (List Nat)} (h : ∀ l ∈ kids, l.length < PARA_PART_MAX) :
    Ended (treeOf kids) := by
  intro p
  refine ⟨kids.getD p [], ?_, treeOf_reads kids p⟩
  by_cases hp : p < kids.length
  · rw [List.getD_eq_getElem kids [] hp]
    exact h _ (List.getElem_mem hp)
  · rw [List.getD_eq_default kids [] (Nat.le_of_not_lt hp)]
    decide

/-- Without the coordination in the second conjunct. -/
theorem twoConjuncts_copies : ∃ d',
    (strongParaExpand (nestedEnv [0]) 2 0 nestedTree).2 = some d' ∧
      CopiesAll (nestedEnv [0]) 0 nestedTree
        (strongParaExpand (nestedEnv [0]) 2 0 nestedTree).1 d' := by
  have hended : Ended nestedTree := treeOf_ended (by decide)
  refine (strongParaExpand_iff (nestedEnv_isForest [0]) Nat.two_pos hended).mpr fun e he => ?_
  have hevents : (strongParaExpand (nestedEnv [0]) 2 0 nestedTree).1 =
      [⟨0, 1, 0, nestedTree⟩] := rfl
  obtain rfl : e = ⟨0, 1, 0, nestedTree⟩ := List.mem_singleton.mp (hevents ▸ he)
  refine ⟨sameNodes_of_contiguous rfl, fun p hp => ?_⟩
  obtain rfl : p = 3 := List.mem_singleton.mp hp
  exact ⟨[], treeOf_reads _ 3, by decide⟩

/-- The third conjunct does not get the modifier, but 4 does. -/
theorem nested_not_copies : ¬ ∃ d',
    (strongParaExpand (nestedEnv [0, 2]) 2 0 nestedTree).2 = some d' ∧
      CopiesAll (nestedEnv [0, 2]) 0 nestedTree
        (strongParaExpand (nestedEnv [0, 2]) 2 0 nestedTree).1 d' := by
  rintro ⟨d', hrun, hall⟩
  have hlinks : (strongParaExpand (nestedEnv [0, 2]) 2 0 nestedTree).1.flatMap
      (Copy.links (nestedEnv [0, 2])) = [(0, 3), (0, 6)] := rfl
  have hthird : ((strongParaExpand (nestedEnv [0, 2]) 2 0 nestedTree).2.map fun d =>
      (d.child 6 0, d.child 4 1)) = some (none, some 0) := rfl
  have hreads := hall.whole.reads 6 [] (treeOf_reads _ 6)
  rw [hlinks] at hreads
  have hsix : d'.child 6 0 = some 0 := hreads.entry (by decide)
  rw [hrun, Option.map_some, hsix] at hthird
  cases hthird

end Knp
