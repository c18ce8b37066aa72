import Knp.TreeMerge

/-!
# The nodes of the coordinations (`tree_conv.c`)

`para_top_expand` copies the last bunsetsu of a coordination into a new node
behind the bunsetsu, which becomes the first child of the old one; the old one
now stands for the coordination. Its modifiers behind the last conjunct but one
follow the copy.

> If the child arrays and `bnst_data` have room for all of them, the result is
> a tree: each node but the root once, below its head or a copy of it.
-/

namespace Knp

open TreeData

/-! ## Nodes -/

/-- The tree and `New_Bnst_num`. -/
structure ExpandState where
  data : TreeData
  newBnstNum : Nat

/-- `t_add_node`; `none` for the position -1. -/
def tAddNode (parent child : Nat) (pos : Option Nat) (d : TreeData) : Option TreeData :=
  (NullArray.count PARA_PART_MAX (d.child parent)).bind fun childNum =>
    if childNum + 1 < PARA_PART_MAX then
      some { d with child := Function.update d.child parent (match pos with
        | none => Function.update (Function.update (d.child parent) childNum (some child))
            (childNum + 1) none
        | some pos => NullArray.insertAt (d.child parent) pos childNum child) }
    else none

/-- `t_attach_node` -/
def tAttachNode (parent child : Nat) (pos : Option Nat) (d : TreeData) : Option TreeData :=
  tAddNode parent child pos { d with parent := Function.update d.parent child (some parent) }

/-- `t_del_node` -/
def tDelNode (parent child : Nat) (d : TreeData) : Option TreeData :=
  (NullArray.count PARA_PART_MAX (d.child parent)).map fun childNum =>
    { d with
      child := match (List.range childNum).find? fun i => d.child parent i = some child with
        | some i => Function.update d.child parent
            (NullArray.removeAt (d.child parent) i childNum)
        | none => d.child
      parent := Function.update d.parent child none }

/-- `*new_ptr = *end_ptr` -/
def copyNode (newPtr endPtr : Nat) (d : TreeData) : TreeData where
  num := Function.update d.num newPtr (d.num endPtr)
  dpndHead := Function.update d.dpndHead newPtr (d.dpndHead endPtr)
  parent := Function.update d.parent newPtr (d.parent endPtr)
  child := Function.update d.child newPtr (d.child endPtr)
  paraTopP := Function.update d.paraTopP newPtr (d.paraTopP endPtr)
  paraType := Function.update d.paraType newPtr (d.paraType endPtr)
  toParaP := Function.update d.toParaP newPtr (d.toParaP endPtr)

/-- 子ノードの整理: the second child moves while it lies behind `pre_end_ptr`. -/
def moveChildren (preEndPtr endPtr newPtr : Nat) : Nat → TreeData → Option TreeData
  | 0, _ => none
  | fuel + 1, d =>
      match d.child endPtr 1 with
      | none => some d
      | some c =>
          if preEndPtr < c ∧ d.paraType c ≠ .incomp then
            (tDelNode endPtr c d).bind fun d =>
              (tAttachNode newPtr c none d).bind (moveChildren preEndPtr endPtr newPtr fuel)
          else some d

/-- フラグ(PARA,<P>)の整理 -/
def setParaFlags (mgr : ParaManager) (endPtr newPtr : Nat) (d : TreeData) : Option TreeData :=
  Loop.upTo? 0 mgr.last (fun i d => (getCorrectPostprocessedBnstNum d (mgr.stop i)).map fun b =>
      { d with paraType := Function.update d.paraType b .normal })
    { d with
      paraType := Function.update (Function.update d.paraType endPtr .nil) newPtr .normal
      paraTopP := Function.update d.paraTopP endPtr true }

/-- `para_top_expand` for the manager itself. -/
def insertPara (env : TreeEnv) (m : Nat) (s : ExpandState) : Option (Bool × ExpandState) :=
  let mgr := env.para.manager m
  (getCorrectPostprocessedBnstNum s.data (mgr.stop mgr.last)).bind fun endPtr =>
  (getCorrectPostprocessedBnstNum s.data (mgr.stop (mgr.last - 1))).bind fun preEndPtr =>
    let newPtr := env.bnstNum + s.newBnstNum
    let newBnstNum := s.newBnstNum + 1
    if BNST_MAX < env.bnstNum + newBnstNum then some (false, ⟨s.data, newBnstNum⟩)
    else
      ((copyNode newPtr endPtr s.data).setChild newPtr 0 none).bind fun d =>
      (tAttachNode endPtr newPtr (some 0) d).bind fun d =>
      (moveChildren preEndPtr endPtr newPtr PARA_PART_MAX d).bind fun d =>
      (setParaFlags mgr endPtr newPtr d).map fun d => (true, ⟨d, newBnstNum⟩)

/-- The managers of a list, until one of them fails. -/
def expandEach (expand : Nat → ExpandState → Option (Bool × ExpandState)) :
    List Nat → ExpandState → Option (Bool × ExpandState)
  | [], s => some (true, s)
  | m :: ms, s => (expand m s).bind fun (ok, s) =>
      if ok then expandEach expand ms s else some (false, s)

/-- `para_top_expand`, with the depth of its recursion. -/
def paraTopExpand (env : TreeEnv) : Nat → Nat → ExpandState → Option (Bool × ExpandState)
  | 0, _, _ => none
  | depth + 1, m, s =>
      (expandEach (paraTopExpand env depth) (env.para.manager m).child s).bind fun (ok, s) =>
        if ok then insertPara env m s else some (false, s)

/-- `make_dpnd_tree`, without `-expand`. -/
def makeDpndTree (env : TreeEnv) (d : TreeData) : Option (Bool × ExpandState) :=
  (makeSimpleTree env (initBnstTreeProperty d)).bind fun d =>
    expandEach (paraTopExpand env env.para.paraMNum) env.para.roots ⟨d, 0⟩

/-! ## One coordination -/

section Insert

variable {env : TreeEnv} {d d' : TreeData} {l moved rest : List Nat} {p c e new pe x : Nat}

theorem tAttachNode_last (hreads : NullArray.Reads (d.child p) l)
    (hcap : l.length + 1 < PARA_PART_MAX) : tAttachNode p c none d = some
      { d with
        parent := Function.update d.parent c (some p)
        child := Function.update d.child p (Function.update (Function.update (d.child p) l.length
          (some c)) (l.length + 1) none) } := by
  unfold tAttachNode tAddNode
  rw [hreads.count_eq (Nat.lt_of_succ_lt hcap), Option.bind_some, if_pos hcap]

theorem tAttachNode_first (hreads : NullArray.Reads (d.child p) l)
    (hcap : l.length + 1 < PARA_PART_MAX) : tAttachNode p c (some 0) d = some
      { d with
        parent := Function.update d.parent c (some p)
        child := Function.update d.child p (NullArray.insertAt (d.child p) 0 l.length c) } := by
  unfold tAttachNode tAddNode
  rw [hreads.count_eq (Nat.lt_of_succ_lt hcap), Option.bind_some, if_pos hcap]

/-- The second child is the one that is deleted. -/
theorem tDelNode_second (hreads : NullArray.Reads (d.child e) (new :: c :: rest)) (hne : new ≠ c)
    (hcap : (new :: c :: rest).length < PARA_PART_MAX) : tDelNode e c d = some
      { d with
        child := Function.update d.child e
          (NullArray.removeAt (d.child e) 1 (new :: c :: rest).length)
        parent := Function.update d.parent c none } := by
  have hfind : (List.range (new :: c :: rest).length).find? (fun i => d.child e i = some c) =
      some 1 := by
    rw [List.find?_range_eq_some]
    refine ⟨?_, by simp, fun k hk => ?_⟩
    · rw [hreads.entry (by simp)]
      simp
    · obtain rfl : k = 0 := by omega
      rw [hreads.entry (by simp)]
      simpa using hne
  unfold tDelNode
  rw [hreads.count_eq hcap, Option.map_some, hfind]

/-- What the loop over the second child has done: `moved` has left `e`. -/
structure Moved (e new : Nat) (moved rest : List Nat) (d d' : TreeData) : Prop where
  num_eq : d'.num = d.num
  old_reads : NullArray.Reads (d'.child e) (new :: rest)
  child_of_ne : ∀ p, p ≠ e → p ≠ new → d'.child p = d.child p
  parent_eq : ∀ x, d'.parent x = if x ∈ moved then some new else d.parent x

theorem Moved.trans {d₁ : TreeData} {moved' rest' : List Nat} (h : Moved e new moved rest d d₁)
    (h' : Moved e new moved' rest' d₁ d') : Moved e new (moved ++ moved') rest' d d' where
  num_eq := h'.num_eq.trans h.num_eq
  old_reads := h'.old_reads
  child_of_ne p hpe hpn := (h'.child_of_ne p hpe hpn).trans (h.child_of_ne p hpe hpn)
  parent_eq x := by
    rw [h'.parent_eq, h.parent_eq]
    simp only [List.mem_append]
    split_ifs <;> first | rfl | tauto

/-- One turn of the loop. -/
theorem moveOne (hne : e ≠ new) {own : List Nat}
    (hreads : NullArray.Reads (d.child e) (new :: c :: rest))
    (hown : NullArray.Reads (d.child new) own) (hnc : new ≠ c)
    (hcap : own.length + rest.length + 2 < PARA_PART_MAX) :
    ∃ d₁ d₂, tDelNode e c d = some d₁ ∧ tAttachNode new c none d₁ = some d₂ ∧
      Moved e new [c] rest d d₂ ∧ NullArray.Reads (d₂.child new) (own ++ [c]) := by
  have hdel := tDelNode_second hreads hnc (by simp only [List.length_cons]; omega)
  have hold : NullArray.Reads (NullArray.removeAt (d.child e) 1 (new :: c :: rest).length)
      (new :: rest) := hreads.removeAt (by simp)
  generalize NullArray.removeAt (d.child e) 1 (new :: c :: rest).length = a at hdel hold
  have hown₁ : NullArray.Reads (Function.update d.child e a new) own := by
    rwa [Function.update_of_ne hne.symm]
  refine ⟨_, _, hdel, tAttachNode_last hown₁ (by omega), ⟨rfl, ?_, fun q hqe hqn => ?_, fun x => ?_⟩,
    ?_⟩
  · dsimp only
    rwa [Function.update_of_ne hne, Function.update_self]
  · dsimp only
    rw [Function.update_of_ne hqn, Function.update_of_ne hqe]
  · dsimp only
    simp only [List.mem_singleton, Function.update_apply]
    split_ifs <;> rfl
  · dsimp only
    rw [Function.update_self]
    exact hown₁.snoc c

variable (pe) in
theorem moveChildren_spec (hne : e ≠ new) : ∀ (fuel : Nat) (own rest : List Nat) {d : TreeData},
    NullArray.Reads (d.child e) (new :: rest) → NullArray.Reads (d.child new) own →
    new ∉ rest → rest.length < fuel → own.length + rest.length + 1 < PARA_PART_MAX →
    ∃ d' moved rest', moveChildren pe e new fuel d = some d' ∧ rest = moved ++ rest' ∧
      Moved e new moved rest' d d' ∧ NullArray.Reads (d'.child new) (own ++ moved)
  | fuel + 1, own, [], d, hreads, hown, _, _, _ => by
      have hnull : d.child e 1 = none := hreads.null
      refine ⟨d, [], [], ?_, rfl, ⟨rfl, hreads, fun _ _ _ => rfl, fun x => ?_⟩, ?_⟩
      · unfold moveChildren
        rw [hnull]
      · rw [if_neg List.not_mem_nil]
      · rwa [List.append_nil]
  | fuel + 1, own, c :: rest, d, hreads, hown, hnew, hfuel, hcap => by
      have hsecond : d.child e 1 = some c := hreads.entry (by simp)
      have hlen : (c :: rest).length = rest.length + 1 := rfl
      unfold moveChildren
      rw [hsecond]
      dsimp only
      split_ifs with hmove
      · obtain ⟨d₁, d₂, hdel, hattach, hone, hown₂⟩ := moveOne hne hreads hown
          (fun h => hnew (h ▸ List.mem_cons_self)) (by omega)
        obtain ⟨d', moved, rest', hrun, hsplit, hmoved, hreads'⟩ := moveChildren_spec hne fuel
          (own ++ [c]) rest hone.old_reads hown₂ (fun h => hnew (List.mem_cons_of_mem c h))
          (by omega) (by rw [List.length_append, List.length_singleton]; omega)
        rw [hdel, Option.bind_some, hattach, Option.bind_some]
        refine ⟨d', c :: moved, rest', hrun, by rw [hsplit, List.cons_append], hone.trans hmoved, ?_⟩
        rwa [List.append_assoc] at hreads'
      · refine ⟨d, [], c :: rest, rfl, rfl, ⟨rfl, hreads, fun _ _ _ => rfl, fun x => ?_⟩, ?_⟩
        · rw [if_neg List.not_mem_nil]
        · rwa [List.append_nil]

variable (e new) in
theorem setParaFlags_keep {mgr : ParaManager} (hleft : ∀ i < mgr.last, d.merged (mgr.stop i) = false) :
    ∃ d', setParaFlags mgr e new d = some d' ∧ d'.num = d.num ∧ d'.child = d.child ∧
      d'.parent = d.parent := by
  unfold setParaFlags
  refine Loop.upTo?_total _
    (fun _ (d' : TreeData) => d'.num = d.num ∧ d'.child = d.child ∧ d'.parent = d.parent)
    (Nat.zero_le _) (fun i d₁ _ hi h => ?_) ⟨rfl, rfl, rfl⟩
  have hself : getCorrectPostprocessedBnstNum d₁ (mgr.stop i) = some (mgr.stop i) :=
    getCorrect_self (by rw [merged_congr h.1]; exact hleft i hi)
  rw [hself]
  exact ⟨_, rfl, h⟩

/-- What the expansion of one manager, with last end `e`, does. -/
structure Inserted (e new : Nat) (moved rest : List Nat) (d d' : TreeData) : Prop where
  num_eq : ∀ x, d'.num x = if x = new then d.num e else d.num x
  old_reads : NullArray.Reads (d'.child e) (new :: rest)
  new_reads : NullArray.Reads (d'.child new) moved
  child_of_ne : ∀ p, p ≠ e → p ≠ new → d'.child p = d.child p
  parent_eq : ∀ x, d'.parent x =
    if x ∈ moved then some new else if x = new then some e else d.parent x

/-- The copy, without children, becomes the first child. -/
theorem attachCopy (hne : e ≠ new) (hreads : NullArray.Reads (d.child e) l)
    (hcap : l.length + 1 < PARA_PART_MAX) :
    ∃ d₁ d₂, (copyNode new e d).setChild new 0 none = some d₁ ∧
      tAttachNode e new (some 0) d₁ = some d₂ ∧ Inserted e new [] l d d₂ := by
  have hreads₁ : NullArray.Reads (Function.update (copyNode new e d).child new
      (Function.update ((copyNode new e d).child new) 0 none) e) l := by
    unfold copyNode
    dsimp only
    rwa [Function.update_of_ne hne, Function.update_of_ne hne]
  refine ⟨_, _, setChild_eq (Nat.zero_lt_succ _), tAttachNode_first hreads₁ hcap, fun x => ?_, ?_, ?_,
    fun q hqe hqn => ?_, fun x => ?_⟩
  · exact Function.update_apply _ _ _ _
  · dsimp only
    rw [Function.update_self]
    exact hreads₁.insertAt_zero new
  · dsimp only
    rw [Function.update_of_ne hne.symm, Function.update_self]
    exact NullArray.starts_nil.close
  · dsimp only [copyNode]
    rw [Function.update_of_ne hqe, Function.update_of_ne hqn, Function.update_of_ne hqn]
  · dsimp only [copyNode]
    rw [if_neg List.not_mem_nil, Function.update_apply]
    split_ifs with hx
    · rfl
    · exact Function.update_of_ne hx _ _

theorem Inserted.move {d₁ : TreeData} {rest' : List Nat} (h : Inserted e new [] rest d d₁)
    (h' : Moved e new moved rest' d₁ d') (hown : NullArray.Reads (d'.child new) moved) :
    Inserted e new moved rest' d d' where
  num_eq x := by rw [h'.num_eq, h.num_eq]
  old_reads := h'.old_reads
  new_reads := hown
  child_of_ne p hpe hpn := (h'.child_of_ne p hpe hpn).trans (h.child_of_ne p hpe hpn)
  parent_eq x := by
    rw [h'.parent_eq, h.parent_eq, if_neg List.not_mem_nil]

theorem insertPara_spec {m : Nat} {s : ExpandState} (htwo : 2 ≤ (env.para.manager m).partNum)
    (hroom : env.bnstNum + s.newBnstNum < BNST_MAX)
    (hin : ∀ k < (env.para.manager m).partNum, (env.para.manager m).stop k < env.bnstNum)
    (hleft : ∀ i < env.bnstNum, s.data.merged i = false)
    (hreads : NullArray.Reads (s.data.child ((env.para.manager m).stop (env.para.manager m).last)) l)
    (hnew : env.bnstNum + s.newBnstNum ∉ l) (hcap : l.length + 1 < PARA_PART_MAX) :
    ∃ d' moved rest, insertPara env m s = some (true, ⟨d', s.newBnstNum + 1⟩) ∧ l = moved ++ rest ∧
      Inserted ((env.para.manager m).stop (env.para.manager m).last) (env.bnstNum + s.newBnstNum)
        moved rest s.data d' := by
  have hlast : (env.para.manager m).last < (env.para.manager m).partNum := by
    unfold ParaManager.last
    omega
  have he := hin _ hlast
  have hne : (env.para.manager m).stop (env.para.manager m).last ≠ env.bnstNum + s.newBnstNum := by
    omega
  obtain ⟨d₁, d₂, hcopy, hattach, hcopied⟩ := attachCopy hne hreads hcap
  obtain ⟨d₃, moved, rest, hmove, hsplit, hmoved, hown⟩ := moveChildren_spec
    ((env.para.manager m).stop ((env.para.manager m).last - 1)) hne PARA_PART_MAX [] l
    hcopied.old_reads hcopied.new_reads hnew (Nat.lt_of_succ_lt hcap)
    (by rw [List.length_nil]; omega)
  have hleft₃ : ∀ i < (env.para.manager m).last, d₃.merged ((env.para.manager m).stop i) = false := by
    intro i hi
    have hin' := hin i (hi.trans hlast)
    rw [merged_eq_false_iff, hmoved.num_eq, hcopied.num_eq, if_neg (by omega)]
    exact merged_eq_false_iff.mp (hleft _ hin')
  obtain ⟨d₄, hflags, hnum, hchild, hparent⟩ := setParaFlags_keep
    ((env.para.manager m).stop (env.para.manager m).last) (env.bnstNum + s.newBnstNum) hleft₃
  have hall := hcopied.move hmoved hown
  refine ⟨d₄, moved, rest, ?_, hsplit, fun x => ?_, ?_, ?_, fun p hpe hpn => ?_, fun x => ?_⟩
  · unfold insertPara
    dsimp only
    rw [getCorrect_self (hleft _ he), Option.bind_some, getCorrect_self (hleft _ (hin _ (by omega))),
      Option.bind_some, if_neg (by omega), hcopy, Option.bind_some, hattach, Option.bind_some, hmove,
      Option.bind_some, hflags, Option.map_some]
  · rw [hnum]
    exact hall.num_eq x
  · rw [hchild]
    exact hall.old_reads
  · rw [hchild]
    exact hall.new_reads
  · rw [hchild]
    exact hall.child_of_ne p hpe hpn
  · rw [hparent]
    exact hall.parent_eq x

end Insert

/-! ## The invariant of the expansion -/

/-- The last end of a manager. -/
def topOf (env : TreeEnv) (m : Nat) : Nat :=
  (env.para.manager m).stop (env.para.manager m).last

/-- The number of bunsetsu that depend on `e`. -/
def modifierNum (env : TreeEnv) (heads : Nat → Int) (e : Nat) : Nat :=
  ((Finset.range env.bnstNum).filter fun i => heads i = e).card

/-- The tree of `nodes` nodes, with one for each manager in `V`. -/
structure TreeInv (env : TreeEnv) (heads : Nat → Int) (V : Finset Nat) (nodes : Nat)
    (d : TreeData) : Prop where
  num_eq : ∀ i < env.bnstNum, d.num i = i
  num_new : ∀ x < nodes, ∃ e < env.bnstNum, d.num x = e ∧
    (env.bnstNum ≤ x → ∃ m ∈ V, topOf env m = e)
  reads : ∀ p < nodes, ∃ l, NullArray.Reads (d.child p) l ∧ l.Nodup ∧
    (∀ c ∈ l, c < nodes ∧ d.parent c = some p) ∧ ∀ e : Nat, d.num p = e →
      l.length ≤ modifierNum env heads e + (V.filter (topOf env · = e)).card
  root : d.parent (env.bnstNum - 1) = none
  listed : ∀ c < nodes, c + 1 ≠ env.bnstNum → ∃ p < nodes,
    d.parent c = some p ∧ ∃ l, NullArray.Reads (d.child p) l ∧ c ∈ l
  head : ∀ c < nodes, ∀ p, d.parent c = some p → (c < env.bnstNum → d.num p = heads c) ∧
    (env.bnstNum ≤ c → d.num p = d.num c ∧ (p < env.bnstNum ∨ c < p))

section Invariant

variable {env : TreeEnv} {heads : Nat → Int} {V : Finset Nat} {d : TreeData} {m nodes : Nat}

theorem TreeInv.merged_eq_false (h : TreeInv env heads V nodes d) {i : Nat}
    (hi : i < env.bnstNum) : d.merged i = false := by
  rw [merged_eq_false_iff, h.num_eq i hi]
  omega

/-- Enough room for the children and the new nodes. -/
structure Roomy (env : TreeEnv) (heads : Nat → Int) : Prop where
  nodes : env.bnstNum + env.para.paraMNum ≤ BNST_MAX
  children : ∀ e < env.bnstNum, modifierNum env heads e +
    ((Finset.range env.para.paraMNum).filter (topOf env · = e)).card < PARA_PART_MAX

/-- The nodes after the insertion of one. -/
theorem TreeInv.inserted {V' : Finset Nat} {l moved rest : List Nat} {d' : TreeData} {top : Nat}
    (h : TreeInv env heads V nodes d) (hbnst : env.bnstNum ≤ nodes) (htop : top < env.bnstNum)
    (hreads : NullArray.Reads (d.child top) l) (hnodup : l.Nodup)
    (hmem : ∀ c ∈ l, c < nodes ∧ d.parent c = some top)
    (hlen : l.length ≤ modifierNum env heads top + (V.filter (topOf env · = top)).card)
    (hcount : ∀ e, (V'.filter (topOf env · = e)).card =
      (V.filter (topOf env · = e)).card + if top = e then 1 else 0)
    (hsub : V ⊆ V') (htopV : ∃ m ∈ V', topOf env m = top)
    (hsplit : l = moved ++ rest) (hins : Inserted top nodes moved rest d d') :
    TreeInv env heads V' (nodes + 1) d' := by
  have hnum : d.num top = top := h.num_eq _ htop
  have hmoved : ∀ c ∈ moved, c < nodes ∧ d.parent c = some top :=
    fun c hc => hmem c (hsplit ▸ List.mem_append_left rest hc)
  have hrest : ∀ c ∈ rest, c < nodes ∧ d.parent c = some top ∧ c ∉ moved := by
    intro c hc
    obtain ⟨hlt, hparent⟩ := hmem c (hsplit ▸ List.mem_append_right moved hc)
    exact ⟨hlt, hparent, fun hc' => List.disjoint_of_nodup_append (hsplit ▸ hnodup) hc' hc⟩
  have hnumOld : ∀ x < nodes, d'.num x = d.num x :=
    fun x hx => by rw [hins.num_eq, if_neg hx.ne]
  have hnumTop : d'.num nodes = top := by rw [hins.num_eq, if_pos rfl, hnum]
  have hparentMoved : ∀ c ∈ moved, d'.parent c = some nodes :=
    fun c hc => by rw [hins.parent_eq, if_pos hc]
  have hparentNew : d'.parent nodes = some top := by
    rw [hins.parent_eq, if_neg fun hc => lt_irrefl _ (hmoved nodes hc).1, if_pos rfl]
  have hparentOld : ∀ c < nodes, c ∉ moved → d'.parent c = d.parent c :=
    fun c hc hcm => by rw [hins.parent_eq, if_neg hcm, if_neg hc.ne]
  have hl : l.length = moved.length + rest.length := by rw [hsplit, List.length_append]
  refine ⟨fun i hi => ?_, fun x hx => ?_, fun p hp => ?_, ?_,
    fun c hc hcr => ?_, fun c hc p hp => ?_⟩
  · rw [hnumOld i (hi.trans_le hbnst), h.num_eq i hi]
  · rcases Nat.lt_succ_iff_lt_or_eq.mp hx with hlt | rfl
    · obtain ⟨e, he, hxe, hcopy⟩ := h.num_new x hlt
      refine ⟨e, he, by rw [hnumOld x hlt, hxe], fun hx => ?_⟩
      obtain ⟨m, hm, hme⟩ := hcopy hx
      exact ⟨m, hsub hm, hme⟩
    · exact ⟨top, htop, hnumTop, fun _ => htopV⟩
  · by_cases hptop : p = top
    · subst hptop
      refine ⟨nodes :: rest, hins.old_reads, ?_, fun c hc => ?_, fun e he => ?_⟩
      · refine List.nodup_cons.mpr ⟨fun hc => lt_irrefl _ (hrest nodes hc).1, ?_⟩
        exact (List.nodup_append.mp (hsplit ▸ hnodup)).2.1
      · rcases List.mem_cons.mp hc with rfl | hc
        · exact ⟨Nat.lt_succ_self _, hparentNew⟩
        · obtain ⟨hlt, hparent, hcm⟩ := hrest c hc
          exact ⟨Nat.lt_succ_of_lt hlt, by rw [hparentOld c hlt hcm, hparent]⟩
      · rw [hnumOld p (htop.trans_le hbnst), hnum] at he
        obtain rfl : p = e := by exact_mod_cast he
        rw [hcount, if_pos rfl, List.length_cons]
        omega
    · by_cases hpnew : p = nodes
      · subst hpnew
        refine ⟨moved, hins.new_reads, (List.nodup_append.mp (hsplit ▸ hnodup)).1,
          fun c hc => ⟨Nat.lt_succ_of_lt (hmoved c hc).1, hparentMoved c hc⟩, fun e he => ?_⟩
        rw [hnumTop] at he
        obtain rfl : top = e := by exact_mod_cast he
        rw [hcount, if_pos rfl]
        omega
      · have hlt : p < nodes := lt_of_le_of_ne (Nat.le_of_lt_succ hp) hpnew
        obtain ⟨l', hreads', hnodup', hmem', hlen'⟩ := h.reads p hlt
        refine ⟨l', by rwa [hins.child_of_ne p hptop hpnew], hnodup', fun c hc => ?_,
          fun e he => ?_⟩
        · obtain ⟨hcn, hparent⟩ := hmem' c hc
          refine ⟨Nat.lt_succ_of_lt hcn, ?_⟩
          rw [hparentOld c hcn fun hcm => hptop ?_, hparent]
          exact Option.some.inj (hparent.symm.trans (hmoved c hcm).2)
        · rw [hnumOld p hlt] at he
          rw [hcount]
          exact (hlen' e he).trans (by omega)
  · by_cases hcm : env.bnstNum - 1 ∈ moved
    · have := h.root
      rw [(hmoved _ hcm).2] at this
      cases this
    · rw [hparentOld _ (by omega) hcm, h.root]
  · rcases Nat.lt_succ_iff_lt_or_eq.mp hc with hlt | rfl
    · by_cases hcm : c ∈ moved
      · exact ⟨nodes, Nat.lt_succ_self _, hparentMoved c hcm, moved, hins.new_reads, hcm⟩
      · obtain ⟨p, hp, hparent, l', hreads', hcl⟩ := h.listed c hlt hcr
        refine ⟨p, Nat.lt_succ_of_lt hp, by rw [hparentOld c hlt hcm, hparent], ?_⟩
        by_cases hptop : p = top
        · subst hptop
          rw [hreads'.unique hreads, hsplit] at hcl
          exact ⟨_, hins.old_reads, List.mem_cons_of_mem _
            ((List.mem_append.mp hcl).resolve_left hcm)⟩
        · exact ⟨l', by rwa [hins.child_of_ne p hptop hp.ne], hcl⟩
    · exact ⟨top, by omega, hparentNew, _, hins.old_reads, List.mem_cons_self⟩
  · rcases Nat.lt_succ_iff_lt_or_eq.mp hc with hlt | rfl
    · by_cases hcm : c ∈ moved
      · rw [hparentMoved c hcm] at hp
        obtain rfl := Option.some.inj hp
        obtain ⟨hsmall, hbig⟩ := h.head c hlt top (hmoved c hcm).2
        rw [hnumTop, hnumOld c hlt, ← hnum]
        exact ⟨hsmall, fun hcn => ⟨(hbig hcn).1, Or.inr hlt⟩⟩
      · rw [hparentOld c hlt hcm] at hp
        obtain ⟨hsmall, hbig⟩ := h.head c hlt p hp
        have hpn : p < nodes := by
          obtain ⟨q, hq, hparent, -⟩ := h.listed c hlt fun hcr => by
            have : c = env.bnstNum - 1 := by omega
            rw [this, h.root] at hp
            cases hp
          rw [hp] at hparent
          obtain rfl := Option.some.inj hparent
          exact hq
        rw [hnumOld p hpn, hnumOld c hlt]
        exact ⟨hsmall, hbig⟩
    · rw [hparentNew] at hp
      obtain rfl := Option.some.inj hp
      rw [hnumOld top (htop.trans_le hbnst), hnumTop, hnum]
      exact ⟨fun h => absurd h (Nat.not_lt_of_le hbnst), fun _ => ⟨rfl, Or.inl htop⟩⟩

theorem TreeInv.step {s : ExpandState} (hfit : ManagersFit env) (hroom : Roomy env heads)
    (hm : m < env.para.paraMNum) (hV : ∀ q ∈ V, q < env.para.paraMNum) (hmV : m ∉ V)
    (hnew : s.newBnstNum = V.card)
    (h : TreeInv env heads V (env.bnstNum + s.newBnstNum) s.data) :
    ∃ s', insertPara env m s = some (true, s') ∧ s'.newBnstNum = (insert m V).card ∧
      TreeInv env heads (insert m V) (env.bnstNum + s'.newBnstNum) s'.data := by
  have hparted := (hfit m hm).1
  have htop : topOf env m < env.bnstNum := (hfit m hm).2
  have hnum : s.data.num (topOf env m) = topOf env m := h.num_eq _ htop
  obtain ⟨l, hreads, hnodup, hmem, hlen⟩ := h.reads (topOf env m) (by omega)
  have hlen := hlen _ hnum
  have hcount : ∀ e, ((insert m V).filter (topOf env · = e)).card =
      (V.filter (topOf env · = e)).card + if topOf env m = e then 1 else 0 := by
    intro e
    rw [Finset.filter_insert]
    split_ifs
    · exact Finset.card_insert_of_notMem fun hmem => hmV (Finset.mem_filter.mp hmem).1
    · rfl
  have hsub : insert m V ⊆ Finset.range env.para.paraMNum := by
    intro q hq
    rcases Finset.mem_insert.mp hq with rfl | hq
    · exact Finset.mem_range.mpr hm
    · exact Finset.mem_range.mpr (hV q hq)
  have hcap : l.length + 1 < PARA_PART_MAX := by
    have hle := Finset.card_le_card (Finset.filter_subset_filter (topOf env · = topOf env m) hsub)
    have := hroom.children _ htop
    rw [hcount, if_pos rfl] at hle
    omega
  have hcardV : (insert m V).card = s.newBnstNum + 1 := by
    rw [Finset.card_insert_of_notMem hmV, hnew]
  have hcard : s.newBnstNum + 1 ≤ env.para.paraMNum := by
    have hle := Finset.card_le_card hsub
    rwa [hcardV, Finset.card_range] at hle
  have hnodes := hroom.nodes
  have hfresh : env.bnstNum + s.newBnstNum ∉ l := fun hmem' => lt_irrefl _ (hmem _ hmem').1
  obtain ⟨d', moved, rest, hrun, hsplit, hins⟩ := insertPara_spec hparted.two_le (by omega)
    (fun k hk => (hparted.stop_le_last hk).trans_lt htop) (fun i hi => h.merged_eq_false hi)
    hreads hfresh hcap
  exact ⟨_, hrun, hcardV.symm, h.inserted (Nat.le_add_right _ _) htop hreads hnodup hmem hlen hcount
    (Finset.subset_insert m V) ⟨m, Finset.mem_insert_self m V, rfl⟩ hsplit hins⟩

end Invariant

/-! ## The visit of all managers -/

section Forest

variable {st : ParaState} {height : Nat → Nat} {a b m q : Nat}

theorem Descends.height_le (h : st.IsForest)
    (hheight : ∀ a b, (st.manager a).parent = some b → height a < height b)
    (hmq : Descends st.manager m q) : height q ≤ height m := by
  induction hmq with
  | refl => exact le_rfl
  | tail _ hstep ih => exact (hheight _ _ (h.parent_of_mem hstep)).le.trans ih

/-- Two managers above a third one lie one below the other. -/
theorem Descends.comparable (h : st.IsForest) (ha : Descends st.manager a q)
    (hb : Descends st.manager b q) : Descends st.manager a b ∨ Descends st.manager b a := by
  induction ha with
  | refl => exact Or.inr hb
  | tail ha hstep ih =>
      rcases Relation.ReflTransGen.cases_tail hb with rfl | ⟨p, hb, hstep'⟩
      · exact Or.inl (ha.tail hstep)
      · have hsame := (h.parent_of_mem hstep).symm.trans (h.parent_of_mem hstep')
        obtain rfl := Option.some.inj hsame
        exact ih hb

theorem siblings_apart (h : st.IsForest)
    (hheight : ∀ a b, (st.manager a).parent = some b → height a < height b)
    (ha : a ∈ (st.manager m).child) (hb : b ∈ (st.manager m).child) (hab : a ≠ b)
    (haq : Descends st.manager a q) : ¬ Descends st.manager b q := by
  -- the lower one of the two would have its parent below the upper one
  have hlow : ∀ a b, a ∈ (st.manager m).child → b ∈ (st.manager m).child → a ≠ b →
      ¬ Descends st.manager a b := by
    intro a b ha hb hab hdesc
    rcases Relation.ReflTransGen.cases_tail hdesc with heq | ⟨p, hap, hstep⟩
    · exact hab heq.symm
    · have hsame := (h.parent_of_mem hstep).symm.trans (h.parent_of_mem hb)
      obtain rfl := Option.some.inj hsame
      have := Descends.height_le h hheight hap
      have := hheight a _ (h.parent_of_mem ha)
      omega
  intro hbq
  rcases Descends.comparable h haq hbq with hdesc | hdesc
  · exact hlow a b ha hb hab hdesc
  · exact hlow b a hb ha hab.symm hdesc

theorem roots_apart (h : st.IsForest) (ha : (st.manager a).parent = none)
    (hb : (st.manager b).parent = none) (hab : a ≠ b) (haq : Descends st.manager a q) :
    ¬ Descends st.manager b q := by
  have htop : ∀ a b, (st.manager b).parent = none → a ≠ b → ¬ Descends st.manager a b := by
    intro a b hb hab hdesc
    rcases Relation.ReflTransGen.cases_tail hdesc with heq | ⟨p, -, hstep⟩
    · exact hab heq.symm
    · rw [h.parent_of_mem hstep] at hb
      cases hb
  intro hbq
  rcases Descends.comparable h haq hbq with hdesc | hdesc
  · exact htop a b hb hab hdesc
  · exact htop b a ha hab.symm hdesc

theorem child_nodup (h : st.IsForest) (m : Nat) : (st.manager m).child.Nodup := by
  refine List.nodup_iff_count_le_one.mpr fun c => ?_
  by_cases hc : c ∈ (st.manager m).child
  · exact (h.listed_once c m (h.parent_of_mem hc)).1.le
  · rw [List.count_eq_zero_of_not_mem hc]
    exact Nat.zero_le 1

end Forest

section Visit

variable {env : TreeEnv} {heads : Nat → Int} {V : Finset Nat} {s : ExpandState}

/-- The managers in `V` have been expanded. -/
structure Expanded (env : TreeEnv) (heads : Nat → Int) (V : Finset Nat) (s : ExpandState) :
    Prop where
  new_eq : s.newBnstNum = V.card
  below : ∀ q ∈ V, q < env.para.paraMNum
  inv : TreeInv env heads V (env.bnstNum + s.newBnstNum) s.data

/-- `expand` visits `m` and the managers below it, if none has been visited. -/
def Visits (env : TreeEnv) (heads : Nat → Int)
    (expand : Nat → ExpandState → Option (Bool × ExpandState)) (m : Nat) : Prop :=
  ∀ V s, Expanded env heads V s → (∀ q, Descends env.para.manager m q → q ∉ V) →
    ∃ s' V', expand m s = some (true, s') ∧ Expanded env heads V' s' ∧
      ∀ q, q ∈ V' ↔ q ∈ V ∨ Descends env.para.manager m q

theorem expandEach_visits {expand : Nat → ExpandState → Option (Bool × ExpandState)} :
    ∀ (ms : List Nat) (V : Finset Nat) (s : ExpandState), (∀ m ∈ ms, Visits env heads expand m) →
      ms.Pairwise (fun a b => ∀ q, Descends env.para.manager a q → ¬ Descends env.para.manager b q) →
      Expanded env heads V s → (∀ m ∈ ms, ∀ q, Descends env.para.manager m q → q ∉ V) →
      ∃ s' V', expandEach expand ms s = some (true, s') ∧ Expanded env heads V' s' ∧
        ∀ q, q ∈ V' ↔ q ∈ V ∨ ∃ m ∈ ms, Descends env.para.manager m q
  | [], V, s, _, _, hs, _ => ⟨s, V, rfl, hs, fun q => by simp⟩
  | m :: ms, V, s, hvisit, hapart, hs, hfresh => by
      obtain ⟨hfirst, hrest⟩ := List.pairwise_cons.mp hapart
      obtain ⟨s₁, V₁, hrun, hs₁, hV₁⟩ := hvisit m List.mem_cons_self V s hs
        (hfresh m List.mem_cons_self)
      obtain ⟨s', V', hrun', hs', hV'⟩ := expandEach_visits ms V₁ s₁
        (fun m' hm' => hvisit m' (List.mem_cons_of_mem m hm')) hrest hs₁ (fun m' hm' q hq hmem => by
          rcases (hV₁ q).mp hmem with hold | hdesc
          · exact hfresh m' (List.mem_cons_of_mem m hm') q hq hold
          · exact hfirst m' hm' q hdesc hq)
      refine ⟨s', V', ?_, hs', fun q => ?_⟩
      · rw [expandEach, hrun, Option.bind_some]
        exact hrun'
      · rw [hV', hV₁]
        simp only [List.mem_cons, exists_eq_or_imp]
        tauto

theorem paraTopExpand_visits (hforest : env.para.IsForest) {height : Nat → Nat}
    (hheight : ∀ a b, (env.para.manager a).parent = some b → height a < height b)
    (hfit : ManagersFit env) (hroom : Roomy env heads) :
    ∀ depth m, m < env.para.paraMNum → height m < depth →
      Visits env heads (paraTopExpand env depth) m
  | depth + 1, m, hm, hdepth => by
      intro V s hs hfresh
      have hchild : ∀ c ∈ (env.para.manager m).child, (env.para.manager c).parent = some m :=
        fun c hc => hforest.parent_of_mem hc
      have hapart : (env.para.manager m).child.Pairwise fun a b =>
          ∀ q, Descends env.para.manager a q → ¬ Descends env.para.manager b q :=
        (child_nodup hforest m).imp_of_mem fun ha hb hab q hq =>
          siblings_apart hforest hheight ha hb hab hq
      obtain ⟨s₁, V₁, hrun, hs₁, hV₁⟩ := expandEach_visits _ V s
        (fun c hc => paraTopExpand_visits hforest hheight hfit hroom depth c
          (hforest.parent_lt c m (hchild c hc)).1
          (by have := hheight c m (hchild c hc); omega))
        hapart hs (fun c hc q hq => hfresh q (.head hc hq))
      have hmV : m ∉ V₁ := by
        intro hmem
        rcases (hV₁ m).mp hmem with hold | ⟨c, hc, hdesc⟩
        · exact hfresh m .refl hold
        · have := Descends.height_le hforest hheight hdesc
          have := hheight c m (hchild c hc)
          omega
      obtain ⟨s', hins, hnew, hinv⟩ := hs₁.inv.step hfit hroom hm hs₁.below hmV hs₁.new_eq
      refine ⟨s', insert m V₁, ?_, ⟨hnew, fun q hq => ?_, hinv⟩, fun q => ?_⟩
      · rw [paraTopExpand, hrun, Option.bind_some]
        exact hins
      · rcases Finset.mem_insert.mp hq with rfl | hq
        · exact hm
        · exact hs₁.below q hq
      · rw [Finset.mem_insert, hV₁]
        constructor
        · rintro (rfl | hold | ⟨c, hc, hdesc⟩)
          · exact Or.inr .refl
          · exact Or.inl hold
          · exact Or.inr (.head hc hdesc)
        · rintro (hold | hdesc)
          · exact Or.inr (Or.inl hold)
          · rcases Relation.ReflTransGen.cases_head hdesc with rfl | ⟨c, hc, hdesc⟩
            · exact Or.inl rfl
            · exact Or.inr (Or.inr ⟨c, hc, hdesc⟩)

end Visit

/-! ## The whole tree -/

/-- A tree of pointers over the bunsetsu and the copies of the last ends. Each
node but the last bunsetsu stands once in the child arrays, at its parent, which
is its head or a copy of it. -/
structure IsDpndTree (env : TreeEnv) (heads : Nat → Int) (nodes : Nat) (d : TreeData) : Prop where
  terminated : ∀ p < nodes, ∃ l, l.length < PARA_PART_MAX ∧ NullArray.Reads (d.child p) l
  root : d.parent (env.bnstNum - 1) = none
  once : ∀ c < nodes, c + 1 ≠ env.bnstNum → ∃ p < nodes, d.parent c = some p ∧
    ∀ q < nodes, ∀ l, NullArray.Reads (d.child q) l → l.count c = if q = p then 1 else 0
  head : ∀ c, c + 1 < env.bnstNum → ∃ p, d.parent c = some p ∧ ((p : Int) = heads c ∨
    env.bnstNum ≤ p ∧ d.num p = heads c ∧ ∃ m < env.para.paraMNum, (topOf env m : Int) = heads c)
  reachable : ∀ c < nodes, Relation.ReflTransGen (IsChild d) (env.bnstNum - 1) c

section Whole

variable {env : TreeEnv} {heads : Nat → Int} {V : Finset Nat} {d d' : TreeData} {nodes c : Nat}

/-- Heads lie behind their modifiers. -/
def Forward (n : Nat) (heads : Nat → Int) : Prop :=
  ∀ i, i + 1 < n → ∃ j : Nat, heads i = j ∧ i < j ∧ j < n

theorem CompleteHeads.forward (h : CompleteHeads env.bnstNum d) (hfit : ManagersFit env) :
    Forward env.bnstNum (headOf env d) := by
  intro i hi
  rcases headOf_cases env d i with ⟨m, hm, hcoord, heq⟩ | heq
  · exact ⟨_, heq, coordinates_bound hfit hm hcoord⟩
  · obtain ⟨hlo, hhi⟩ := h.head_lt i hi
    exact ⟨(d.dpndHead i).toNat, by omega, by omega, by omega⟩

/-- The child arrays have room for a NULL. -/
theorem TreeInv.length_lt (hroom : Roomy env heads) (hV : ∀ q ∈ V, q < env.para.paraMNum)
    (h : TreeInv env heads V nodes d) {p : Nat} (hp : p < nodes) {l : List Nat}
    (hreads : NullArray.Reads (d.child p) l) : l.length < PARA_PART_MAX := by
  obtain ⟨e, he, hpe, -⟩ := h.num_new p hp
  obtain ⟨l', hreads', -, -, hlen⟩ := h.reads p hp
  rw [hreads.unique hreads']
  have hsub : V ⊆ Finset.range env.para.paraMNum := fun q hq => Finset.mem_range.mpr (hV q hq)
  have hcard := Finset.card_le_card (Finset.filter_subset_filter (topOf env · = e) hsub)
  have := hroom.children e he
  have := hlen e hpe
  omega

/-- A node stands in the array of its parent only. -/
theorem TreeInv.count_eq (h : TreeInv env heads V nodes d) {p q : Nat}
    (hparent : d.parent c = some p) (hlisted : ∃ l, NullArray.Reads (d.child p) l ∧ c ∈ l)
    (hq : q < nodes) {l : List Nat} (hreads : NullArray.Reads (d.child q) l) :
    l.count c = if q = p then 1 else 0 := by
  obtain ⟨l', hreads', hnodup, hmem, -⟩ := h.reads q hq
  obtain rfl := hreads.unique hreads'
  split_ifs with hqp
  · subst hqp
    obtain ⟨l₁, hreads₁, hc⟩ := hlisted
    rw [hreads.unique hreads₁] at hnodup ⊢
    exact List.count_eq_one_of_mem hnodup hc
  · refine List.count_eq_zero_of_not_mem fun hc => hqp ?_
    have hsame := (hmem c hc).2.symm.trans hparent
    exact Option.some.inj hsame

theorem TreeInv.isChild (hroom : Roomy env heads) (hV : ∀ q ∈ V, q < env.para.paraMNum)
    (h : TreeInv env heads V nodes d) (hc : c < nodes) (hcr : c + 1 ≠ env.bnstNum) :
    ∃ p < nodes, d.parent c = some p ∧ IsChild d p c := by
  obtain ⟨p, hp, hparent, l, hreads, hcl⟩ := h.listed c hc hcr
  refine ⟨p, hp, hparent, l, h.length_lt hroom hV hp hreads, hreads, ?_⟩
  rw [h.count_eq hparent ⟨l, hreads, hcl⟩ hp hreads, if_pos rfl]

/-- Upwards the heads grow, and copies of one bunsetsu are followed by later
ones and then by the bunsetsu itself. -/
theorem TreeInv.reachable (hroom : Roomy env heads) (hV : ∀ q ∈ V, q < env.para.paraMNum)
    (hheads : Forward env.bnstNum heads) (h : TreeInv env heads V nodes d) (c : Nat)
    (hc : c < nodes) : Relation.ReflTransGen (IsChild d) (env.bnstNum - 1) c := by
  by_cases hcr : c + 1 = env.bnstNum
  · obtain rfl : c = env.bnstNum - 1 := by omega
    exact .refl
  · obtain ⟨p, hp, hparent, hchild⟩ := h.isChild hroom hV hc hcr
    have hlater : (d.num c).toNat < (d.num p).toNat ∧ (d.num p).toNat < env.bnstNum ∨
        (d.num c).toNat = (d.num p).toNat ∧ env.bnstNum ≤ c ∧ (p < env.bnstNum ∨ c < p) := by
      obtain ⟨hsmall, hbig⟩ := h.head c hc p hparent
      rcases Nat.lt_or_ge c env.bnstNum with hlt | hge
      · obtain ⟨j, hj, hcj, hjn⟩ := hheads c (by omega)
        have := hsmall hlt
        have := h.num_eq c hlt
        omega
      · obtain ⟨hsame, hpos⟩ := hbig hge
        exact Or.inr ⟨by rw [hsame], hge, hpos⟩
    exact (h.reachable hroom hV hheads p hp).tail hchild
termination_by (env.bnstNum - (d.num c).toNat, if c < env.bnstNum then 0 else nodes - c)
decreasing_by
  rw [Prod.lex_def]
  rcases hlater with ⟨hlt, hn⟩ | ⟨heq, hge, hpos⟩
  · exact Or.inl (by dsimp only; omega)
  · refine Or.inr ⟨by dsimp only; rw [heq], ?_⟩
    dsimp only
    rw [if_neg (Nat.not_lt_of_le hge)]
    split_ifs <;> omega

theorem TreeInv.isDpndTree (hroom : Roomy env heads) (hV : ∀ q ∈ V, q < env.para.paraMNum)
    (hbnst : env.bnstNum ≤ nodes) (hheads : Forward env.bnstNum heads)
    (h : TreeInv env heads V nodes d) : IsDpndTree env heads nodes d where
  terminated p hp := by
    obtain ⟨l, hreads, -⟩ := h.reads p hp
    exact ⟨l, h.length_lt hroom hV hp hreads, hreads⟩
  root := h.root
  once c hc hcr := by
    obtain ⟨p, hp, hparent, hlisted⟩ := h.listed c hc hcr
    exact ⟨p, hp, hparent, fun q hq l hreads => h.count_eq hparent hlisted hq hreads⟩
  head c hc := by
    obtain ⟨p, hp, hparent, -⟩ := h.listed c (by omega) (by omega)
    have hnum := (h.head c (by omega) p hparent).1 (by omega)
    refine ⟨p, hparent, ?_⟩
    rcases Nat.lt_or_ge p env.bnstNum with hlt | hge
    · exact Or.inl (by rw [← hnum, h.num_eq p hlt])
    · obtain ⟨e, he, hpe, hcopy⟩ := h.num_new p hp
      obtain ⟨m, hm, htop⟩ := hcopy hge
      exact Or.inr ⟨hge, hnum, m, hV m hm, by rw [htop, ← hpe, hnum]⟩
  reachable c hc := h.reachable hroom hV hheads c hc

theorem CompleteHeads.merged_eq_false (h : CompleteHeads env.bnstNum d) {i : Nat}
    (hi : i < env.bnstNum) : d.merged i = false := by
  rw [merged_eq_false_iff, h.num_eq i hi]
  omega

theorem CompleteHeads.target_eq (h : CompleteHeads env.bnstNum d) {j : Nat} (hj : j < env.bnstNum) :
    d.target j = j := if_neg (by simp [h.merged_eq_false hj])

theorem CompleteHeads.headOf_lt (h : CompleteHeads env.bnstNum d) (hfit : ManagersFit env)
    (hc : c < env.bnstNum) : headOf env d c < env.bnstNum := by
  rcases Nat.lt_or_eq_of_le (Nat.succ_le_of_lt hc) with hlt | hlast
  · obtain ⟨j, hj, -, hjn⟩ := h.forward hfit c hlt
    omega
  · rcases headOf_cases env d c with ⟨m, hm, hcoord, heq⟩ | heq
    · have := (coordinates_bound hfit hm hcoord).2
      omega
    · rw [heq, h.last_head c hlast]
      omega

/-- Without merged bunsetsu the children are the modifiers. -/
theorem CompleteHeads.mem_kids_iff (h : CompleteHeads env.bnstNum d) (hfit : ManagersFit env)
    {p : Nat} (hp : p < env.bnstNum) :
    c ∈ d.kids (headOf env d) p ↔ c < p ∧ headOf env d c = p := by
  rw [mem_kids]
  constructor
  · rintro ⟨j, hcj, hjp⟩
    obtain ⟨hlt, hlink⟩ := mem_attached.mp hcj
    have hcp : c ≤ p := by
      rw [← hjp]
      unfold target
      split_ifs <;> omega
    have hbuf := (links_iff.mp hlink).2.1
    have hjn : j < env.bnstNum := by
      have := h.headOf_lt hfit (hcp.trans_lt hp)
      omega
    rw [h.target_eq hjn] at hjp
    subst hjp
    exact ⟨hlt, hbuf⟩
  · rintro ⟨hcp, hhead⟩
    refine ⟨p, mem_attached.mpr ⟨hcp, links_iff.mpr ⟨h.merged_eq_false (hcp.trans hp), hhead, ?_⟩⟩,
      h.target_eq hp⟩
    rw [h.merged_eq_false hp]
    exact fun hskip => Bool.false_ne_true hskip.1

theorem CompleteHeads.kids_length_le (h : CompleteHeads env.bnstNum d) (hfit : ManagersFit env)
    {p : Nat} (hp : p < env.bnstNum) :
    (d.kids (headOf env d) p).length ≤ modifierNum env (headOf env d) p := by
  rw [← List.toFinset_card_of_nodup kids_nodup]
  refine Finset.card_le_card fun c hc => ?_
  obtain ⟨hcp, hhead⟩ := (h.mem_kids_iff hfit hp).mp (List.mem_toFinset.mp hc)
  exact Finset.mem_filter.mpr ⟨Finset.mem_range.mpr (hcp.trans hp), hhead⟩

/-- The tree of `make_simple_tree` has no copies. -/
theorem SimpleTree.treeInv (hbnst : env.bnstNum ≤ BNST_MAX) (hcomplete : CompleteHeads env.bnstNum d)
    (hfit : ManagersFit env)
    (h : SimpleTree (headOf env d) env.bnstNum (initBnstTreeProperty d) d') :
    TreeInv env (headOf env d) ∅ env.bnstNum d' := by
  have hnum : ∀ i < env.bnstNum, d'.num i = i := fun i hi => by
    rw [h.num_eq]
    exact hcomplete.num_eq i hi
  have hparent : ∀ p < env.bnstNum, ∀ c, c ∈ d.kids (headOf env d) p → d'.parent c = some p := by
    intro p hp c hc
    obtain ⟨j, hcj, hjp⟩ := mem_kids.mp hc
    obtain ⟨hcp, hhead⟩ := (hcomplete.mem_kids_iff hfit hp).mp hc
    have hbuf := (links_iff.mp (mem_attached.mp hcj).2).2.1
    obtain rfl : j = p := by omega
    have htarget : (initBnstTreeProperty d).target j = d.target j := rfl
    rw [h.parent_eq j c hp hcj, htarget, hcomplete.target_eq hp]
  have hroot : d'.parent (env.bnstNum - 1) = none := by
    have hpos : 0 < BNST_MAX := Nat.zero_lt_succ _
    rw [h.parent_keep _ fun j hj hmem => ?_, initBnstTreeProperty_parent (by omega)]
    have := (mem_attached.mp hmem).1
    omega
  have hlisted : ∀ c, c + 1 < env.bnstNum → ∃ j < env.bnstNum, headOf env d c = j ∧
      c ∈ d.kids (headOf env d) j := by
    intro c hc
    obtain ⟨j, hj, hcj, hjn⟩ := hcomplete.forward hfit c hc
    exact ⟨j, hjn, hj, (hcomplete.mem_kids_iff hfit hjn).mpr ⟨hcj, hj⟩⟩
  refine ⟨hnum, fun x hx => ⟨x, hx, hnum x hx, fun hge => absurd hx (Nat.not_lt_of_le hge)⟩,
    fun p hp => ?_, hroot, fun c hc hcr => ?_,
    fun c hc p hp => ⟨fun _ => ?_, fun hge => absurd hc (Nat.not_lt_of_le hge)⟩⟩
  · obtain ⟨l, hperm, hreads⟩ := h.reads p hp
    refine ⟨l, hreads, hperm.nodup_iff.mpr kids_nodup, fun c hc => ?_, fun e he => ?_⟩
    · have hkid : c ∈ d.kids (headOf env d) p := hperm.mem_iff.mp hc
      exact ⟨((hcomplete.mem_kids_iff hfit hp).mp hkid).1.trans hp, hparent p hp c hkid⟩
    · rw [hnum p hp] at he
      obtain rfl : p = e := by exact_mod_cast he
      rw [hperm.length_eq]
      exact (hcomplete.kids_length_le hfit hp).trans (Nat.le_add_right _ _)
  · obtain ⟨j, hjn, -, hmem⟩ := hlisted c (by omega)
    obtain ⟨l, hperm, hreads⟩ := h.reads j hjn
    exact ⟨j, hjn, hparent j hjn c hmem, l, hreads, hperm.mem_iff.mpr hmem⟩
  · have hcr : c + 1 < env.bnstNum := by
      by_contra hge
      obtain rfl : c = env.bnstNum - 1 := by omega
      rw [hroot] at hp
      cases hp
    obtain ⟨j, hjn, hj, hmem⟩ := hlisted c hcr
    rw [hparent j hjn c hmem] at hp
    obtain rfl := Option.some.inj hp
    rw [hnum j hjn, hj]

/-- `make_dpnd_tree` makes the tree of the heads, if there is room. -/
theorem makeDpndTree_isDpndTree (hcomplete : CompleteHeads env.bnstNum d) (hfit : ManagersFit env)
    (hforest : env.para.IsForest) (hroom : Roomy env (headOf env d)) :
    ∃ s, makeDpndTree env d = some (true, s) ∧
      IsDpndTree env (headOf env d) (env.bnstNum + s.newBnstNum) s.data := by
  have hheads : Forward env.bnstNum (headOf env d) := hcomplete.forward hfit
  have hbnst : env.bnstNum ≤ BNST_MAX := (Nat.le_add_right _ _).trans hroom.nodes
  have hbuf : headBuffer env (initBnstTreeProperty d) = headOf env d := headBuffer_eq
  have hkids : ∀ p < env.bnstNum, (d.kids (headOf env d) p).length < PARA_PART_MAX := by
    intro p hp
    have := hcomplete.kids_length_le hfit hp
    have := hroom.children p hp
    omega
  obtain ⟨d', hrun, htree⟩ := makeSimpleTree_spec env (d := initBnstTreeProperty d)
    (fun hpos => hcomplete.merged_eq_false hpos)
    (by rw [hbuf]; exact fun x hx _ => hcomplete.headOf_lt hfit hx) (by rw [hbuf]; exact hkids)
  rw [hbuf] at htree
  have hstart : Expanded env (headOf env d) ∅ ⟨d', 0⟩ :=
    ⟨rfl, fun q hq => absurd hq (Finset.notMem_empty q), htree.treeInv hbnst hcomplete hfit⟩
  obtain ⟨height, hheight, hbound⟩ := exists_height hforest.parent_lt hforest.acyclic
  have hroots : ∀ m ∈ env.para.roots, m < env.para.paraMNum ∧ (env.para.manager m).parent = none :=
    fun m hm => by simpa [ParaState.roots] using hm
  have hapart : env.para.roots.Pairwise fun a b =>
      ∀ q, Descends env.para.manager a q → ¬ Descends env.para.manager b q := by
    have hnodup : env.para.roots.Nodup := List.Nodup.filter _ List.nodup_range
    exact hnodup.imp_of_mem fun ha hb hab q hq =>
      roots_apart hforest (hroots _ ha).2 (hroots _ hb).2 hab hq
  obtain ⟨s, V, hexpand, hs, -⟩ := expandEach_visits _ ∅ ⟨d', 0⟩
    (fun m hm => paraTopExpand_visits hforest hheight hfit hroom _ m (hroots m hm).1
      (hbound m (hroots m hm).1)) hapart hstart (fun m _ q _ => Finset.notMem_empty q)
  refine ⟨s, ?_, hs.inv.isDpndTree hroom hs.below (Nat.le_add_right _ _) hheads⟩
  unfold makeDpndTree
  rw [hrun, Option.bind_some, hexpand]

end Whole

/-! ## Two sentences -/

/-- Three bunsetsu, the first two of which are coordinated. -/
def pairEnv : TreeEnv where
  bnstNum := 3
  mask _ _ := 1
  para := { initParaManager fun _ _ => .not with
    manager := fun _ => ⟨[0], [0, 1], [0, 1], none, [], .w⟩
    paraMNum := 1 }

theorem pairEnv_isDpndTree : ∃ s, makeDpndTree pairEnv (bunsetsuOf [1, 2]) = some (true, s) ∧
    IsDpndTree pairEnv (headOf pairEnv (bunsetsuOf [1, 2])) (3 + s.newBnstNum) s.data := by
  have hcomplete : CompleteHeads 3 (bunsetsuOf [1, 2]) :=
    ⟨fun _ _ => rfl, fun i hi => by
      rcases (by omega : i = 0 ∨ i = 1) with rfl | rfl <;> decide,
      fun i hi => by
        obtain rfl : i = 2 := by omega
        rfl⟩
  have hfit : ManagersFit pairEnv := by
    intro m hm
    obtain rfl : m = 0 := Nat.lt_one_iff.mp hm
    exact ⟨⟨by decide, by decide, fun k hk => by
      obtain rfl : k = 0 := Nat.lt_one_iff.mp (Nat.lt_of_succ_lt_succ hk)
      decide⟩, by decide⟩
  have hforest : pairEnv.para.IsForest := by
    refine ⟨fun m p hp => (by cases hp), fun m hm => ?_, fun m p hp => (by cases hp),
      fun m _ q => List.not_mem_nil⟩
    obtain ⟨a, -, ha⟩ := Relation.TransGen.tail'_iff.mp hm
    cases ha
  have hroom : Roomy pairEnv (headOf pairEnv (bunsetsuOf [1, 2])) := by
    refine ⟨by decide, fun e _ => ?_⟩
    have hmods : modifierNum pairEnv (headOf pairEnv (bunsetsuOf [1, 2])) e ≤ 3 :=
      (Finset.card_filter_le _ _).trans_eq (Finset.card_range 3)
    have htops : ((Finset.range pairEnv.para.paraMNum).filter (topOf pairEnv · = e)).card ≤ 1 :=
      (Finset.card_filter_le _ _).trans_eq (Finset.card_range 1)
    have hmax : 4 < PARA_PART_MAX := by decide
    omega
  exact makeDpndTree_isDpndTree hcomplete hfit hforest hroom

/-- The last one of 33 bunsetsu is the head of all others: the first one is not
in the tree, although `make_dpnd_tree` succeeds. -/
theorem manyModifiers_not_isDpndTree : CompleteHeads 33 (bunsetsuOf (List.replicate 32 32)) ∧
    ∃ s, makeDpndTree (plainEnv 33) (bunsetsuOf (List.replicate 32 32)) = some (true, s) ∧
      s.newBnstNum = 0 ∧ s.data.parent 0 = none ∧
      ¬ IsDpndTree (plainEnv 33) (headOf (plainEnv 33) (bunsetsuOf (List.replicate 32 32)))
        (33 + s.newBnstNum) s.data := by
  refine ⟨⟨fun _ _ => rfl, fun i hi => ?_, fun i hi => ?_⟩, ?_⟩
  · have hhead : (bunsetsuOf (List.replicate 32 32)).dpndHead i = 32 := by
      have hlen : i < (List.replicate 32 (32 : Int)).length := by rw [List.length_replicate]; omega
      show (List.replicate 32 (32 : Int)).getD i (-1) = 32
      rw [List.getD_eq_getElem _ _ hlen, List.getElem_replicate]
    omega
  · obtain rfl : i = 32 := by omega
    rfl
  · have hrun : (makeDpndTree (plainEnv 33) (bunsetsuOf (List.replicate 32 32))).map (fun r =>
        (r.1, r.2.newBnstNum, r.2.data.parent 0)) = some (true, 0, none) := by
      decide +kernel
    obtain ⟨⟨ok, s⟩, hs, heq⟩ := Option.map_eq_some_iff.mp hrun
    simp only [Prod.mk.injEq] at heq
    obtain ⟨rfl, hnew, hparent⟩ := heq
    refine ⟨s, hs, hnew, hparent, fun h => ?_⟩
    obtain ⟨p, -, hp, -⟩ := h.once 0 (by omega) (by decide)
    rw [hparent] at hp
    cases hp

end Knp
