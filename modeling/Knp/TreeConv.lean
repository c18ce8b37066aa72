import Mathlib.Data.List.Nodup
import Knp.NullArray
import Knp.ParaDpnd

/-!
# The dependency tree (`tree_conv.c`)

`make_dpnd_tree` turns the heads of the bunsetsu into a tree of pointers. The
heads inside a coordination are led to its last bunsetsu first; then
`make_simple_tree` links each bunsetsu to its head, and `para_top_expand` puts
a node for each coordination above its last bunsetsu, without `-expand`.

Before it, `tag_bnst_postprocess` may have merged bunsetsu into the preceding
ones (`num` is -1). Pointers to bunsetsu are indices of `bnst_data`. `none` in
place of a result means that the source writes outside its arrays.
-/

namespace Knp

def BNST_MAX : Nat := 200

def TAG_MAX : Nat := 200

/-- `PARA_NIL`, `PARA_NORMAL`, `PARA_INCOMP`. -/
inductive ParaType
  | nil
  | normal
  | incomp
deriving DecidableEq, Repr

/-- What the conversion reads and does not change. -/
structure TreeEnv where
  bnstNum : Nat
  /-- `Mask_matrix` -/
  mask : Nat → Nat → Nat
  /-- `para_manager` -/
  para : ParaState

/-- The fields of `bnst_data` that the conversion is about. -/
structure TreeData where
  num : Nat → Int
  dpndHead : Nat → Int
  parent : Nat → Option Nat
  child : Nat → Nat → Option Nat
  paraTopP : Nat → Bool
  paraType : Nat → ParaType
  toParaP : Nat → Bool

namespace TreeData

/-- Bunsetsu `i` has been merged into a preceding one. -/
def merged (b : TreeData) (i : Nat) : Bool := b.num i = -1

/-- The `num` behind a pointer that is not NULL. -/
def numOf (b : TreeData) (p : Option Nat) : Int := p.elim 0 b.num

/-- `bnst_data[p].child[k] = v` -/
def setChild (p k : Nat) (v : Option Nat) (b : TreeData) : Option TreeData :=
  if k < PARA_PART_MAX then
    some { b with child := Function.update b.child p (Function.update (b.child p) k v) }
  else none

end TreeData

/-! ## Merged bunsetsu -/

/-- The bunsetsu that takes in bunsetsu `b` (`merge_to`). -/
def mergeTo (d : TreeData) (b : Nat) : Option Nat :=
  (List.range b).reverse.find? fun i => 0 ≤ d.num i

/-- One turn of `tag_bnst_postprocess`, for a bunsetsu whose first tag has the
feature Ｔマージ←. -/
def mergeBnst (b : Nat) (d : TreeData) : Option TreeData :=
  (mergeTo d b).map fun absorber =>
    { d with
      num := Function.update d.num b (-1)
      dpndHead := Function.update d.dpndHead absorber (d.dpndHead b) }

/-- `tag_bnst_postprocess(sp, 0)`, which keeps the numbers. -/
def bnstPostprocess (bnstNum : Nat) (merge : Nat → Bool) (d : TreeData) : Option TreeData :=
  Loop.upTo? 0 bnstNum (fun b d => if merge b then mergeBnst b d else some d) d

/-- `get_correct_postprocessed_bnst_num`; `none` for -1. -/
def getCorrectPostprocessedBnstNum (d : TreeData) (num : Nat) : Option Nat :=
  (List.range (num + 1)).reverse.find? fun i => !d.merged i

/-! ## Links -/

/-- `init_bnst_tree_property` -/
def initBnstTreeProperty (d : TreeData) : TreeData :=
  { d with
    parent := fun i => if i < BNST_MAX then none else d.parent i
    child := fun i k => if i < BNST_MAX ∧ k = 0 then none else d.child i k
    paraTopP := fun i => if i < BNST_MAX then false else d.paraTopP i
    paraType := fun i => if i < BNST_MAX then .nil else d.paraType i
    toParaP := fun i => if i < BNST_MAX then false else d.toParaP i }

theorem initBnstTreeProperty_parent {d : TreeData} {i : Nat} (h : i < BNST_MAX) :
    (initBnstTreeProperty d).parent i = none := if_pos h

/-- dpnd.head[i]をbuffer[i]にコピーし，並列構造では係先を末尾のheadに変更する -/
def headBuffer (env : TreeEnv) (d : TreeData) : Nat → Int :=
  Loop.upTo 0 env.para.paraMNum (fun m buffer =>
    let mgr := env.para.manager m
    let top : Int := mgr.stop mgr.last
    Loop.upTo 0 mgr.last (fun j buffer =>
      let buffer := Function.update buffer (mgr.stop j) top
      fun k =>
        if mgr.start j ≤ k ∧ k ≤ mgr.stop j ∧ env.mask k (mgr.stop j) = 3 then top else buffer k)
      buffer) d.dpndHead

/-- The tree and the counters of the loops over heads and modifiers. -/
structure LinkState where
  data : TreeData
  childNum : Nat
  preNodeChildNum : Nat

/-- Modifier `i` becomes the next child of head `j`, or of `j - 1` if `j` has
been merged. -/
def addModifier (j i : Nat) (s : LinkState) : Option LinkState :=
  if s.data.merged j then
    (s.data.setChild (j - 1) s.preNodeChildNum (some i)).map fun data =>
      { s with data := data, preNodeChildNum := s.preNodeChildNum + 1 }
  else
    (s.data.setChild j s.childNum (some i)).map fun data =>
      { s with data := data, childNum := s.childNum + 1 }

def linkParent (env : TreeEnv) (j i : Nat) (d : TreeData) : TreeData :=
  { d with
    parent := Function.update d.parent i (some (if d.merged j then j - 1 else j))
    paraType := if env.mask i j = 3 then Function.update d.paraType i .incomp else d.paraType }

/-- 係り側: the modifiers of `j` among the bunsetsu below `n`. -/
def linkModifiers (env : TreeEnv) (buffer : Nat → Int) (j : Nat) :
    Nat → LinkState → Option LinkState
  | 0, s => some s
  | i + 1, s =>
      if s.data.merged i then linkModifiers env buffer j i s
      else if buffer i = j then
        -- マージ側 -> マージされた側: スキップ
        if s.data.merged j ∧ j = i + 1 then linkModifiers env buffer j i s
        else (addModifier j i s).bind fun s =>
          if PARA_PART_MAX ≤ s.childNum then some { s with childNum := PARA_PART_MAX - 1 }
          else linkModifiers env buffer j i { s with data := linkParent env j i s.data }
      else linkModifiers env buffer j i s

/-- 受け側: head `j`, with the number of children that head `j + 1` has left it. -/
def linkHead (env : TreeEnv) (buffer : Nat → Int) (j pre : Nat) (d : TreeData) :
    Option (Nat × TreeData) :=
  (linkModifiers env buffer j j ⟨d, pre, 0⟩).bind fun s =>
    (s.data.setChild j s.childNum none).map fun d => (s.preNodeChildNum, d)

/-- The heads below `n`. -/
def linkHeads (env : TreeEnv) (buffer : Nat → Int) : Nat → Nat → TreeData → Option TreeData
  | 0, _, d => some d
  | j + 1, pre, d =>
      (linkHead env buffer j pre d).bind fun (pre, d) => linkHeads env buffer j pre d

/-- 子供をsort -/
def sortChildren (num : Option Nat → Int) (childNum : Nat) (child : Nat → Option Nat) :
    Nat → Option Nat :=
  Loop.upTo 0 (childNum - 1) (fun i child =>
    Loop.upTo (i + 1) childNum (fun k child =>
      if num (child i) < num (child k) then NullArray.swap child i k else child) child) child

def sortHead (j : Nat) (d : TreeData) : Option TreeData :=
  (NullArray.count PARA_PART_MAX (d.child j)).map fun childNum =>
    { d with child := Function.update d.child j (sortChildren d.numOf childNum (d.child j)) }

def sortHeads : Nat → TreeData → Option TreeData
  | 0, d => some d
  | j + 1, d => (sortHead j d).bind (sortHeads j)

def makeSimpleTree (env : TreeEnv) (d : TreeData) : Option TreeData :=
  (linkHeads env (headBuffer env d) env.bnstNum 0 d).bind (sortHeads env.bnstNum)

/-! ## The children of a bunsetsu -/

namespace TreeData

/-- Where the modifiers of `j` become children. -/
def target (d : TreeData) (j : Nat) : Nat := if d.merged j then j - 1 else j

/-- Bunsetsu `i` becomes a child in the turn of head `j`. -/
def links (d : TreeData) (buffer : Nat → Int) (j i : Nat) : Bool :=
  !d.merged i && buffer i = j && !(d.merged j && j = i + 1)

/-- The modifiers of `j` below `n`, the last one first. -/
def attached (d : TreeData) (buffer : Nat → Int) (j n : Nat) : List Nat :=
  (List.range n).reverse.filter (d.links buffer j)

/-- The children that `j - 1` gets in the turn of `j`. -/
def handedDown (d : TreeData) (buffer : Nat → Int) (j : Nat) : List Nat :=
  if d.merged j then d.attached buffer j j else []

/-- All children of `p`. -/
def kids (d : TreeData) (buffer : Nat → Int) (p : Nat) : List Nat :=
  d.handedDown buffer (p + 1) ++ if d.merged p then [] else d.attached buffer p p

end TreeData

section Links

variable {env : TreeEnv} {buffer : Nat → Int} {d d' : TreeData} {s s' : LinkState} {i j n p x : Nat}

open TreeData

theorem merged_eq_true_iff : d.merged i = true ↔ d.num i = -1 := decide_eq_true_iff

theorem merged_eq_false_iff : d.merged i = false ↔ d.num i ≠ -1 := decide_eq_false_iff_not

theorem merged_congr (h : d'.num = d.num) : d'.merged = d.merged := by
  funext i
  unfold merged
  rw [h]

theorem target_congr (h : d'.num = d.num) : d'.target = d.target := by
  funext j
  unfold target
  rw [merged_congr h]

theorem attached_congr (h : d'.num = d.num) : d'.attached buffer = d.attached buffer := by
  funext j n
  unfold attached links
  rw [merged_congr h]

theorem links_iff : d.links buffer j i ↔
    d.merged i = false ∧ buffer i = j ∧ ¬ (d.merged j ∧ j = i + 1) := by
  unfold links
  simp only [Bool.and_eq_true, Bool.not_eq_true', decide_eq_true_eq, and_assoc, Bool.and_eq_false_iff]
  grind

theorem attached_succ : d.attached buffer j (n + 1) =
    if d.links buffer j n then n :: d.attached buffer j n else d.attached buffer j n := by
  unfold attached
  rw [List.range_succ, List.reverse_append, List.reverse_singleton, List.singleton_append,
    List.filter_cons]

theorem mem_attached : i ∈ d.attached buffer j n ↔ i < n ∧ d.links buffer j i := by
  simp [attached]

theorem attached_nodup : (d.attached buffer j n).Nodup :=
  List.Nodup.filter _ (List.nodup_reverse.mpr List.nodup_range)

theorem setChild_eq {k : Nat} {v : Option Nat} (hk : k < PARA_PART_MAX) :
    d.setChild p k v = some
      { d with child := Function.update d.child p (Function.update (d.child p) k v) } := if_pos hk

namespace LinkState

/-- The counter for the children of `target j`, and the other one. -/
def counter (s : LinkState) (j : Nat) : Nat :=
  if s.data.merged j then s.preNodeChildNum else s.childNum

def otherCounter (s : LinkState) (j : Nat) : Nat :=
  if s.data.merged j then s.childNum else s.preNodeChildNum

end LinkState

namespace LinkState

theorem counter_of_merged (h : s.data.merged j = true) : s.counter j = s.preNodeChildNum := if_pos h

theorem otherCounter_of_merged (h : s.data.merged j = true) : s.otherCounter j = s.childNum :=
  if_pos h

theorem counter_of_not (h : s.data.merged j = false) : s.counter j = s.childNum :=
  if_neg (by simp [h])

theorem otherCounter_of_not (h : s.data.merged j = false) :
    s.otherCounter j = s.preNodeChildNum := if_neg (by simp [h])

end LinkState

/-- The state with one more child. -/
def LinkState.add (j i : Nat) (s : LinkState) : LinkState where
  data := { s.data with
    child := Function.update s.data.child (s.data.target j)
      (Function.update (s.data.child (s.data.target j)) (s.counter j) (some i)) }
  childNum := if s.data.merged j then s.childNum else s.childNum + 1
  preNodeChildNum := if s.data.merged j then s.preNodeChildNum + 1 else s.preNodeChildNum

theorem addModifier_eq (h : s.counter j < PARA_PART_MAX) :
    addModifier j i s = some (s.add j i) := by
  unfold addModifier LinkState.add
  unfold LinkState.counter target at *
  cases hj : s.data.merged j with
  | true =>
      simp only [hj, ↓reduceIte] at h ⊢
      rw [setChild_eq h]
      rfl
  | false =>
      simp only [hj, Bool.false_eq_true, ↓reduceIte] at h ⊢
      rw [setChild_eq h]
      rfl

/-- In the turn of `j` the children `att` have been added behind `l`. -/
structure Added (j : Nat) (l att : List Nat) (s s' : LinkState) : Prop where
  num_eq : s'.data.num = s.data.num
  counter_eq : s'.counter j = (l ++ att).length
  starts : NullArray.Starts (s'.data.child (s.data.target j)) (l ++ att)
  child_of_ne : ∀ p, p ≠ s.data.target j → s'.data.child p = s.data.child p
  parent_eq : ∀ x, s'.data.parent x =
    if x ∈ att then some (s.data.target j) else s.data.parent x
  other_eq : s'.otherCounter j = s.otherCounter j

theorem Added.refl {l : List Nat} (hcount : s.counter j = l.length)
    (hstart : NullArray.Starts (s.data.child (s.data.target j)) l) : Added j l [] s s := by
  refine ⟨rfl, ?_, ?_, fun _ _ => rfl, fun x => ?_, rfl⟩
  · rw [List.append_nil, hcount]
  · rwa [List.append_nil]
  · rw [if_neg List.not_mem_nil]

/-- One modifier is added. -/
theorem Added.single {l : List Nat} (hcount : s.counter j = l.length)
    (hstart : NullArray.Starts (s.data.child (s.data.target j)) l) :
    Added j l [i] s { s.add j i with data := linkParent env j i (s.add j i).data } where
  num_eq := rfl
  counter_eq := by
    rw [List.length_append, ← hcount]
    unfold LinkState.counter
    show (if s.data.merged j then _ else _) = _
    unfold LinkState.add
    split_ifs <;> rfl
  starts := by
    show NullArray.Starts (Function.update s.data.child _ _ _) _
    rw [Function.update_self, hcount]
    exact hstart.snoc i
  child_of_ne p hp := Function.update_of_ne hp _ _
  parent_eq x := by
    show Function.update s.data.parent i (some (s.data.target j)) x = _
    simp only [List.mem_singleton]
    split_ifs with hx
    · rw [hx, Function.update_self]
    · exact Function.update_of_ne hx _ _
  other_eq := by
    unfold LinkState.otherCounter
    show (if s.data.merged j then _ else _) = _
    unfold LinkState.add
    split_ifs <;> rfl

theorem Added.trans {s₁ s₂ : LinkState} {l att att' : List Nat} (h : Added j l att s s₁)
    (h' : Added j (l ++ att) att' s₁ s₂) : Added j l (att ++ att') s s₂ where
  num_eq := h'.num_eq.trans h.num_eq
  counter_eq := by rw [h'.counter_eq, List.append_assoc]
  starts := by
    have := h'.starts
    rwa [target_congr h.num_eq, List.append_assoc] at this
  child_of_ne p hp := by
    rw [h'.child_of_ne p (by rwa [target_congr h.num_eq]), h.child_of_ne p hp]
  parent_eq x := by
    rw [h'.parent_eq, h.parent_eq, target_congr h.num_eq]
    simp only [List.mem_append]
    split_ifs with h₁ h₂ h₃ h₃ h₃ <;> first | rfl | grind
  other_eq := h'.other_eq.trans h.other_eq

theorem Added.childNum_lt {l att : List Nat} (h : Added j l att s s')
    (hnum : s.data.merged j → s.childNum < PARA_PART_MAX) (hcap : (l ++ att).length < PARA_PART_MAX) :
    s'.childNum < PARA_PART_MAX := by
  cases hj : s.data.merged j with
  | true =>
      have hj' : s'.data.merged j = true := by rw [merged_congr h.num_eq, hj]
      have hother := h.other_eq
      rw [LinkState.otherCounter_of_merged hj', LinkState.otherCounter_of_merged hj] at hother
      rw [hother]
      exact hnum hj
  | false =>
      have hj' : s'.data.merged j = false := by rw [merged_congr h.num_eq, hj]
      have hcount := h.counter_eq
      rw [LinkState.counter_of_not hj'] at hcount
      rw [hcount]
      exact hcap

variable (env buffer j) in
/-- The modifiers of `j` become children, if there is room. -/
theorem linkModifiers_added : ∀ (n : Nat) (s : LinkState) {l : List Nat},
    s.counter j = l.length → NullArray.Starts (s.data.child (s.data.target j)) l →
    l.length + (s.data.attached buffer j n).length < PARA_PART_MAX →
    (s.data.merged j → s.childNum < PARA_PART_MAX) →
    ∃ s', linkModifiers env buffer j n s = some s' ∧
      Added j l (s.data.attached buffer j n) s s'
  | 0, s, l, hcount, hstart, _, _ => ⟨s, rfl, Added.refl hcount hstart⟩
  | i + 1, s, l, hcount, hstart, hcap, hnum => by
      rw [attached_succ] at hcap ⊢
      unfold linkModifiers
      by_cases hlink : s.data.links buffer j i
      · obtain ⟨hi, hbuf, hskip⟩ := links_iff.mp hlink
        rw [if_pos hlink, List.length_cons] at hcap
        rw [if_neg (by simp [hi]), if_pos hbuf, if_neg hskip, if_pos hlink,
          addModifier_eq (by omega), Option.bind_some]
        have hone : Added j l [i] s { s.add j i with data := linkParent env j i (s.add j i).data } :=
          Added.single hcount hstart
        have hroom : (s.add j i).childNum < PARA_PART_MAX :=
          hone.childNum_lt hnum (by rw [List.length_append, List.length_singleton]; omega)
        rw [if_neg (Nat.not_le_of_lt hroom)]
        obtain ⟨s', hrun, hadd⟩ := linkModifiers_added i
          { s.add j i with data := linkParent env j i (s.add j i).data } hone.counter_eq
          (by rw [target_congr hone.num_eq]; exact hone.starts)
          (by
            rw [attached_congr hone.num_eq, List.length_append, List.length_singleton]
            omega)
          fun _ => hroom
        rw [attached_congr hone.num_eq] at hadd
        exact ⟨s', hrun, hone.trans hadd⟩
      · rw [if_neg hlink] at hcap ⊢
        obtain ⟨s', hrun, hadd⟩ := linkModifiers_added i s hcount hstart hcap hnum
        refine ⟨s', ?_, hadd⟩
        rw [links_iff] at hlink
        split_ifs with h₁ h₂ h₃
        · exact hrun
        · exact hrun
        · exact absurd ⟨by simpa using h₁, h₂, h₃⟩ hlink
        · exact hrun

theorem attached_eq_nil_of_lt {n : Nat} (hbuf : ∀ x < n, d.merged x = false → buffer x < n) :
    d.attached buffer n n = [] := by
  refine List.eq_nil_iff_forall_not_mem.mpr fun x hx => ?_
  obtain ⟨hxn, hlink⟩ := mem_attached.mp hx
  obtain ⟨hx, heq, -⟩ := links_iff.mp hlink
  have := hbuf x hxn hx
  rw [heq] at this
  exact lt_irrefl _ this

theorem handedDown_congr (h : d'.num = d.num) : d'.handedDown buffer = d.handedDown buffer := by
  funext j
  unfold handedDown
  rw [merged_congr h, attached_congr h]

theorem kids_congr (h : d'.num = d.num) : d'.kids buffer = d.kids buffer := by
  funext p
  unfold kids
  rw [handedDown_congr h, merged_congr h, attached_congr h]

theorem mem_kids : i ∈ d.kids buffer p ↔ ∃ j, i ∈ d.attached buffer j j ∧ d.target j = p := by
  unfold kids handedDown
  rw [List.mem_append]
  constructor
  · rintro (h | h)
    · split_ifs at h with hp
      · exact ⟨p + 1, h, if_pos hp⟩
      · cases h
    · split_ifs at h with hp
      · cases h
      · exact ⟨p, h, if_neg hp⟩
  · rintro ⟨j, hi, hj⟩
    have hij := (mem_attached.mp hi).1
    unfold target at hj
    split_ifs at hj with hmerged
    · obtain rfl : j = p + 1 := by omega
      exact Or.inl (by rwa [if_pos hmerged])
    · subst hj
      exact Or.inr (by rwa [if_neg hmerged])

theorem kids_nodup : (d.kids buffer p).Nodup := by
  unfold kids handedDown
  refine List.Nodup.append ?_ ?_ fun i hi hi' => ?_
  · split_ifs
    · exact attached_nodup
    · exact List.nodup_nil
  · split_ifs
    · exact List.nodup_nil
    · exact attached_nodup
  · split_ifs at hi with hdown
    · split_ifs at hi' with hp
      · cases hi'
      · have hnext := (links_iff.mp (mem_attached.mp hi).2).2.1
        have hown := (links_iff.mp (mem_attached.mp hi').2).2.1
        omega
    · cases hi

/-- The turn of a head. -/
structure HeadDone (buffer : Nat → Int) (j : Nat) (d d' : TreeData) : Prop where
  num_eq : d'.num = d.num
  reads : NullArray.Reads (d'.child j) (d.kids buffer j)
  starts : 0 < j → NullArray.Starts (d'.child (j - 1)) (d.handedDown buffer j)
  child_of_ne : ∀ p, p ≠ j → p + 1 ≠ j → d'.child p = d.child p
  parent_eq : ∀ x, d'.parent x =
    if x ∈ d.attached buffer j j then some (d.target j) else d.parent x

variable (env) in
theorem linkHead_done (hfirst : d.merged 0 = false)
    (hstart : NullArray.Starts (d.child j) (d.handedDown buffer (j + 1)))
    (hkids : (d.kids buffer j).length < PARA_PART_MAX)
    (hdown : (d.handedDown buffer j).length < PARA_PART_MAX) :
    ∃ d', linkHead env buffer j (d.handedDown buffer (j + 1)).length d =
      some ((d.handedDown buffer j).length, d') ∧ HeadDone buffer j d d' := by
  unfold linkHead
  cases hj : d.merged j with
  | true =>
      have hpos : 0 < j := Nat.pos_of_ne_zero fun h0 => by
        rw [h0, hfirst] at hj
        cases hj
      have htarget : d.target j = j - 1 := if_pos hj
      have hown : d.kids buffer j = d.handedDown buffer (j + 1) := by
        unfold kids
        rw [if_pos hj, List.append_nil]
      have hatt : d.handedDown buffer j = d.attached buffer j j := if_pos hj
      rw [hown] at hkids
      rw [hatt] at hdown ⊢
      obtain ⟨s', hrun, hadd⟩ := linkModifiers_added env buffer j j
        ⟨d, (d.handedDown buffer (j + 1)).length, 0⟩ (l := []) (if_pos hj)
        NullArray.starts_nil (by simpa using hdown) fun _ => hkids
      have hj' : s'.data.merged j = true := by rw [merged_congr hadd.num_eq, hj]
      have hcount : s'.preNodeChildNum = (d.attached buffer j j).length := by
        rw [← LinkState.counter_of_merged hj', hadd.counter_eq, List.nil_append]
      have hother : s'.childNum = (d.handedDown buffer (j + 1)).length := by
        rw [← LinkState.otherCounter_of_merged hj', hadd.other_eq,
          LinkState.otherCounter_of_merged hj]
      have hchild : s'.data.child j = d.child j :=
        hadd.child_of_ne j (by dsimp only; omega)
      rw [hrun, Option.bind_some, hother, setChild_eq hkids, hcount]
      refine ⟨_, rfl, hadd.num_eq, ?_, fun _ => ?_, fun p hp hp' => ?_, fun x => ?_⟩
      · dsimp only
        rw [Function.update_self, hchild, hown]
        exact hstart.close
      · dsimp only
        rw [Function.update_of_ne (by omega), hatt, ← htarget]
        exact hadd.starts
      · dsimp only
        rw [Function.update_of_ne hp, hadd.child_of_ne p (by dsimp only; omega)]
      · exact hadd.parent_eq x
  | false =>
      have htarget : d.target j = j := if_neg (by simp [hj])
      have hown : d.kids buffer j = d.handedDown buffer (j + 1) ++ d.attached buffer j j := by
        unfold kids
        rw [if_neg (by simp [hj])]
      have hatt : d.handedDown buffer j = [] := if_neg (by simp [hj])
      rw [hown] at hkids
      obtain ⟨s', hrun, hadd⟩ := linkModifiers_added env buffer j j
        ⟨d, (d.handedDown buffer (j + 1)).length, 0⟩ (LinkState.counter_of_not hj)
        (by rwa [htarget]) (by simpa using hkids) fun h => by simp [hj] at h
      have hj' : s'.data.merged j = false := by rw [merged_congr hadd.num_eq, hj]
      have hcount : s'.childNum = (d.handedDown buffer (j + 1) ++ d.attached buffer j j).length := by
        rw [← LinkState.counter_of_not hj', hadd.counter_eq]
      have hother : s'.preNodeChildNum = 0 := by
        rw [← LinkState.otherCounter_of_not hj', hadd.other_eq, LinkState.otherCounter_of_not hj]
      have hstarts := hadd.starts
      rw [htarget] at hstarts
      rw [hrun, Option.bind_some, hcount, setChild_eq hkids, hother, hatt]
      refine ⟨_, rfl, hadd.num_eq, ?_, fun _ => ?_, fun p hp hp' => ?_, fun x => ?_⟩
      · dsimp only
        rw [Function.update_self, hown]
        exact hstarts.close
      · rw [hatt]
        exact NullArray.starts_nil
      · dsimp only
        rw [Function.update_of_ne hp, hadd.child_of_ne p (by rwa [htarget])]
      · exact hadd.parent_eq x

/-- The heads from `m` on have been linked. -/
structure LinkedFrom (buffer : Nat → Int) (n m : Nat) (d d' : TreeData) : Prop where
  num_eq : d'.num = d.num
  reads : ∀ p, m ≤ p → p < n → NullArray.Reads (d'.child p) (d.kids buffer p)
  parent_eq : ∀ j x, m ≤ j → j < n → x ∈ d.attached buffer j j → d'.parent x = some (d.target j)
  parent_keep : ∀ x, (∀ j, m ≤ j → j < n → x ∉ d.attached buffer j j) → d'.parent x = d.parent x

theorem HeadDone.linkedFrom {d₁ : TreeData} (hj : j < n) (h : LinkedFrom buffer n (j + 1) d d₁)
    (hdone : HeadDone buffer j d₁ d') : LinkedFrom buffer n j d d' := by
  have hparent := hdone.parent_eq
  have hreads := hdone.reads
  rw [attached_congr h.num_eq, target_congr h.num_eq] at hparent
  rw [kids_congr h.num_eq] at hreads
  refine ⟨hdone.num_eq.trans h.num_eq, fun p hp hpn => ?_, fun k x hk hkn hx => ?_,
    fun x hx => ?_⟩
  · rcases Nat.eq_or_lt_of_le hp with rfl | hlt
    · exact hreads
    · rw [hdone.child_of_ne p (by omega) (by omega)]
      exact h.reads p hlt hpn
  · rcases Nat.eq_or_lt_of_le hk with rfl | hlt
    · rw [hparent, if_pos hx]
    · rw [hparent, if_neg, h.parent_eq k x hlt hkn hx]
      intro hxj
      have hkx := (links_iff.mp (mem_attached.mp hx).2).2.1
      have hjx := (links_iff.mp (mem_attached.mp hxj).2).2.1
      omega
  · rw [hparent, h.parent_keep x fun k hk hkn => hx k (by omega) hkn]
    exact if_neg (hx j le_rfl hj)

variable (env) in
/-- The loop over the heads below `m`. -/
theorem linkHeads_spec (hfirst : 0 < n → d.merged 0 = false)
    (hkids : ∀ p < n, (d.kids buffer p).length < PARA_PART_MAX) :
    ∀ (m : Nat) {d₁ : TreeData}, m ≤ n → LinkedFrom buffer n m d d₁ →
      (d.handedDown buffer m).length < PARA_PART_MAX →
      (0 < m → NullArray.Starts (d₁.child (m - 1)) (d.handedDown buffer m)) →
      ∃ d', linkHeads env buffer m (d.handedDown buffer m).length d₁ = some d' ∧
        LinkedFrom buffer n 0 d d'
  | 0, d₁, _, h, _, _ => ⟨d₁, rfl, h⟩
  | j + 1, d₁, hm, h, hcap, hstart => by
      have hdown : (d.handedDown buffer j).length < PARA_PART_MAX := by
        cases j with
        | zero =>
            unfold handedDown
            rw [hfirst (Nat.zero_lt_of_lt hm)]
            exact Nat.zero_lt_succ _
        | succ j =>
            have := hkids j (by omega)
            unfold kids at this
            rw [List.length_append] at this
            omega
      have hnum := h.num_eq
      have hfirst₁ : d₁.merged 0 = false := by
        rw [merged_congr hnum, hfirst (Nat.zero_lt_of_lt hm)]
      have hstart₁ : NullArray.Starts (d₁.child j) (d₁.handedDown buffer (j + 1)) := by
        rw [handedDown_congr hnum]
        exact hstart (Nat.succ_pos j)
      have hkids₁ : (d₁.kids buffer j).length < PARA_PART_MAX := by
        rw [kids_congr hnum]
        exact hkids j hm
      obtain ⟨d₂, hrun, hdone⟩ := linkHead_done env hfirst₁ hstart₁ hkids₁
        (by rw [handedDown_congr hnum]; exact hdown)
      rw [handedDown_congr hnum] at hrun
      unfold linkHeads
      rw [hrun, Option.bind_some]
      refine linkHeads_spec hfirst hkids j (Nat.le_of_succ_le hm) (hdone.linkedFrom hm h) hdown ?_
      intro hpos
      have := hdone.starts hpos
      rwa [handedDown_congr hnum] at this

end Links

/-! ## The sorted children -/

section Sorting

variable {env : TreeEnv} {buffer : Nat → Int} {d d' : TreeData} {j m n p : Nat}

theorem sortChildren_reads (num : Option Nat → Int) {child : Nat → Option Nat} {l : List Nat}
    (h : NullArray.Reads child l) :
    ∃ l', l'.Perm l ∧ NullArray.Reads (sortChildren num l.length child) l' := by
  have hswap : ∀ i k, i < l.length → k < l.length → ∀ a : Nat → Option Nat,
      (∃ l', l'.Perm l ∧ NullArray.Reads a l') → ∃ l', l'.Perm l ∧
        NullArray.Reads (if num (a i) < num (a k) then NullArray.swap a i k else a) l' := by
    rintro i k hi hk a ⟨l₁, hperm, ha⟩
    split_ifs
    · obtain ⟨l₂, hperm', hswap⟩ := ha.swap (hperm.length_eq ▸ hi) (hperm.length_eq ▸ hk)
      exact ⟨l₂, hperm'.trans hperm, hswap⟩
    · exact ⟨l₁, hperm, ha⟩
  refine Loop.upTo_induction _ (fun _ a => ∃ l', l'.Perm l ∧ NullArray.Reads a l') (Nat.zero_le _)
    (fun i a _ hi ha => ?_) ⟨l, .refl l, h⟩
  exact Loop.upTo_induction _ (fun _ a => ∃ l', l'.Perm l ∧ NullArray.Reads a l')
    (by omega : i + 1 ≤ l.length)
    (fun k a _ hk ha => hswap i k (by omega) hk a ha) ha

/-- The children below `n` are those of `l`, in some order. -/
structure SortedFrom (l : Nat → List Nat) (n m : Nat) (d d' : TreeData) : Prop where
  num_eq : d'.num = d.num
  parent_eq : d'.parent = d.parent
  reads : ∀ p, m ≤ p → p < n → ∃ l', l'.Perm (l p) ∧ NullArray.Reads (d'.child p) l'
  child_eq : ∀ p < m, d'.child p = d.child p

theorem sortHeads_spec {l : Nat → List Nat} (hcap : ∀ p < n, (l p).length < PARA_PART_MAX)
    (hreads : ∀ p < n, NullArray.Reads (d.child p) (l p)) :
    ∀ (m : Nat) {d₁ : TreeData}, m ≤ n → SortedFrom l n m d d₁ →
      ∃ d', sortHeads m d₁ = some d' ∧ SortedFrom l n 0 d d'
  | 0, d₁, _, h => ⟨d₁, rfl, h⟩
  | j + 1, d₁, hm, h => by
      have hj : NullArray.Reads (d₁.child j) (l j) := by
        rw [h.child_eq j (Nat.lt_succ_self j)]
        exact hreads j hm
      obtain ⟨l', hperm, hsorted⟩ := sortChildren_reads d₁.numOf hj
      unfold sortHeads sortHead
      rw [hj.count_eq (hcap j hm), Option.map_some, Option.bind_some]
      refine sortHeads_spec hcap hreads j (Nat.le_of_succ_le hm) ⟨h.num_eq, h.parent_eq, ?_, ?_⟩
      · intro p hp hpn
        dsimp only
        by_cases hpj : p = j
        · rw [hpj, Function.update_self]
          exact ⟨l', hperm, hsorted⟩
        · rw [Function.update_of_ne hpj]
          exact h.reads p (by omega) hpn
      · intro p hp
        dsimp only
        rw [Function.update_of_ne hp.ne, h.child_eq p (by omega)]

/-- What `make_simple_tree` makes of the heads `buffer`. -/
structure SimpleTree (buffer : Nat → Int) (n : Nat) (d d' : TreeData) : Prop where
  num_eq : d'.num = d.num
  reads : ∀ p < n, ∃ l, l.Perm (d.kids buffer p) ∧ NullArray.Reads (d'.child p) l
  parent_eq : ∀ j x, j < n → x ∈ d.attached buffer j j → d'.parent x = some (d.target j)
  parent_keep : ∀ x, (∀ j < n, x ∉ d.attached buffer j j) → d'.parent x = d.parent x

variable (env) in
/-- If all children of a bunsetsu fit into its array, they become its children. -/
theorem makeSimpleTree_spec (hfirst : 0 < env.bnstNum → d.merged 0 = false)
    (hbuf : ∀ x < env.bnstNum, d.merged x = false → headBuffer env d x < env.bnstNum)
    (hkids : ∀ p < env.bnstNum, (d.kids (headBuffer env d) p).length < PARA_PART_MAX) :
    ∃ d', makeSimpleTree env d = some d' ∧ SimpleTree (headBuffer env d) env.bnstNum d d' := by
  have hnone : d.handedDown (headBuffer env d) env.bnstNum = [] := by
    unfold TreeData.handedDown
    rw [attached_eq_nil_of_lt hbuf, ite_self]
  have hstart : LinkedFrom (headBuffer env d) env.bnstNum env.bnstNum d d :=
    ⟨rfl, fun p hp hpn => absurd hpn (Nat.not_lt_of_le hp),
      fun j x hj hjn => absurd hjn (Nat.not_lt_of_le hj), fun _ _ => rfl⟩
  obtain ⟨d₁, hrun, hlinked⟩ := linkHeads_spec env hfirst hkids env.bnstNum le_rfl hstart
    (by rw [hnone]; exact Nat.zero_lt_succ _)
    (fun _ => by rw [hnone]; exact NullArray.starts_nil)
  rw [hnone, List.length_nil] at hrun
  obtain ⟨d₂, hsort, hsorted⟩ := sortHeads_spec hkids
    (fun p hp => hlinked.reads p (Nat.zero_le p) hp) env.bnstNum le_rfl
    ⟨rfl, rfl, fun p hp hpn => absurd hpn (Nat.not_lt_of_le hp), fun _ _ => rfl⟩
  refine ⟨d₂, ?_, hsorted.num_eq.trans hlinked.num_eq,
    fun p hp => hsorted.reads p (Nat.zero_le p) hp, fun j x hj hx => ?_, fun x hx => ?_⟩
  · unfold makeSimpleTree
    rw [hrun, Option.bind_some, hsort]
  · rw [hsorted.parent_eq]
    exact hlinked.parent_eq j x (Nat.zero_le j) hj hx
  · rw [hsorted.parent_eq]
    exact hlinked.parent_keep x fun j _ => hx j

end Sorting

end Knp
