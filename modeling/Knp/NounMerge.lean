import Knp.CaseMatch
import Knp.CfCache
import Knp.EllipsisChain
import Knp.WriteWindow

/-!
# A verb reading and a noun reading in one (`context.c`)

`merge_em` puts the elements and the slots of the best noun result behind those of the best verb
result. The case frame of the verb is extended in place, and the buffers for the markers of the
elements are those of the predicate, of which both results hold a copy.

> The best result is the two results side by side just if what `merge_cf_ptr` leaves as it is
> was right before.
-/

namespace Knp

open WriteWindow

def CASE_TYPE_NUM : Nat := 50

/-- A slot of `CASE_FRAME` as it is stored: a size and a number are there without a list too. The
first `ex_num` cells of `ex_list` and `ex_freq` are one list, so are those of `gex_list`. -/
@[ext] structure FrameCell where
  oblig : Int
  adjacent : Int
  pp : Fin PP_ELEMENT_MAX → Int
  sp : Int
  ppStr : Option (List UInt8)
  sm : Option (List UInt8)
  smDelete : Option (List UInt8)
  smDeleteSize : Int
  smDeleteNum : Int
  smSpecify : Option (List UInt8)
  smSpecifySize : Int
  smSpecifyNum : Int
  ex : Option (List UInt8)
  exs : List (Option (List UInt8) × Int)
  exSize : Int
  freq : Int
  semantics : Option (List UInt8)
  gexs : List (Option (List UInt8) × Rat)
  gexSize : Int
  weight : Int

/-- The slots of `CASE_FRAME`, those behind the last one too. -/
structure StoredFrame where
  elementNum : Nat
  slot : Nat → FrameCell

/-- An element of the predicate in a result. -/
structure ResultElement where
  pp : Fin PP_ELEMENT_MAX → Int
  elemBPtr : Option Nat
  elemSPtr : Option Nat
  elemBNum : Int

/-- `ELLIPSIS_CMM`; `cfPtr` is the address of the frame. -/
structure EllipsisCmm (S : Type*) where
  elementNum : Nat
  elem : Nat → ResultElement
  cpmScore : S
  cfPtr : Nat
  resultListD : AssignList S
  resultListP : AssignList S

/-- `ELLIPSIS_MGR`; a slot of `cc` is a component with the chain behind it. -/
structure EllipsisMgr (S : Type*) where
  score : S
  pureScore : S
  cc : Nat → EllipsisComponent S × List (EllipsisComponent S)
  f : List (List UInt8)
  resultNum : Nat
  ecmm : Nat → EllipsisCmm S

/-- The two results, the buffers for the markers and the case frames in memory. -/
structure MergeState (S : Type*) where
  em1 : EllipsisMgr S
  em2 : EllipsisMgr S
  sm : Nat → List UInt8
  frame : Nat → StoredFrame

namespace MergeState

variable {S : Type*} (st : MergeState S)

/-- `em1->ecmm[0]` -/
def ecmm1 : EllipsisCmm S := st.em1.ecmm 0

/-- `em2->ecmm[0]` -/
def ecmm2 : EllipsisCmm S := st.em2.ecmm 0

/-- `em1->ecmm[0].cmm.cf_ptr` -/
def cf1 : StoredFrame := st.frame st.ecmm1.cfPtr

/-- `em2->ecmm[0].cmm.cf_ptr` -/
def cf2 : StoredFrame := st.frame st.ecmm2.cfPtr

end MergeState

/-! ## The frames -/

/-- `merge_cf_ptr` for one slot `s`, written over `old`. -/
def mergeCell (specify : Bool) (old s : FrameCell) : FrameCell where
  oblig := s.oblig
  adjacent := s.adjacent
  pp := s.pp
  sp := s.sp
  ppStr := s.ppStr
  sm := s.sm
  smDelete := s.smDelete
  smDeleteSize := if s.smDelete.isSome then s.smDeleteSize else old.smDeleteSize
  smDeleteNum := if s.smDelete.isSome then s.smDeleteNum else old.smDeleteNum
  smSpecify := s.smSpecify
  smSpecifySize := if specify then s.smSpecifySize else old.smSpecifySize
  smSpecifyNum := if specify then s.smSpecifyNum else old.smSpecifyNum
  ex := s.ex
  exs := if s.exs.length ≠ 0 then s.exs else old.exs
  exSize := if s.exs.length ≠ 0 then s.exSize else old.exSize
  freq := old.freq
  semantics := s.semantics
  gexs := old.gexs
  gexSize := old.gexSize
  weight := old.weight

/-- The slot that step `i` of the loop writes. `cf_ptr1->sm_specify[i]` is read when
`cf_ptr1->sm_specify[j]` has been written. -/
def mergedCell (elementNum : Nat) (cf2 : StoredFrame) (slot : Nat → FrameCell) (i : Nat) :
    FrameCell :=
  let j := elementNum + i
  let smSpecify := Function.update (fun k => (slot k).smSpecify) j (cf2.slot i).smSpecify
  mergeCell (smSpecify i).isSome (slot j) (cf2.slot i)

/-- `merge_cf_ptr` -/
def mergeCfPtr (cf1 cf2 : StoredFrame) : StoredFrame :=
  let i := min cf2.elementNum (CF_ELEMENT_MAX - cf1.elementNum)
  { elementNum := cf1.elementNum + i
    slot := (List.range i).foldl (fun slot i =>
      Function.update slot (cf1.elementNum + i) (mergedCell cf1.elementNum cf2 slot i)) cf1.slot }

/-! ## The results -/

/-- A cell of the correspondence: `kept` stays, a number is shifted. -/
def AssignList.put {S : Type*} (l : AssignList S) (kept : Int) (shift : Nat) (l2 : AssignList S)
    (j i : Nat) : AssignList S :=
  if l2.flag i = kept then { l with flag := Function.update l.flag j kept }
  else
    { flag := Function.update l.flag j (l2.flag i + shift)
      score := Function.update l.score j (l2.score i)
      pos := Function.update l.pos j (l2.pos i) }

section MergeEm

variable {S : Type*} [Add S] [Zero S] [LT S] [DecidableLT S]

/-- 名詞解析の入力格要素: one element of the noun result. -/
def mergeElement (cfElementNum : Nat) (ecmm2 : EllipsisCmm S)
    (s : EllipsisCmm S × (Nat → List UInt8)) (i : Nat) : EllipsisCmm S × (Nat → List UInt8) :=
  let j := s.1.elementNum + i
  ({ s.1 with
      elem := Function.update s.1.elem j (ecmm2.elem i)
      resultListD := s.1.resultListD.put NIL_ASSIGNED cfElementNum ecmm2.resultListD j i },
    Function.update s.2 j (s.2 i))

/-- The component that is left in the table of the noun result. -/
def clearedComponent : EllipsisComponent S × List (EllipsisComponent S) :=
  (⟨none, none, 0, 0, 0⟩, [])

/-- Whether a component is moved to the table of the verb result. -/
def moved (em2 : EllipsisMgr S) (i : Nat) : Bool :=
  i < CASE_TYPE_NUM && ((em2.cc i).1.s.isSome || (em2.cc i).1.bnst ≠ 0)

/-- `merge_em` -/
def mergeEm (st : MergeState S) : MergeState S :=
  if 0 < (st.em2.cc 41).1.score then st
  else if CF_ELEMENT_MAX ≤ st.ecmm1.elementNum + st.ecmm2.elementNum ∨
      CF_ELEMENT_MAX ≤ st.cf1.elementNum + st.cf2.elementNum then st
  else
    let elements :=
      (List.range (min st.ecmm2.elementNum (CF_ELEMENT_MAX - st.ecmm1.elementNum))).foldl
        (mergeElement st.cf1.elementNum st.ecmm2)
        ({ st.ecmm1 with cpmScore := st.ecmm1.cpmScore + st.ecmm2.cpmScore }, st.sm)
    -- 名詞格フレーム
    let resultListP := (List.range st.cf2.elementNum).foldl (fun l i =>
      l.put UNASSIGNED st.ecmm1.elementNum st.ecmm2.resultListP (st.cf1.elementNum + i) i)
      elements.1.resultListP
    { em1 :=
        { score := st.em1.score + st.em2.score
          pureScore := st.em1.pureScore + st.em2.pureScore
          cc := fun i => if moved st.em2 i then st.em2.cc i else st.em1.cc i
          f := st.em1.f ++ st.em2.f
          resultNum := st.em1.resultNum
          ecmm := Function.update st.em1.ecmm 0
            { elements.1 with
              elementNum := st.ecmm1.elementNum + st.ecmm2.elementNum
              resultListP := resultListP } }
      em2 := { st.em2 with
        cc := fun i => if moved st.em2 i then clearedComponent else st.em2.cc i
        f := [] }
      sm := elements.2
      frame := Function.update st.frame st.ecmm1.cfPtr (mergeCfPtr st.cf1 st.cf2) }

end MergeEm

/-! ## The law -/

section Law

variable {S : Type*}

/-- A number of the noun result behind `k` of the verb result. -/
def offsetFlag (k : Nat) (flag : Int) : Int := if flag < 0 then flag else flag + k

/-- The cells below `n` are the same. -/
structure AssignList.SameBelow (n : Nat) (l l' : AssignList S) : Prop where
  flag : ∀ t < n, l'.flag t = l.flag t
  score : ∀ t < n, l'.score t = l.score t
  pos : ∀ t < n, l'.pos t = l.pos t

/-- The cells from `n` on are the first `m` ones of `l2`, with offsets for their numbers. -/
structure AssignList.ShiftedFrom (n m shift : Nat) (l2 l' : AssignList S) : Prop where
  flag : ∀ t < m, l'.flag (n + t) = offsetFlag shift (l2.flag t)
  score : ∀ t < m, 0 ≤ l2.flag t → l'.score (n + t) = l2.score t
  pos : ∀ t < m, 0 ≤ l2.flag t → l'.pos (n + t) = l2.pos t

/-- `st'` has the two results of `st` side by side. -/
structure Merged (st st' : MergeState S) : Prop where
  elementNum : st'.ecmm1.elementNum = st.ecmm1.elementNum + st.ecmm2.elementNum
  slotNum : st'.cf1.elementNum = st.cf1.elementNum + st.cf2.elementNum
  inverse : Correspond st'.ecmm1.elementNum st'.cf1.elementNum st'.ecmm1.resultListD
    st'.ecmm1.resultListP
  verbElement : ∀ t < st.ecmm1.elementNum, st'.ecmm1.elem t = st.ecmm1.elem t ∧ st'.sm t = st.sm t
  verbListD : st.ecmm1.resultListD.SameBelow st.ecmm1.elementNum st'.ecmm1.resultListD
  verbSlot : ∀ i < st.cf1.elementNum, st'.cf1.slot i = st.cf1.slot i
  verbListP : st.ecmm1.resultListP.SameBelow st.cf1.elementNum st'.ecmm1.resultListP
  nounElement : ∀ t < st.ecmm2.elementNum,
    st'.ecmm1.elem (st.ecmm1.elementNum + t) = st.ecmm2.elem t ∧
      st'.sm (st.ecmm1.elementNum + t) = st.sm t
  nounListD : st.ecmm2.resultListD.ShiftedFrom st.ecmm1.elementNum st.ecmm2.elementNum
    st.cf1.elementNum st'.ecmm1.resultListD
  nounSlot : ∀ i < st.cf2.elementNum, st'.cf1.slot (st.cf1.elementNum + i) = st.cf2.slot i
  nounListP : st.ecmm2.resultListP.ShiftedFrom st.cf1.elementNum st.cf2.elementNum
    st.ecmm1.elementNum st'.ecmm1.resultListP
  others : ∀ k, 0 < k → k < st.em1.resultNum →
    (st'.em1.ecmm k).cfPtr = (st.em1.ecmm k).cfPtr ∧
    (st'.frame (st.em1.ecmm k).cfPtr).elementNum = (st.frame (st.em1.ecmm k).cfPtr).elementNum ∧
    ∀ i < (st.frame (st.em1.ecmm k).cfPtr).elementNum,
      (st'.frame (st.em1.ecmm k).cfPtr).slot i = (st.frame (st.em1.ecmm k).cfPtr).slot i

/-- CF_ELEMENT_MAXを上回ってしまう場合は一切マージを行わない -/
structure MergeState.Fits (st : MergeState S) : Prop where
  elements : st.ecmm1.elementNum + st.ecmm2.elementNum < CF_ELEMENT_MAX
  slots : st.cf1.elementNum + st.cf2.elementNum < CF_ELEMENT_MAX

/-- Whether the size and the number of the limiting markers are copied for slot `i`: slot `i` of
the merged frame has such markers. -/
def specifyCopied (cf1 cf2 : StoredFrame) (i : Nat) : Bool :=
  if cf1.elementNum ≤ i then (cf2.slot (i - cf1.elementNum)).smSpecify.isSome
  else (cf1.slot i).smSpecify.isSome

/-- What `merge_cf_ptr` leaves in slot `j` is as it is in the slot `s` of the noun frame. -/
structure LeftRight (specify : Bool) (old s : FrameCell) : Prop where
  smDelete : s.smDelete.isSome = true ∨
    old.smDeleteSize = s.smDeleteSize ∧ old.smDeleteNum = s.smDeleteNum
  smSpecify : specify = true ∨
    old.smSpecifySize = s.smSpecifySize ∧ old.smSpecifyNum = s.smSpecifyNum
  exs : s.exs ≠ [] ∨ old.exs = s.exs ∧ old.exSize = s.exSize
  freq : old.freq = s.freq
  gexs : old.gexs = s.gexs ∧ old.gexSize = s.gexSize
  weight : old.weight = s.weight

/-- Where the merging goes right. -/
structure MergeState.Mergeable [Zero S] [LT S] (st : MergeState S) : Prop where
  tried : 0 < (st.em2.cc 41).1.score → st.ecmm2.elementNum = 0 ∧ st.cf2.elementNum = 0
  opened : ∀ t < st.ecmm2.elementNum, st.ecmm2.resultListD.flag t = UNASSIGNED →
    st.cf1.elementNum = 0
  sm : ∀ t < st.ecmm2.elementNum, st.sm (t % st.ecmm1.elementNum) = st.sm t
  slots : ∀ i < st.cf2.elementNum, LeftRight (specifyCopied st.cf1 st.cf2 i)
    (st.cf1.slot (st.cf1.elementNum + i)) (st.cf2.slot i)
  others : st.cf2.elementNum = 0 ∨
    ∀ k, 0 < k → k < st.em1.resultNum → (st.em1.ecmm k).cfPtr ≠ st.ecmm1.cfPtr

/-! ## Lists side by side -/

theorem offsetFlag_eq_iff {k i : Nat} {f : Int} : offsetFlag k f = (k + i : Nat) ↔ f = i := by
  unfold offsetFlag
  split <;> omega

theorem offsetFlag_ne {k t : Nat} {f : Int} (ht : t < k) : offsetFlag k f ≠ t := by
  unfold offsetFlag
  split <;> omega

theorem offsetFlag_natCast {k i : Nat} : offsetFlag k (i : Int) = (k + i : Nat) :=
  offsetFlag_eq_iff.mpr rfl

variable {n₁ n₂ m₁ m₂ : Nat} {d₁ d₂ d p₁ p₂ p : AssignList S}

theorem Correspond.flag_ne {n m t i : Nat} {list1 list2 : AssignList S}
    (h : Correspond n m list1 list2) (ht : t < n) (hi : m ≤ i) : list1.flag t ≠ i := by
  intro heq
  rcases h.element t ht with hfree | hnil | ⟨i', hi', hflag⟩
  · exact natCast_ne_unassigned i (heq.symm.trans hfree)
  · exact natCast_ne_nilAssigned i (heq.symm.trans hnil)
  · omega

theorem Correspond.slot_ne {n m t i : Nat} {list1 list2 : AssignList S}
    (h : Correspond n m list1 list2) (hi : i < m) (ht : n ≤ t) : list2.flag i ≠ t := by
  intro heq
  rcases h.slot i hi with hfree | ⟨t', ht', hflag⟩
  · exact natCast_ne_unassigned t (heq.symm.trans hfree)
  · omega

/-- **Inverse lists stay inverse side by side.** -/
theorem Correspond.append (h₁ : Correspond n₁ m₁ d₁ p₁) (h₂ : Correspond n₂ m₂ d₂ p₂)
    (hd₁ : ∀ t < n₁, d.flag t = d₁.flag t)
    (hd₂ : ∀ t < n₂, d.flag (n₁ + t) = offsetFlag m₁ (d₂.flag t))
    (hp₁ : ∀ i < m₁, p.flag i = p₁.flag i)
    (hp₂ : ∀ i < m₂, p.flag (m₁ + i) = offsetFlag n₁ (p₂.flag i)) :
    Correspond (n₁ + n₂) (m₁ + m₂) d p := by
  refine ⟨fun t ht i hi => ?_, fun t ht => ?_, fun i hi => ?_⟩
  · rcases Nat.lt_or_ge t n₁ with htv | htn
    · rw [hd₁ t htv]
      rcases Nat.lt_or_ge i m₁ with hiv | hin
      · rw [hp₁ i hiv]
        exact h₁.inverse t htv i hiv
      · obtain ⟨i, rfl⟩ := Nat.exists_eq_add_of_le hin
        rw [hp₂ i (by omega)]
        exact iff_of_false (h₁.flag_ne htv hin) (offsetFlag_ne htv)
    · obtain ⟨t, rfl⟩ := Nat.exists_eq_add_of_le htn
      rw [hd₂ t (by omega)]
      rcases Nat.lt_or_ge i m₁ with hiv | hin
      · rw [hp₁ i hiv]
        exact iff_of_false (offsetFlag_ne hiv) (h₁.slot_ne hiv htn)
      · obtain ⟨i, rfl⟩ := Nat.exists_eq_add_of_le hin
        rw [hp₂ i (by omega), offsetFlag_eq_iff, offsetFlag_eq_iff]
        exact h₂.inverse t (by omega) i (by omega)
  · rcases Nat.lt_or_ge t n₁ with htv | htn
    · rw [hd₁ t htv]
      refine (h₁.element t htv).imp id (Or.imp id ?_)
      rintro ⟨i, hi, hflag⟩
      exact ⟨i, Nat.lt_add_right m₂ hi, hflag⟩
    · obtain ⟨t, rfl⟩ := Nat.exists_eq_add_of_le htn
      rw [hd₂ t (by omega)]
      rcases h₂.element t (by omega) with hfree | hnil | ⟨i, hi, hflag⟩
      · exact .inl (by rw [hfree]; rfl)
      · exact .inr (.inl (by rw [hnil]; rfl))
      · exact .inr (.inr ⟨m₁ + i, Nat.add_lt_add_left hi m₁, by rw [hflag, offsetFlag_natCast]⟩)
  · rcases Nat.lt_or_ge i m₁ with hiv | hin
    · rw [hp₁ i hiv]
      refine (h₁.slot i hiv).imp id ?_
      rintro ⟨t, ht, hflag⟩
      exact ⟨t, Nat.lt_add_right n₂ ht, hflag⟩
    · obtain ⟨i, rfl⟩ := Nat.exists_eq_add_of_le hin
      rw [hp₂ i (by omega)]
      rcases h₂.slot i (by omega) with hfree | ⟨t, ht, hflag⟩
      · exact .inl (by rw [hfree]; rfl)
      · exact .inr ⟨n₁ + t, Nat.add_lt_add_left ht n₁, by rw [hflag, offsetFlag_natCast]⟩

/-! ## The loops -/

/-- The loop over a correspondence list. -/
theorem foldl_put {kept : Int} {shift n count : Nat} {l l2 : AssignList S} :
    (List.range count).foldl (fun l i => l.put kept shift l2 (n + i) i) l =
      { flag := overwrite l.flag n count fun i =>
          if l2.flag i = kept then kept else l2.flag i + shift
        score := overwrite l.score n count fun i =>
          if l2.flag i = kept then l.score (n + i) else l2.score i
        pos := overwrite l.pos n count fun i =>
          if l2.flag i = kept then l.pos (n + i) else l2.pos i } := by
  induction count with
  | zero => simp
  | succ count ih =>
      rw [List.range_succ, List.foldl_append, ih, List.foldl_cons, List.foldl_nil, AssignList.put]
      split
      next hkept =>
        have hscore := overwrite_succ_eq (a := l.score) (n := n)
          (v := fun i => if l2.flag i = kept then l.score (n + i) else l2.score i) (if_pos hkept)
        have hpos := overwrite_succ_eq (a := l.pos) (n := n)
          (v := fun i => if l2.flag i = kept then l.pos (n + i) else l2.pos i) (if_pos hkept)
        rw [hscore, hpos, ← update_overwrite, if_pos hkept]
      next hkept =>
        rw [← update_overwrite, ← update_overwrite, ← update_overwrite, if_neg hkept, if_neg hkept,
          if_neg hkept]

theorem foldl_put_sameBelow {kept : Int} {shift n m : Nat} {l l2 : AssignList S} :
    l.SameBelow n ((List.range m).foldl (fun l i => l.put kept shift l2 (n + i) i) l) := by
  rw [foldl_put]
  refine ⟨fun t ht => ?_, fun t ht => ?_, fun t ht => ?_⟩ <;>
  · dsimp only
    rw [overwrite_of_lt ht]

/-- Of the negative numbers only `kept` stays what it is. -/
theorem foldl_put_shiftedFrom_iff {kept : Int} {shift n m : Nat} {l l2 : AssignList S}
    (hkept : kept < 0) :
    l2.ShiftedFrom n m shift
        ((List.range m).foldl (fun l i => l.put kept shift l2 (n + i) i) l) ↔
      ∀ t < m, l2.flag t < 0 → l2.flag t ≠ kept → shift = 0 := by
  rw [foldl_put]
  constructor
  · intro h t ht hneg hne
    have hflag := h.flag t ht
    dsimp only at hflag
    rw [overwrite_add ht, if_neg hne, offsetFlag, if_pos hneg] at hflag
    omega
  · intro h
    refine ⟨fun t ht => ?_, fun t ht hpos => ?_, fun t ht hpos => ?_⟩
    · dsimp only
      rw [overwrite_add ht]
      by_cases hnil : l2.flag t = kept
      · rw [if_pos hnil, offsetFlag, hnil, if_pos hkept]
      · rw [if_neg hnil, offsetFlag]
        split
        next hneg => rw [h t ht hneg hnil, Nat.cast_zero, Int.add_zero]
        next => rfl
    · have hne : l2.flag t ≠ kept := by omega
      dsimp only
      rw [overwrite_add ht, if_neg hne]
    · have hne : l2.flag t ≠ kept := by omega
      dsimp only
      rw [overwrite_add ht, if_neg hne]

theorem foldl_mergeElement {c count : Nat} {e e2 : EllipsisCmm S} {sm : Nat → List UInt8} :
    (List.range count).foldl (mergeElement c e2) (e, sm) =
      ({ e with
          elem := (List.range count).foldl (fun elem i =>
            Function.update elem (e.elementNum + i) (e2.elem i)) e.elem
          resultListD := (List.range count).foldl (fun l i =>
            l.put NIL_ASSIGNED c e2.resultListD (e.elementNum + i) i) e.resultListD },
        (List.range count).foldl (fun sm i =>
          Function.update sm (e.elementNum + i) (sm i)) sm) := by
  induction count with
  | zero => rfl
  | succ count ih =>
      simp only [List.range_succ, List.foldl_append, ih]
      rfl

theorem mergedCell_overwrite {cf1 cf2 : StoredFrame} {i : Nat} :
    mergedCell cf1.elementNum cf2 (overwrite cf1.slot cf1.elementNum i fun i =>
        mergeCell (specifyCopied cf1 cf2 i) (cf1.slot (cf1.elementNum + i)) (cf2.slot i)) i =
      mergeCell (specifyCopied cf1 cf2 i) (cf1.slot (cf1.elementNum + i)) (cf2.slot i) := by
  unfold mergedCell
  dsimp only
  rw [overwrite_of_le le_rfl]
  congr 1
  unfold specifyCopied
  by_cases h0 : i = cf1.elementNum + i
  · have hzero : cf1.elementNum = 0 := by omega
    rw [← h0, Function.update_self, if_pos (by omega), hzero, Nat.sub_zero]
  · rw [Function.update_of_ne h0]
    unfold overwrite
    by_cases hle : cf1.elementNum ≤ i
    · rw [if_pos hle, if_pos ⟨hle, by omega⟩]
      rfl
    · rw [if_neg hle, if_neg fun h => hle h.1]

theorem mergeCfPtr_slot {cf1 cf2 : StoredFrame} : (mergeCfPtr cf1 cf2).slot =
    overwrite cf1.slot cf1.elementNum (min cf2.elementNum (CF_ELEMENT_MAX - cf1.elementNum))
      fun i => mergeCell (specifyCopied cf1 cf2 i) (cf1.slot (cf1.elementNum + i)) (cf2.slot i) :=
  foldl_overwrite fun _ _ => mergedCell_overwrite

/-- **When a slot arrives.** -/
theorem mergeCell_eq_iff {specify : Bool} {old s : FrameCell} :
    mergeCell specify old s = s ↔ LeftRight specify old s := by
  rw [FrameCell.ext_iff]
  simp only [mergeCell, ite_eq_left_iff, true_and]
  constructor
  · rintro ⟨hdeleteSize, hdeleteNum, hspecifySize, hspecifyNum, hexs, hexSize, hfreq, hgexs,
      hgexSize, hweight⟩
    have hlen : ¬s.exs ≠ [] → ¬s.exs.length ≠ 0 := fun h hlen =>
      h fun hnil => hlen (by rw [hnil, List.length_nil])
    exact ⟨or_iff_not_imp_left.mpr fun h => ⟨hdeleteSize h, hdeleteNum h⟩,
      or_iff_not_imp_left.mpr fun h => ⟨hspecifySize h, hspecifyNum h⟩,
      or_iff_not_imp_left.mpr fun h => ⟨hexs (hlen h), hexSize (hlen h)⟩,
      hfreq, ⟨hgexs, hgexSize⟩, hweight⟩
  · intro h
    have hlen : ¬s.exs.length ≠ 0 → ¬s.exs ≠ [] := fun h hne =>
      h (List.length_pos_iff.mpr hne).ne'
    have hdelete := or_iff_not_imp_left.mp h.smDelete
    have hspecify := or_iff_not_imp_left.mp h.smSpecify
    have hexs := or_iff_not_imp_left.mp h.exs
    exact ⟨fun hn => (hdelete hn).1, fun hn => (hdelete hn).2, fun hn => (hspecify hn).1,
      fun hn => (hspecify hn).2, fun hn => (hexs (hlen hn)).1, fun hn => (hexs (hlen hn)).2,
      h.freq, h.gexs.1, h.gexs.2, h.weight⟩

/-! ## What is merged -/

/-- Nothing is merged, and nothing is missing if there was nothing to merge. -/
theorem merged_self_iff [Zero S] [LT S] {st : MergeState S}
    (htried : 0 < (st.em2.cc 41).1.score)
    (h₁ : Correspond st.ecmm1.elementNum st.cf1.elementNum st.ecmm1.resultListD
      st.ecmm1.resultListP) :
    Merged st st ↔ st.Mergeable := by
  have hempty : st.Mergeable ↔ st.ecmm2.elementNum = 0 ∧ st.cf2.elementNum = 0 := by
    refine ⟨fun h => h.tried htried, fun h => ⟨fun _ => h, ?_, ?_, ?_, .inl h.2⟩⟩
    · exact fun t ht => absurd ht (by omega)
    · exact fun t ht => absurd ht (by omega)
    · exact fun i hi => absurd hi (by omega)
  rw [hempty]
  constructor
  · intro h
    have helement := h.elementNum
    have hslot := h.slotNum
    omega
  · rintro ⟨helement, hslot⟩
    refine ⟨by omega, by omega, h₁, fun _ _ => ⟨rfl, rfl⟩, ?_, fun _ _ => rfl, ?_, ?_, ?_, ?_, ?_,
      fun _ _ _ => ⟨rfl, rfl, fun _ _ => rfl⟩⟩
    · exact ⟨fun _ _ => rfl, fun _ _ => rfl, fun _ _ => rfl⟩
    · exact ⟨fun _ _ => rfl, fun _ _ => rfl, fun _ _ => rfl⟩
    · exact fun t ht => absurd ht (by omega)
    · rw [helement]
      exact ⟨fun t ht => absurd ht (by omega), fun t ht => absurd ht (by omega),
        fun t ht => absurd ht (by omega)⟩
    · exact fun i hi => absurd hi (by omega)
    · rw [hslot]
      exact ⟨fun t ht => absurd ht (by omega), fun t ht => absurd ht (by omega),
        fun t ht => absurd ht (by omega)⟩

section Fits

variable {st : MergeState S} (hfits : st.Fits)

include hfits

theorem MergeState.Fits.not_over :
    ¬(CF_ELEMENT_MAX ≤ st.ecmm1.elementNum + st.ecmm2.elementNum ∨
      CF_ELEMENT_MAX ≤ st.cf1.elementNum + st.cf2.elementNum) :=
  not_or.mpr ⟨hfits.elements.not_ge, hfits.slots.not_ge⟩

theorem MergeState.Fits.min_elements :
    min st.ecmm2.elementNum (CF_ELEMENT_MAX - st.ecmm1.elementNum) = st.ecmm2.elementNum := by
  have hlt := hfits.elements
  exact min_eq_left (by omega)

theorem MergeState.Fits.min_slots :
    min st.cf2.elementNum (CF_ELEMENT_MAX - st.cf1.elementNum) = st.cf2.elementNum := by
  have hlt := hfits.slots
  exact min_eq_left (by omega)

theorem mergeCfPtr_elementNum :
    (mergeCfPtr st.cf1 st.cf2).elementNum = st.cf1.elementNum + st.cf2.elementNum := by
  rw [mergeCfPtr, hfits.min_slots]

end Fits

variable [Add S] [Zero S] [LT S] [DecidableLT S] {st : MergeState S}

theorem mergeEm_of_tried (h : 0 < (st.em2.cc 41).1.score) : mergeEm st = st := if_pos h

section Untried

variable (htried : ¬0 < (st.em2.cc 41).1.score) (hfits : st.Fits)

include htried hfits

theorem ecmm1_mergeEm : (mergeEm st).ecmm1 =
    { elementNum := st.ecmm1.elementNum + st.ecmm2.elementNum
      elem := overwrite st.ecmm1.elem st.ecmm1.elementNum st.ecmm2.elementNum st.ecmm2.elem
      cpmScore := st.ecmm1.cpmScore + st.ecmm2.cpmScore
      cfPtr := st.ecmm1.cfPtr
      resultListD := (List.range st.ecmm2.elementNum).foldl (fun l i =>
        l.put NIL_ASSIGNED st.cf1.elementNum st.ecmm2.resultListD (st.ecmm1.elementNum + i) i)
        st.ecmm1.resultListD
      resultListP := (List.range st.cf2.elementNum).foldl (fun l i =>
        l.put UNASSIGNED st.ecmm1.elementNum st.ecmm2.resultListP (st.cf1.elementNum + i) i)
        st.ecmm1.resultListP } := by
  rw [mergeEm, if_neg htried, if_neg hfits.not_over, hfits.min_elements, foldl_mergeElement,
    MergeState.ecmm1]
  dsimp only
  rw [Function.update_self, foldl_overwrite (f := fun _ i => st.ecmm2.elem i) fun _ _ => rfl]

theorem frame_mergeEm :
    (mergeEm st).frame = Function.update st.frame st.ecmm1.cfPtr (mergeCfPtr st.cf1 st.cf2) := by
  rw [mergeEm, if_neg htried, if_neg hfits.not_over]

theorem cf1_mergeEm : (mergeEm st).cf1 = mergeCfPtr st.cf1 st.cf2 := by
  rw [MergeState.cf1, ecmm1_mergeEm htried hfits, frame_mergeEm htried hfits]
  exact Function.update_self ..

theorem sm_mergeEm : (mergeEm st).sm =
    overwrite st.sm st.ecmm1.elementNum st.ecmm2.elementNum
      fun t => st.sm (t % st.ecmm1.elementNum) := by
  rw [mergeEm, if_neg htried, if_neg hfits.not_over, hfits.min_elements, foldl_mergeElement]
  exact foldl_copy

theorem ecmm_mergeEm {k : Nat} (hk : k ≠ 0) : (mergeEm st).em1.ecmm k = st.em1.ecmm k := by
  rw [mergeEm, if_neg htried, if_neg hfits.not_over]
  exact Function.update_of_ne hk ..

/-- The frames of the other results. -/
theorem others_iff : (∀ k, 0 < k → k < st.em1.resultNum →
      ((mergeEm st).em1.ecmm k).cfPtr = (st.em1.ecmm k).cfPtr ∧
      ((mergeEm st).frame (st.em1.ecmm k).cfPtr).elementNum =
        (st.frame (st.em1.ecmm k).cfPtr).elementNum ∧
      ∀ i < (st.frame (st.em1.ecmm k).cfPtr).elementNum,
        ((mergeEm st).frame (st.em1.ecmm k).cfPtr).slot i =
          (st.frame (st.em1.ecmm k).cfPtr).slot i) ↔
    st.cf2.elementNum = 0 ∨
      ∀ k, 0 < k → k < st.em1.resultNum → (st.em1.ecmm k).cfPtr ≠ st.ecmm1.cfPtr := by
  rw [frame_mergeEm htried hfits]
  constructor
  · intro h
    by_contra hno
    obtain ⟨hpos, hno⟩ := not_or.mp hno
    push Not at hno
    obtain ⟨k, hk, hlt, hsame⟩ := hno
    have hnum := (h k hk hlt).2.1
    rw [hsame, Function.update_self] at hnum
    have hgrown := mergeCfPtr_elementNum hfits
    have hcf1 : (st.frame st.ecmm1.cfPtr).elementNum = st.cf1.elementNum := rfl
    omega
  · intro h k hk hlt
    rw [ecmm_mergeEm htried hfits (by omega)]
    refine ⟨rfl, ?_⟩
    by_cases hsame : (st.em1.ecmm k).cfPtr = st.ecmm1.cfPtr
    · have hzero : st.cf2.elementNum = 0 := h.resolve_right fun hne => hne k hk hlt hsame
      rw [hsame, Function.update_self]
      refine ⟨(mergeCfPtr_elementNum hfits).trans (by rw [hzero]; rfl), fun i hi => ?_⟩
      rw [mergeCfPtr_slot]
      exact overwrite_of_lt hi
    · rw [Function.update_of_ne hsame]
      exact ⟨rfl, fun _ _ => rfl⟩

theorem nounListD_iff (h₂ : Correspond st.ecmm2.elementNum st.cf2.elementNum
      st.ecmm2.resultListD st.ecmm2.resultListP) :
    st.ecmm2.resultListD.ShiftedFrom st.ecmm1.elementNum st.ecmm2.elementNum
        st.cf1.elementNum (mergeEm st).ecmm1.resultListD ↔
      ∀ t < st.ecmm2.elementNum, st.ecmm2.resultListD.flag t = UNASSIGNED →
        st.cf1.elementNum = 0 := by
  rw [ecmm1_mergeEm htried hfits, foldl_put_shiftedFrom_iff (by decide)]
  refine forall₂_congr fun t ht => ?_
  rcases h₂.element t ht with hfree | hnil | ⟨i, -, hflag⟩
  · rw [hfree]
    exact ⟨fun h _ => h (by decide) (by decide), fun h _ _ => h rfl⟩
  · rw [hnil]
    exact iff_of_true (fun _ h => absurd rfl h) fun h => absurd h (by decide)
  · rw [hflag]
    exact iff_of_true (fun h => absurd h (by omega)) fun h => absurd h (natCast_ne_unassigned i)

theorem nounListP_shiftedFrom (h₂ : Correspond st.ecmm2.elementNum st.cf2.elementNum
      st.ecmm2.resultListD st.ecmm2.resultListP) :
    st.ecmm2.resultListP.ShiftedFrom st.cf1.elementNum st.cf2.elementNum
      st.ecmm1.elementNum (mergeEm st).ecmm1.resultListP := by
  rw [ecmm1_mergeEm htried hfits, foldl_put_shiftedFrom_iff (by decide)]
  intro i hi hneg hne
  rcases h₂.slot i hi with hfree | ⟨t, -, hflag⟩
  · exact absurd hfree hne
  · omega

theorem nounSlot_iff :
    (∀ i < st.cf2.elementNum,
        (mergeEm st).cf1.slot (st.cf1.elementNum + i) = st.cf2.slot i) ↔
      ∀ i < st.cf2.elementNum, LeftRight (specifyCopied st.cf1 st.cf2 i)
        (st.cf1.slot (st.cf1.elementNum + i)) (st.cf2.slot i) := by
  rw [cf1_mergeEm htried hfits, mergeCfPtr_slot, hfits.min_slots]
  refine forall₂_congr fun i hi => ?_
  rw [overwrite_add hi, mergeCell_eq_iff]

theorem nounElement_iff :
    (∀ t < st.ecmm2.elementNum,
        (mergeEm st).ecmm1.elem (st.ecmm1.elementNum + t) = st.ecmm2.elem t ∧
          (mergeEm st).sm (st.ecmm1.elementNum + t) = st.sm t) ↔
      ∀ t < st.ecmm2.elementNum, st.sm (t % st.ecmm1.elementNum) = st.sm t := by
  rw [ecmm1_mergeEm htried hfits, sm_mergeEm htried hfits]
  refine forall₂_congr fun t ht => ?_
  rw [overwrite_add ht]
  exact and_iff_right (overwrite_add ht)

end Untried

/-- **When the merging goes right.** -/
theorem mergeEm_merged_iff (hfits : st.Fits)
    (h₁ : Correspond st.ecmm1.elementNum st.cf1.elementNum st.ecmm1.resultListD
      st.ecmm1.resultListP)
    (h₂ : Correspond st.ecmm2.elementNum st.cf2.elementNum st.ecmm2.resultListD
      st.ecmm2.resultListP) :
    Merged st (mergeEm st) ↔ st.Mergeable := by
  by_cases htried : 0 < (st.em2.cc 41).1.score
  · rw [mergeEm_of_tried htried]
    exact merged_self_iff htried h₁
  · constructor
    · intro h
      exact ⟨fun hpos => absurd hpos htried, (nounListD_iff htried hfits h₂).mp h.nounListD,
        (nounElement_iff htried hfits).mp h.nounElement, (nounSlot_iff htried hfits).mp h.nounSlot,
        (others_iff htried hfits).mp h.others⟩
    · intro h
      have hmerged := ecmm1_mergeEm htried hfits
      have hcf := cf1_mergeEm htried hfits
      have hslotNum : (mergeEm st).cf1.elementNum = st.cf1.elementNum + st.cf2.elementNum := by
        rw [hcf, mergeCfPtr_elementNum hfits]
      have hverbD : st.ecmm1.resultListD.SameBelow st.ecmm1.elementNum
          (mergeEm st).ecmm1.resultListD := by
        rw [hmerged]
        exact foldl_put_sameBelow
      have hverbP : st.ecmm1.resultListP.SameBelow st.cf1.elementNum
          (mergeEm st).ecmm1.resultListP := by
        rw [hmerged]
        exact foldl_put_sameBelow
      have hnounD := (nounListD_iff htried hfits h₂).mpr h.opened
      have hnounP := nounListP_shiftedFrom htried hfits h₂
      have helementNum : (mergeEm st).ecmm1.elementNum =
          st.ecmm1.elementNum + st.ecmm2.elementNum := by rw [hmerged]
      refine ⟨helementNum, hslotNum, ?_, fun t ht => ?_, hverbD, fun i hi => ?_, hverbP,
        (nounElement_iff htried hfits).mpr h.sm, hnounD, (nounSlot_iff htried hfits).mpr h.slots,
        hnounP, (others_iff htried hfits).mpr h.others⟩
      · rw [helementNum, hslotNum]
        exact h₁.append h₂ hverbD.flag hnounD.flag hverbP.flag hnounP.flag
      · rw [hmerged, sm_mergeEm htried hfits]
        exact ⟨overwrite_of_lt ht, overwrite_of_lt ht⟩
      · rw [hcf, mergeCfPtr_slot]
        exact overwrite_of_lt hi

end Law

/-! ## Two results with one element and one slot -/

/-- A slot that nothing has been stored in. -/
def clearCell : FrameCell :=
  ⟨0, 0, fun _ => 0, 0, none, none, none, 0, 0, none, 0, 0, none, [], 0, 0, none, [], 0, 0⟩

def oneFrame (s : FrameCell) : StoredFrame := ⟨1, fun i => if i = 0 then s else clearCell⟩

def oneList : AssignList Int := ⟨fun _ => 0, fun _ => 5, fun _ => 0⟩

def oneResult (cfPtr : Nat) : EllipsisMgr Int where
  score := 5
  pureScore := 5
  cc := fun _ => clearedComponent
  f := []
  resultNum := 1
  ecmm := fun _ => ⟨1, fun _ => ⟨fun _ => 0, none, none, 0⟩, 5, cfPtr, oneList, oneList⟩

def oneMerge (verb noun : FrameCell) : MergeState Int where
  em1 := oneResult 0
  em2 := oneResult 1
  sm := fun _ => []
  frame := fun a => oneFrame (if a = 0 then verb else noun)

theorem oneList_correspond : Correspond 1 1 oneList oneList := by
  refine ⟨fun t ht i hi => ?_, fun t _ => ?_, fun i _ => ?_⟩
  · obtain rfl : t = 0 := by omega
    obtain rfl : i = 0 := by omega
    exact Iff.rfl
  · exact .inr (.inr ⟨0, by decide, rfl⟩)
  · exact .inr ⟨0, by decide, rfl⟩

/-- An example 本 and no list of markers. -/
def bookCell : FrameCell :=
  { clearCell with exs := [(some (utf8 "本"), 3)], exSize := 1 }

theorem oneMerge_merged : Merged (oneMerge clearCell bookCell)
    (mergeEm (oneMerge clearCell bookCell)) := by
  have hfits : (oneMerge clearCell bookCell).Fits := ⟨by decide, by decide⟩
  have hopened : (0 : Int) ≠ UNASSIGNED := by decide
  refine (mergeEm_merged_iff hfits oneList_correspond oneList_correspond).mpr
    ⟨fun h => absurd h (by decide), fun t _ h => absurd h hopened, fun _ _ => rfl,
      fun i hi => ?_, .inr fun k hk hlt => absurd hlt ?_⟩
  · obtain rfl : i = 0 := Nat.lt_one_iff.mp hi
    exact ⟨.inr ⟨rfl, rfl⟩, .inr ⟨rfl, rfl⟩, .inl (by decide), rfl, ⟨rfl, rfl⟩, rfl⟩
  · exact not_lt.mpr hk

/-- One limiting marker, in the first slot of the noun frame. -/
def markedCell : FrameCell :=
  { bookCell with
    smSpecify := some (utf8 "3**********")
    smSpecifySize := 5
    smSpecifyNum := 1
    freq := 3 }

theorem markedCell_not_merged :
    (oneMerge clearCell markedCell).Fits ∧ Correspond 1 1 oneList oneList ∧
      ¬Merged (oneMerge clearCell markedCell) (mergeEm (oneMerge clearCell markedCell)) := by
  refine ⟨⟨by decide, by decide⟩, oneList_correspond, fun h => ?_⟩
  have hnum := congrArg FrameCell.smSpecifyNum (h.nounSlot 0 (by decide))
  exact absurd hnum (by decide)

end Knp
