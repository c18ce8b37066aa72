import Knp.CaseElements
import Knp.LinkTrail
import Knp.Loop

/-!
# Trying the case frames of a predicate (`context.c`)

`FindBestCFforContext` tries one frame after the other. What is found for an empty slot becomes an
element of the predicate itself by `AppendToCF`, behind those that it has, and `DeleteFromCF` takes
all such elements away before the next frame is tried.

> A frame is tried with the elements of the predicate and leaves these, and the slots are as
> they were matched.

For a predicate with `type_flag` the elements are not those that it had: `make_data_cframe` sets
them anew before each frame, and for a noun reading it finds others.
-/

namespace Knp

open LinkTrail

/-- One element of a predicate: a row of the arrays of `CF_PRED_MGR`. -/
structure TrialRow where
  elemBPtr : Option Nat
  elemSPtr : Option Nat
  elemBNum : Int
  pp : List Int
  oblig : Bool
  weight : Int
  adjacent : Bool
  /-- the tag that `sm` and `ex` are of -/
  concept : Option Nat

/-- `elem_b_num[i] <= -2` -/
def TrialRow.isOmitted (r : TrialRow) : Bool := r.elemBNum ≤ -2

/-- `elem_b_ptr`, ..., and `cf`: the elements of a predicate. -/
structure TrialCpm where
  elementNum : Nat
  row : Nat → TrialRow

/-- The predicate and the first lists of `cmm`. -/
structure TrialState (S : Type*) where
  cpm : TrialCpm
  listP : AssignList S
  listD : AssignList S
  pureScore : S

/-- What is found for a slot: `maxs->tag_data + maxi`, or `NULL` for 不特定-人, and the score that
is stored for `maxscore`. -/
structure Omitted (S : Type*) where
  bPtr : Option Nat
  maxs : Option Nat
  maxpos : Int
  score : S

/-- A slot that is visited, and what is found for it. -/
structure SlotVisit (S : Type*) where
  slot : Nat
  found : Option (Omitted S)

/-- A frame that is tried: what `case_frame_match` leaves in `cmm`, and the slots in the order in
which they are visited. -/
structure FrameTry (S : Type*) where
  cf : CaseFrame
  /-- `etcflag & CF_SUM` -/
  cfSum : Bool
  listP : AssignList S
  listD : AssignList S
  pureScore : S
  visits : List (SlotVisit S)

structure TrialEnv (S : Type*) where
  /-- `OptEllipsis & OPT_DEMO` -/
  optDemo : Bool
  typeFlag : Bool
  /-- `省略解析対象指示詞` -/
  isDemonstrative : Nat → Bool
  /-- `pure_score -= old_score`, where `old_score` is an `int` -/
  takeOff : S → S → S
  /-- `none` for `exit` -/
  makeDataCframe : TrialCpm → Option TrialCpm

/-! ## Adding and deleting elements -/

section Elements

variable {S : Type*} (env : TrialEnv S) (cf : CaseFrame) (st : TrialState S)

/-- The row of an element for the slot `n`. -/
def Omitted.row (om : Omitted S) (n : Nat) (elemBNum : Int) (concept : Option Nat) : TrialRow where
  elemBPtr := om.bPtr
  elemSPtr := om.maxs
  elemBNum := elemBNum
  pp := [(cf.pp n).headD END_M]
  oblig := true
  weight := 0
  adjacent := false
  concept := concept

/-- 対応情報を追加: the slot `n` and the element `d`, whose row is written. -/
def TrialState.correspond (n d : Nat) (om : Omitted S) (elemBNum : Int) (concept : Option Nat) :
    TrialState S where
  cpm := { st.cpm with row := Function.update st.cpm.row d (om.row cf n elemBNum concept) }
  listP :=
    { flag := Function.update st.listP.flag n d
      score := Function.update st.listP.score n om.score
      pos := Function.update st.listP.pos n om.maxpos }
  listD := { st.listD with flag := Function.update st.listD.flag d n }
  pureScore := st.pureScore

/-- `AppendToCF` -/
def TrialState.appendToCf (n : Nat) (om : Omitted S) : TrialState S :=
  if CF_ELEMENT_MAX ≤ st.cpm.elementNum then st
  else if st.listP.flag n ≠ UNASSIGNED then
    -- 指示詞の場合: もとの指示詞の分のスコアを引いておく
    let d := (st.listP.flag n).toNat
    { st.correspond cf n d om (-3) (st.cpm.row d).concept with
      pureScore := env.takeOff st.pureScore (st.listP.score n) }
  else
    let d := st.cpm.elementNum
    let st' := st.correspond cf n d om (-2) (om.bPtr.or (st.cpm.row d).concept)
    { st' with cpm := { st'.cpm with elementNum := d + 1 } }

/-- The element `i` in `DeleteFromCF`, with the lists and `count`. -/
def deleteStep (row : Nat → TrialRow) (s : AssignList S × AssignList S × Nat) (i : Nat) :
    AssignList S × AssignList S × Nat :=
  if (row i).isOmitted then
    ({ s.1 with flag := Function.update s.1.flag (s.2.1.flag i).toNat UNASSIGNED },
      { s.2.1 with flag := Function.update s.2.1.flag i UNASSIGNED }, s.2.2 + 1)
  else s

/-- `DeleteFromCF` -/
def TrialState.deleteFromCf : TrialState S :=
  let s := (List.range st.cpm.elementNum).foldl (deleteStep st.cpm.row) (st.listP, st.listD, 0)
  { st with
    cpm := { st.cpm with elementNum := st.cpm.elementNum - s.2.2 }
    listP := s.1
    listD := s.2.1 }

/-! ## A frame -/

/-- 指示詞の解析 (割り当てあり) -/
def demoflag (n : Nat) : Bool :=
  env.optDemo && st.listP.flag n ≠ UNASSIGNED &&
    (st.cpm.row (st.listP.flag n).toNat).elemBPtr.any env.isDemonstrative

/-- One slot in `EllipsisDetectForVerbMain` or `EllipsisDetectForNounMain`. -/
def visitSlot (v : SlotVisit S) : TrialState S :=
  -- 割り当てなし => 省略
  if demoflag env st v.slot || st.listP.flag v.slot = UNASSIGNED then
    match v.found with
    | some om => st.appendToCf env cf v.slot om
    | none => st
  else st

end Elements

section Frames

variable {S : Type*} (env : TrialEnv S) (t : FrameTry S)

/-- 入力側格要素を設定, and 今ある格要素を対応づけ -/
def beforeTrial (c : TrialCpm) : Option (TrialState S) :=
  (if env.optDemo || env.typeFlag then env.makeDataCframe c else some c).map fun c =>
    ⟨c, t.listP, t.listD, t.pureScore⟩

/-- The slots of the frame, and 格フレームの追加エントリの削除. -/
def afterTrial (st : TrialState S) : TrialState S :=
  let st' := t.visits.foldl (visitSlot env t.cf) st
  if env.optDemo then st' else st'.deleteFromCf

/-- One turn of the loop in `FindBestCFforContext`. -/
def tryFrame (frameNum : Nat) (c : TrialCpm) : Option TrialCpm :=
  -- OR の格フレームを除く
  if t.cfSum && frameNum ≠ 1 then some c
  else (beforeTrial env t c).map fun st => (afterTrial env t st).cpm

/-- The frames that come first in `FindBestCFforContext`. -/
def tryFrames (frameNum : Nat) (c : TrialCpm) (frames : List (FrameTry S)) : Option TrialCpm :=
  frames.foldlM (fun c t => tryFrame env t frameNum c) c

end Frames

/-! ## The law -/

/-- The elements are the same. -/
structure TrialCpm.SameElements (c c' : TrialCpm) : Prop where
  num : c'.elementNum = c.elementNum
  row : ∀ i < c.elementNum, c'.row i = c.row i

/-- What has been appended is undone. -/
structure TrialState.Undone {S : Type*} (st st' : TrialState S) : Prop where
  elements : st.cpm.SameElements st'.cpm
  slots : ∀ n, st'.listP.flag n = st.listP.flag n
  own : ∀ i < st.cpm.elementNum, st'.listD.flag i = st.listD.flag i

section Law

variable {S : Type*} (env : TrialEnv S) (c : TrialCpm) (frames : List (FrameTry S))

/-- Whatever frames have been tried, the predicate has its elements, and each trial is undone. -/
structure TrialLaw : Prop where
  kept : ∀ done c', done <+: frames → tryFrames env frames.length c done = some c' →
    c.SameElements c'
  undone : ∀ done t c' st, done ++ [t] <+: frames →
    tryFrames env frames.length c done = some c' → beforeTrial env t c' = some st →
    st.Undone (afterTrial env t st)

/-- The arrays that `make_data_cframe` finds. -/
def TrialCpm.args : ArgState where
  elementNum := c.elementNum
  elemBPtr i := (c.row i).elemBPtr.getD 0
  elemBNum i := (c.row i).elemBNum
  pp i := (c.row i).pp.headD END_M
  written := []
  tooMany := false

/-- The elements are set by `make_data_cframe`. -/
structure ArgInput.Builds (inp : ArgInput) (c' : TrialCpm) : Prop where
  num : c'.elementNum = (inp.result c.args).1.elementNum
  elem : ∀ i < c'.elementNum, (c'.row i).elemBPtr = some ((inp.result c.args).1.elemBPtr i)
  bNum : ∀ i < c'.elementNum, (c'.row i).elemBNum = (inp.result c.args).1.elemBNum i
  pp : ∀ i < c'.elementNum, (c'.row i).pp.headD END_M = (inp.result c.args).1.pp i

/-- The law as the source has it: the elements are those that the predicate had, or, with
`type_flag`, those that `make_data_cframe` has set for the frame. -/
structure BuiltLaw (inp : ArgInput) : Prop where
  kept : env.typeFlag = false → ∀ done c', done <+: frames →
    tryFrames env frames.length c done = some c' → c.SameElements c'
  built : env.typeFlag = true → ∀ done t c' st, done ++ [t] <+: frames →
    tryFrames env frames.length c done = some c' → beforeTrial env t c' = some st →
    inp.Builds c' st.cpm
  undone : ∀ done t c' st, done ++ [t] <+: frames →
    tryFrames env frames.length c done = some c' → beforeTrial env t c' = some st →
    st.Undone (afterTrial env t st)

end Law

/-! ## The numbers of the elements -/

/-- No element is an omitted one. -/
def ArgState.Overt (s : ArgState) : Prop := ∀ i < s.elementNum, -2 < s.elemBNum i

/-- The elements in the end, whichever it is. -/
def OvertEnd : Except Stop ArgState → Prop
  | .ok s => s.Overt
  | .error r => r.1.Overt

section Numbers

variable {inp : ArgInput} {s : ArgState} {x : Except Stop ArgState}

theorem OvertEnd.bind {f : ArgState → Except Stop ArgState} (h : OvertEnd x)
    (hf : ∀ s, s.Overt → OvertEnd (f s)) : OvertEnd (x.bind f) := by
  cases x with
  | ok s => exact hf s h
  | error r => exact h

theorem OvertEnd.map {f : ArgState → ArgState} (h : OvertEnd x)
    (hf : ∀ s, s.Overt → (f s).Overt) : OvertEnd (x.map f) := by
  cases x with
  | ok s => exact hf s h
  | error r => exact h

theorem ArgState.overt_reset (s : ArgState) : s.reset.Overt := fun i hi =>
  absurd hi (Nat.not_lt_zero i)

theorem ArgState.Overt.setPp (h : s.Overt) (pp : List Int) : (s.setPp pp).Overt := by
  cases pp with
  | nil => exact h
  | cons cc pp => exact h

theorem ArgState.Overt.add {elem : Nat} {bNum : Int} (h : s.Overt) (hb : -2 < bNum) :
    (s.setElem elem bNum).next.Overt := by
  intro i hi
  have hlt : i < s.elementNum + 1 := hi
  show -2 < Function.update s.elemBNum s.elementNum bNum i
  rcases Nat.lt_succ_iff_lt_or_eq.mp hlt with hlt | rfl
  · rw [Function.update_of_ne (Nat.ne_of_lt hlt)]
    exact h i hlt
  · rw [Function.update_self]
    exact hb

namespace ArgInput

theorem lt_childBNum (elem i : Nat) : -2 < inp.childBNum elem i := by
  unfold childBNum
  split <;> omega

theorem lt_paraBNum (elem i : Nat) : -2 < inp.paraBNum elem i := by
  unfold paraBNum
  split <;> omega

theorem overt_setRentaiPp {b : Nat} (h : s.Overt) : OvertEnd (inp.setRentaiPp b s) := by
  unfold setRentaiPp
  split
  next => exact h
  next pp _ =>
    split
    · exact h.setPp pp
    · exact h

theorem overt_rentai (h : s.Overt) : OvertEnd (inp.makeDataCframeRentai s) := by
  unfold makeDataCframeRentai
  split
  next => exact h
  next => exact (overt_setRentaiPp h).map fun s hs => hs.add (by decide)

theorem overt_compound (h : s.Overt) : OvertEnd (inp.makeCompound s) := by
  unfold makeCompound
  split
  next => exact h
  next =>
    refine OvertEnd.map ?_ fun s hs => hs.add (by decide)
    split
    · exact overt_setRentaiPp h
    · exact h.setPp [ppSoto]

theorem overt_children (l : List Nat) (h : s.Overt) : OvertEnd (inp.makeChildren l s) := by
  induction l generalizing s with
  | nil => exact h
  | cons child rest ih =>
      have hrest : ∀ (made : Bool) (s' : ArgState), s'.Overt →
          OvertEnd (if made && s'.elementNum = 0 then .error (s', some (-1))
            else inp.makeChildren rest s') := by
        intro made s' hs'
        split
        · exact hs'
        · exact ih hs'
      show OvertEnd ((inp.makeDataCframeChild child rest.length s).bind fun r =>
        if r.1 && r.2.elementNum = 0 then .error (r.2, some (-1))
        else inp.makeChildren rest r.2)
      unfold makeDataCframeChild
      split
      next => exact hrest false s h
      next => exact h
      next => exact hrest false s.touch h
      next elem pp _ =>
        refine hrest true _ ?_
        split
        · exact ArgState.overt_reset _
        · exact (h.setPp pp).add (lt_childBNum elem rest.length)

theorem overt_sameBunsetsu (h : s.Overt) : OvertEnd (inp.makeSameBunsetsu s) := by
  unfold makeSameBunsetsu
  split
  · split
    next => exact h
    next => exact h
    next => exact h
    next pp _ =>
      refine (h.setPp pp).add ?_
      omega
  · exact h

theorem overt_checkFull (h : s.Overt) : OvertEnd (checkFull s) := by
  unfold checkFull
  split
  · exact ArgState.overt_reset s
  · exact h

theorem overt_expandPara (l : List Nat) (i : Nat) (h : s.Overt) :
    OvertEnd (inp.expandPara l i s) := by
  induction l generalizing i s with
  | nil => exact h
  | cons child rest ih =>
      rw [expandPara]
      split
      · split
        next => exact (overt_checkFull h).bind fun s hs => ih (i + 1) hs
        next => exact h
        next =>
          have htouch : s.touch.Overt := h
          exact (overt_checkFull htouch).bind fun s hs => ih (i + 1) hs
        next elem pp _ =>
          have hadd : ((s.setPp pp).setElem elem (inp.paraBNum elem i)).next.Overt :=
            (h.setPp pp).add (lt_paraBNum elem i)
          exact (overt_checkFull hadd).bind fun s hs => ih (i + 1) hs
      · exact ih (i + 1) h

theorem overt_makeNo {closest : Int} (h : s.Overt) : (inp.makeNo closest s).Overt := by
  unfold makeNo
  split
  · dsimp only
    split
    · exact (h.setPp [ppMi]).add (by decide)
    next hfull =>
      intro i hi
      show -2 < Function.update s.elemBNum s.elementNum (-1) i
      by_cases heq : i = s.elementNum
      · rw [heq, Function.update_self]
        decide
      · rw [Function.update_of_ne heq]
        exact h i hi
  · exact h

/-- What is collected has no omitted element. -/
theorem overt_result (inp : ArgInput) (s : ArgState) : (inp.result s).1.Overt := by
  have hempty : ArgState.Overt { s with elementNum := 0, written := [], tooMany := false } :=
    fun i hi => absurd hi (Nat.not_lt_zero i)
  have helements : OvertEnd (inp.makeElements s) :=
    ((((overt_rentai hempty).bind fun _ h => overt_compound h).bind fun _ h =>
      overt_children _ h).bind fun _ h => overt_sameBunsetsu h).bind fun _ h =>
        overt_expandPara _ 0 h
  unfold result makeDataCframe
  cases hrun : inp.makeElements s with
  | error r =>
      rw [hrun] at helements
      exact helements
  | ok s' =>
      rw [hrun] at helements
      exact overt_makeNo helements

end ArgInput

end Numbers

/-! ## One trial -/

section Trial

variable {S : Type*} {env : TrialEnv S} {cf : CaseFrame} {st st' : TrialState S} {n : Nat}
  {om : Omitted S}

/-- The slots with their elements, and the elements with their slots. -/
def TrialState.tables (st : TrialState S) : Tables Nat Int Int := (st.listP.flag, st.listD.flag)

/-- The elements of `st` come first, and behind them those that are marked as omitted. -/
structure TrialState.Appended (st st' : TrialState S) : Prop where
  trail : Trail Int.toNat UNASSIGNED st.tables st.cpm.elementNum st'.cpm.elementNum st'.tables
  row : ∀ i < st.cpm.elementNum, st'.cpm.row i = st.cpm.row i
  omitted : ∀ i, st.cpm.elementNum ≤ i → i < st'.cpm.elementNum →
    (st'.cpm.row i).elemBNum = -2

namespace TrialState

theorem Appended.refl (st : TrialState S) : st.Appended st :=
  ⟨.refl _ _, fun _ _ => rfl, fun _ hle hlt => absurd hlt (Nat.not_lt.mpr hle)⟩

theorem Appended.appendToCf (h : st.Appended st') (hfree : st'.listP.flag n = UNASSIGNED) :
    st.Appended (st'.appendToCf env cf n om) := by
  unfold TrialState.appendToCf
  split
  · exact h
  rw [if_neg (not_not.mpr hfree)]
  have hother : ∀ i < st'.cpm.elementNum, ∀ r : TrialRow,
      Function.update st'.cpm.row st'.cpm.elementNum r i = st'.cpm.row i :=
    fun i hi r => Function.update_of_ne (Nat.ne_of_lt hi) ..
  have hnew : ∀ r : TrialRow,
      Function.update st'.cpm.row st'.cpm.elementNum r st'.cpm.elementNum = r :=
    fun r => Function.update_self ..
  have hlink : Trail Int.toNat UNASSIGNED st.tables st.cpm.elementNum (st'.cpm.elementNum + 1)
      (link Int.toNat st'.tables (n : Int) st'.cpm.elementNum (st'.cpm.elementNum : Int)) :=
    h.trail.link hfree
  refine ⟨hlink, fun i hi => ?_, fun i hle hlt => ?_⟩
  · exact (hother i (Nat.lt_of_lt_of_le hi h.trail.le) _).trans (h.row i hi)
  · rcases Nat.lt_succ_iff_lt_or_eq.mp hlt with hlt | rfl
    · exact (congrArg TrialRow.elemBNum (hother i hlt _)).trans (h.omitted i hle hlt)
    · exact congrArg TrialRow.elemBNum (hnew _)

theorem Appended.visitSlot (h : st.Appended st') (hdemo : env.optDemo = false)
    (v : SlotVisit S) : st.Appended (Knp.visitSlot env cf st' v) := by
  unfold Knp.visitSlot demoflag
  rw [hdemo]
  split
  next hfree =>
    split
    next => exact h.appendToCf (by simpa using hfree)
    next => exact h
  next => exact h

theorem Appended.visits (h : st.Appended st') (hdemo : env.optDemo = false)
    (l : List (SlotVisit S)) : st.Appended (l.foldl (Knp.visitSlot env cf) st') := by
  induction l generalizing st' with
  | nil => exact h
  | cons v l ih => exact ih (h.visitSlot hdemo v)

/-- The loop of `DeleteFromCF` takes links back, and counts them. -/
theorem foldl_deleteStep {row : Nat → TrialRow} {m : Nat} (listP listD : AssignList S)
    (hmarked : ∀ i < n, (row i).isOmitted = true ↔ m ≤ i) :
    let s := (List.range n).foldl (deleteStep row) (listP, listD, 0)
    (s.1.flag, s.2.1.flag) = unlink Int.toNat UNASSIGNED UNASSIGNED
        (fun i => (row i).isOmitted) n (listP.flag, listD.flag) ∧
      s.2.2 = n - m := by
  induction n with
  | zero => exact ⟨rfl, (Nat.zero_sub m).symm⟩
  | succ n ih =>
      obtain ⟨hflags, hcount⟩ := ih fun i hi => hmarked i (Nat.lt_succ_of_lt hi)
      have hn := hmarked n (Nat.lt_succ_self n)
      rw [List.range_succ, List.foldl_append, unlink_succ, ← hflags]
      generalize (List.range n).foldl (deleteStep row) (listP, listD, 0) = s at hflags hcount
      dsimp only [List.foldl_cons, List.foldl_nil, deleteStep, unlinkStep]
      by_cases hm : (row n).isOmitted = true
      · rw [if_pos hm, if_pos hm]
        refine ⟨rfl, ?_⟩
        have hle := hn.mp hm
        dsimp only
        omega
      · rw [if_neg hm, if_neg hm]
        refine ⟨rfl, ?_⟩
        rw [hn] at hm
        omega

/-- The elements of the predicate are left. -/
theorem Appended.deleteFromCf (h : st.Appended st')
    (hown : ∀ i < st.cpm.elementNum, -2 < (st.cpm.row i).elemBNum) :
    st.Undone st'.deleteFromCf := by
  have hmarked : ∀ i < st'.cpm.elementNum,
      (st'.cpm.row i).isOmitted = true ↔ st.cpm.elementNum ≤ i := by
    intro i hi
    rw [TrialRow.isOmitted, decide_eq_true_iff]
    rcases Nat.lt_or_ge i st.cpm.elementNum with hlt | hle
    · rw [h.row i hlt]
      have hnum := hown i hlt
      omega
    · rw [h.omitted i hle hi]
      exact iff_of_true (by decide) hle
  have htables : (st'.deleteFromCf).tables = unlink Int.toNat UNASSIGNED UNASSIGNED
      (fun i => (st'.cpm.row i).isOmitted) st'.cpm.elementNum st'.tables :=
    (foldl_deleteStep st'.listP st'.listD hmarked).1
  have hcount := (foldl_deleteStep st'.listP st'.listD hmarked).2
  obtain ⟨hslots, hrest⟩ : (∀ k, (st'.deleteFromCf).tables.1 k = st.tables.1 k) ∧
      ∀ i < st.cpm.elementNum, (st'.deleteFromCf).tables.2 i = st.tables.2 i := by
    rw [htables]
    exact h.trail.unlink hmarked
  have hle := h.trail.le
  have hnum : (st'.deleteFromCf).cpm.elementNum = st.cpm.elementNum := by
    show st'.cpm.elementNum - _ = st.cpm.elementNum
    rw [hcount]
    omega
  exact ⟨⟨hnum, h.row⟩, hslots, hrest⟩

end TrialState

theorem undone_afterTrial {t : FrameTry S} (hdemo : env.optDemo = false)
    (hown : ∀ i < st.cpm.elementNum, -2 < (st.cpm.row i).elemBNum) :
    st.Undone (afterTrial env t st) := by
  have happended : st.Appended (t.visits.foldl (visitSlot env t.cf) st) :=
    (TrialState.Appended.refl st).visits hdemo t.visits
  unfold afterTrial
  rw [hdemo]
  exact happended.deleteFromCf hown

end Trial

/-! ## All trials -/

section Run

variable {S : Type*} {env : TrialEnv S} {c c' : TrialCpm} {frames : List (FrameTry S)}

theorem TrialCpm.SameElements.trans {c'' : TrialCpm} (h : c.SameElements c')
    (h' : c'.SameElements c'') : c.SameElements c'' := by
  refine ⟨h'.num.trans h.num, fun i hi => ?_⟩
  rw [h'.row i (by rw [h.num]; exact hi), h.row i hi]

/-- Without `type_flag` no frame changes the elements. -/
theorem sameElements_of_tryFrames {frameNum : Nat} (hdemo : env.optDemo = false)
    (htype : env.typeFlag = false) (hown : ∀ i < c.elementNum, -2 < (c.row i).elemBNum)
    (hrun : tryFrames env frameNum c frames = some c') : c.SameElements c' := by
  refine Loop.foldlM_induction (fun _ c' => c.SameElements c') frames [] c c' ?_
    ⟨rfl, fun _ _ => rfl⟩ hrun
  intro _ t c₁ c₂ _ hsame htry
  unfold tryFrame at htry
  split at htry
  · obtain rfl := Option.some.inj htry
    exact hsame
  · unfold beforeTrial at htry
    rw [hdemo, htype, Bool.or_false, if_neg Bool.false_ne_true, Option.map_some,
      Option.map_some] at htry
    obtain rfl := Option.some.inj htry
    have hown' : ∀ i < c₁.elementNum, -2 < (c₁.row i).elemBNum := by
      intro i hi
      rw [hsame.num] at hi
      rw [hsame.row i hi]
      exact hown i hi
    have hundone : TrialState.Undone ⟨c₁, t.listP, t.listD, t.pureScore⟩
        (afterTrial env t ⟨c₁, t.listP, t.listD, t.pureScore⟩) := undone_afterTrial hdemo hown'
    exact hsame.trans hundone.elements

/-- What a frame is tried with has no omitted element. -/
theorem own_of_beforeTrial {inp : ArgInput} {t : FrameTry S} {st : TrialState S}
    (hdemo : env.optDemo = false)
    (hbuilds : ∀ c c', env.makeDataCframe c = some c' → inp.Builds c c')
    (hown : env.typeFlag = false → ∀ i < c.elementNum, -2 < (c.row i).elemBNum)
    (hbefore : beforeTrial env t c = some st) :
    (env.typeFlag = true → inp.Builds c st.cpm) ∧
      ∀ i < st.cpm.elementNum, -2 < (st.cpm.row i).elemBNum := by
  unfold beforeTrial at hbefore
  rw [hdemo, Bool.false_or] at hbefore
  obtain ⟨c', hc', rfl⟩ := Option.map_eq_some_iff.mp hbefore
  cases htype : env.typeFlag with
  | false =>
      rw [htype, if_neg Bool.false_ne_true] at hc'
      obtain rfl := Option.some.inj hc'
      exact ⟨fun h => absurd h Bool.false_ne_true, hown htype⟩
  | true =>
      rw [htype, if_pos rfl] at hc'
      have hbuilt := hbuilds c c' hc'
      refine ⟨fun _ => hbuilt, fun i hi => ?_⟩
      have hover := inp.overt_result c.args i (hbuilt.num ▸ hi)
      rw [hbuilt.bNum i hi]
      exact hover

/-- **What the trials leave.** -/
theorem builtLaw {inp : ArgInput} (hdemo : env.optDemo = false)
    (hbuilds : ∀ c c', env.makeDataCframe c = some c' → inp.Builds c c')
    (hown : ∀ i < c.elementNum, -2 < (c.row i).elemBNum) : BuiltLaw env c frames inp := by
  have hrun : ∀ done c', tryFrames env frames.length c done = some c' → env.typeFlag = false →
      ∀ i < c'.elementNum, -2 < (c'.row i).elemBNum := by
    intro done c' hdone htype i hi
    have hsame := sameElements_of_tryFrames hdemo htype hown hdone
    rw [hsame.num] at hi
    rw [hsame.row i hi]
    exact hown i hi
  refine ⟨fun htype done c' _ hdone => ?_, fun htype done t c' st _ hdone hbefore => ?_,
    fun done t c' st _ hdone hbefore => ?_⟩
  · exact sameElements_of_tryFrames hdemo htype hown hdone
  · exact (own_of_beforeTrial hdemo hbuilds (hrun done c' hdone) hbefore).1 htype
  · exact undone_afterTrial hdemo (own_of_beforeTrial hdemo hbuilds (hrun done c' hdone) hbefore).2

end Run

/-! ## A predicate that is read as a noun -/

/-- The elements that `make_data_cframe` sets, with the first case of each. -/
def ArgInput.build (inp : ArgInput) (c : TrialCpm) : Option TrialCpm :=
  let s := (inp.result c.args).1
  if (inp.result c.args).2 = none then none
  else some
    { elementNum := s.elementNum
      row := fun i =>
        { c.row i with
          elemBPtr := some (s.elemBPtr i), elemBNum := s.elemBNum i, pp := [s.pp i] } }

theorem ArgInput.builds_of_build {inp : ArgInput} {c c' : TrialCpm} (h : inp.build c = some c') :
    inp.Builds c c' := by
  unfold build at h
  split at h
  · cases h
  · obtain rfl := Option.some.inj h
    exact ⟨rfl, fun _ _ => rfl, fun _ _ => rfl, fun _ _ => rfl⟩

/-- 「彼の勉強だ」, in the reading that is asked for. -/
def studyInput (cfType : CfType) : ArgInput where
  tag n :=
    if n = 0 then ⟨0, 0, ["係:ノ格", "Ｔ名詞項"], .nil, false, 'D', some 1, []⟩
    else ⟨1, 0, ["用言:判", "サ変"], .nil, false, 'D', none, [0]⟩
  pred := 1
  cfType := cfType
  optAnaphora := false
  optCaseNo := false
  useNtt := false
  noSmCode _ := false
  isSubject _ := false
  ccRelation _ := false
  size := 2

def studyEnv (typeFlag : Bool) : TrialEnv Int where
  optDemo := false
  typeFlag := typeFlag
  isDemonstrative _ := false
  takeOff s t := s - t
  makeDataCframe := (studyInput .noun).build

def emptyRow : TrialRow := ⟨none, none, 0, [], false, 0, false, none⟩

/-- A frame with one slot, for which the tag 0 is found. -/
def oneSlotTry : FrameTry Int where
  cf := ⟨1, fun _ => false, fun _ => [ppGa], fun _ => 0, fun _ => 0, []⟩
  cfSum := false
  listP := ⟨fun _ => UNASSIGNED, fun _ => -1, fun _ => -1⟩
  listD := ⟨fun _ => UNASSIGNED, fun _ => -1, fun _ => -1⟩
  pureScore := 0
  visits := [⟨0, some ⟨some 0, some 0, 0, 5⟩⟩]

theorem oneSlotTry_builtLaw :
    BuiltLaw (studyEnv false) ⟨1, fun _ => emptyRow⟩ [oneSlotTry, oneSlotTry] (studyInput .noun) :=
  builtLaw rfl (fun _ _ h => ArgInput.builds_of_build h) (by decide)

/-- As a predicate it has no element, and after a frame for the noun it has one. -/
theorem study_not_kept :
    ((studyInput .pred).result (TrialCpm.args ⟨0, fun _ => emptyRow⟩)).1.elementNum = 0 ∧
      ¬TrialLaw (studyEnv true) ⟨0, fun _ => emptyRow⟩ [oneSlotTry] := by
  refine ⟨by decide, fun h => ?_⟩
  have hnum : (tryFrames (studyEnv true) 1 ⟨0, fun _ => emptyRow⟩ [oneSlotTry]).map
      TrialCpm.elementNum = some 1 := by decide
  obtain ⟨c', hrun, hone⟩ := Option.map_eq_some_iff.mp hnum
  have hsame := (h.kept [oneSlotTry] c' (List.prefix_refl _) hrun).num
  rw [hone] at hsame
  exact absurd hsame (by decide)

end Knp
