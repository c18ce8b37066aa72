import Knp.CaseElements

/-!
# The bound of the element arrays

Every stage of `make_data_cframe` finds the arrays as they hold the arguments so far, and
adds its own; up to the predicate's own tag there is room, since a child that fills the
arrays ends the collection.

> The bound holds just if nothing is added when the predicate's own tag has filled the
> arrays.
-/

namespace Knp

/-! ## The arrays -/

/-- The elements are the arguments. -/
structure ArgState.Holds (s : ArgState) (args : List Nat) : Prop where
  num : s.elementNum = args.length
  elem : ∀ i < args.length, args[i]? = some (s.elemBPtr i)
  below : ∀ k ∈ s.written, k < CF_ELEMENT_MAX
  few : s.tooMany = false

/-- An end that keeps the law. -/
structure Stop.Fine (r : Stop) : Prop where
  below : ∀ k ∈ r.1.written, k < CF_ELEMENT_MAX
  gaveUp : r.1.tooMany = true → r.1.elementNum = 0 ∧ r.2 = some (-1)

namespace ArgState

variable {s : ArgState} {args : List Nat} {elem : Nat} {bNum : Int} {pp : List Int}

theorem written_setPp (s : ArgState) (pp : List Int) :
    (s.setPp pp).written = s.written ++ [s.elementNum] := by
  cases pp with
  | nil => rfl
  | cons cc pp => rfl

theorem elementNum_setPp (s : ArgState) (pp : List Int) :
    (s.setPp pp).elementNum = s.elementNum := by
  cases pp with
  | nil => rfl
  | cons cc pp => rfl

theorem elementNum_setElem (s : ArgState) (elem : Nat) (bNum : Int) :
    (s.setElem elem bNum).elementNum = s.elementNum := rfl

theorem written_setElem (s : ArgState) (elem : Nat) (bNum : Int) :
    (s.setElem elem bNum).written = s.written ++ [s.elementNum] := rfl

theorem below_concat (h : s.Holds args) (hlt : args.length < CF_ELEMENT_MAX) :
    ∀ k ∈ s.written ++ [s.elementNum], k < CF_ELEMENT_MAX := by
  rw [List.forall_mem_append, List.forall_mem_singleton, h.num]
  exact ⟨h.below, hlt⟩

theorem Holds.touch (h : s.Holds args) (hlt : args.length < CF_ELEMENT_MAX) :
    s.touch.Holds args :=
  ⟨h.num, h.elem, below_concat h hlt, h.few⟩

theorem Holds.setPp (h : s.Holds args) (hlt : args.length < CF_ELEMENT_MAX) :
    (s.setPp pp).Holds args := by
  cases pp with
  | nil => exact h.touch hlt
  | cons cc pp => exact ⟨h.num, h.elem, below_concat h hlt, h.few⟩

theorem Holds.add (h : s.Holds args) (hlt : args.length < CF_ELEMENT_MAX) :
    (s.setElem elem bNum).next.Holds (args ++ [elem]) := by
  refine ⟨?_, ?_, below_concat h hlt, h.few⟩
  · rw [List.length_append, List.length_singleton, ← h.num]
    rfl
  · intro i hi
    rw [List.length_append, List.length_singleton] at hi
    rcases Nat.lt_or_ge i args.length with hlt' | hge
    · rw [List.getElem?_append_left hlt', h.elem i hlt']
      have hne : i ≠ s.elementNum := by
        rw [h.num]
        omega
      exact congrArg some (Function.update_of_ne hne _ _).symm
    · obtain rfl : i = args.length := by omega
      rw [List.getElem?_concat_length, ← h.num]
      show some elem = some (Function.update s.elemBPtr s.elementNum elem s.elementNum)
      rw [Function.update_self]

/-- One turn that makes an element. -/
theorem Holds.made (h : s.Holds args) (hlt : args.length < CF_ELEMENT_MAX) (pp : List Int)
    (elem : Nat) (bNum : Int) : ((s.setPp pp).setElem elem bNum).next.Holds (args ++ [elem]) :=
  (h.setPp hlt).add hlt

theorem Holds.fine (h : s.Holds args) (ret : Option Int) : Stop.Fine (s, ret) := by
  refine ⟨h.below, ?_⟩
  intro hmany
  rw [h.few] at hmany
  cases hmany

theorem Holds.fineReset (h : s.Holds args) : Stop.Fine (s.reset, some (-1)) :=
  ⟨h.below, fun _ => ⟨rfl, rfl⟩⟩

end ArgState

/-! ## The stages -/

/-- A stage that adds the arguments `more`, or ends where they are not known or too many. -/
def Reaches (args : List Nat) (more : Option (List Nat)) : Except Stop ArgState → Prop
  | .ok s => ∃ new, more = some new ∧ s.Holds (args ++ new) ∧ (args ++ new).length < CF_ELEMENT_MAX
  | .error r => r.Fine ∧ ∀ new, more = some new → CF_ELEMENT_MAX ≤ (args ++ new).length

theorem Reaches.bind {args : List Nat} {more more' : Option (List Nat)} {x : Except Stop ArgState}
    {next : ArgState → Except Stop ArgState} (h : Reaches args more x)
    (hnext : ∀ s new, more = some new → s.Holds (args ++ new) →
      (args ++ new).length < CF_ELEMENT_MAX → Reaches (args ++ new) more' (next s)) :
    Reaches args (more.bind fun a => more'.map fun b => a ++ b) (x.bind next) := by
  cases x with
  | error r =>
      obtain ⟨hfine, hmany⟩ := h
      refine ⟨hfine, ?_⟩
      intro new hnew
      obtain ⟨a, ha, hb⟩ := Option.bind_eq_some_iff.mp hnew
      obtain ⟨b, -, rfl⟩ := Option.map_eq_some_iff.mp hb
      have hle := hmany a ha
      simp only [List.length_append] at hle ⊢
      omega
  | ok s =>
      obtain ⟨a, ha, hs, hlt⟩ := h
      have hrest := hnext s a ha hs hlt
      rw [ha, Option.bind_some]
      show Reaches args (more'.map fun b => a ++ b) (next s)
      cases hx : next s with
      | error r =>
          rw [hx] at hrest
          refine ⟨hrest.1, ?_⟩
          intro new hnew
          obtain ⟨b, hb, rfl⟩ := Option.map_eq_some_iff.mp hnew
          rw [← List.append_assoc]
          exact hrest.2 b hb
      | ok s' =>
          rw [hx] at hrest
          obtain ⟨b, hb, hs', hlt'⟩ := hrest
          refine ⟨a ++ b, ?_, ?_, ?_⟩
          · rw [hb]
            rfl
          · rwa [← List.append_assoc]
          · rwa [← List.append_assoc]

/-- An argument in front of the others. -/
theorem Reaches.cons {args : List Nat} {more : Option (List Nat)} {x : Except Stop ArgState}
    {elem : Nat} (h : Reaches (args ++ [elem]) more x) :
    Reaches args (more.map fun new => elem :: new) x := by
  cases x with
  | error r =>
      refine ⟨h.1, ?_⟩
      intro new hnew
      obtain ⟨rest, hrest, rfl⟩ := Option.map_eq_some_iff.mp hnew
      rw [List.append_cons]
      exact h.2 rest hrest
  | ok s =>
      obtain ⟨new, hnew, hs, hlt⟩ := h
      refine ⟨elem :: new, ?_, ?_, ?_⟩
      · rw [hnew]
        rfl
      · rwa [List.append_cons]
      · rwa [List.append_cons]

namespace ArgInput

variable {inp : ArgInput} {s : ArgState} {args : List Nat}

/-- An element whose case was written, or not. -/
theorem reaches_add {elem : Nat} {bNum : Int} (h : s.Holds args)
    (hlt : args.length + 1 < CF_ELEMENT_MAX) :
    Reaches args (some [elem]) (.ok (s.setElem elem bNum).next) := by
  refine ⟨[elem], rfl, h.add (by omega), ?_⟩
  rw [List.length_append, List.length_singleton]
  exact hlt

theorem reaches_rentaiPp {b elem : Nat} {bNum : Int} (h : s.Holds args)
    (hlt : args.length + 1 < CF_ELEMENT_MAX) :
    Reaches args ((inp.makeRentaiPp b).map fun _ => [elem])
      ((inp.setRentaiPp b s).map fun s => (s.setElem elem bNum).next) := by
  rw [setRentaiPp]
  cases inp.makeRentaiPp b with
  | none =>
      refine ⟨(h.touch (by omega)).fine none, ?_⟩
      intro new hnew
      cases hnew
  | some pp =>
      refine reaches_add ?_ hlt
      split
      · exact h.setPp (by omega)
      · exact h

theorem reaches_rentai (h : s.Holds args) (hlt : args.length + 1 < CF_ELEMENT_MAX) :
    Reaches args inp.rentaiArgs (inp.makeDataCframeRentai s) := by
  rw [rentaiArgs, makeDataCframeRentai]
  cases inp.rentaiElem with
  | none =>
      refine ⟨[], rfl, ?_, ?_⟩
      · rwa [List.append_nil]
      · rw [List.append_nil]
        omega
  | some e => exact reaches_rentaiPp h hlt

theorem length_rentaiArgs_le {new : List Nat} (h : inp.rentaiArgs = some new) :
    new.length ≤ 1 := by
  rw [rentaiArgs] at h
  cases he : inp.rentaiElem with
  | none =>
      rw [he] at h
      cases h
      exact Nat.zero_le 1
  | some e =>
      rw [he] at h
      obtain ⟨pp, -, rfl⟩ := Option.map_eq_some_iff.mp h
      exact le_rfl

theorem reaches_compound (h : s.Holds args) (hlt : args.length + 1 < CF_ELEMENT_MAX) :
    Reaches args inp.compoundArgs (inp.makeCompound s) := by
  rw [compoundArgs, makeCompound]
  cases inp.compoundElem with
  | none =>
      refine ⟨[], rfl, ?_, ?_⟩
      · rwa [List.append_nil]
      · rw [List.append_nil]
        omega
  | some p =>
      dsimp only
      split
      · exact reaches_rentaiPp h hlt
      · exact reaches_add (h.setPp (by omega)) hlt

/-! ## The children -/

theorem makeChildren_cons (child : Nat) (rest : List Nat) (s : ArgState) :
    inp.makeChildren (child :: rest) s =
      (inp.makeDataCframeChild child rest.length s).bind fun r =>
        if r.1 && r.2.elementNum = 0 then .error (r.2, some (-1))
        else inp.makeChildren rest r.2 := rfl

theorem bind_child {rest : List Nat} {made : Bool} (h : s.elementNum ≠ 0) :
    ((Except.ok (made, s) : Except Stop (Bool × ArgState)).bind fun r =>
      if r.1 && r.2.elementNum = 0 then .error (r.2, some (-1)) else inp.makeChildren rest r.2) =
      inp.makeChildren rest s :=
  if_neg (by simp [h])

theorem reaches_children (l : List Nat) (h : s.Holds args) (hlt : args.length < CF_ELEMENT_MAX) :
    Reaches args (inp.childArgs l) (inp.makeChildren l s) := by
  induction l generalizing s args with
  | nil =>
      refine ⟨[], rfl, ?_, ?_⟩
      · rwa [List.append_nil]
      · rwa [List.append_nil]
  | cons child rest ih =>
      rw [makeChildren_cons, makeDataCframeChild, childArgs]
      cases inp.makeDataCframePp child with
      | barred => exact ih h hlt
      | exit =>
          refine ⟨(h.touch hlt).fine none, ?_⟩
          intro new hnew
          cases hnew
      | null => exact ih (h.touch hlt) hlt
      | made elem pp =>
          have hadd := h.made hlt pp (inp.childElem elem) (inp.childBNum elem rest.length)
          have hnum := hadd.num
          rw [List.length_append, List.length_singleton] at hnum
          dsimp only
          by_cases hfull : CF_ELEMENT_MAX ≤ args.length + 1
          · rw [if_pos (hnum ▸ hfull)]
            refine ⟨hadd.fineReset, ?_⟩
            intro new hnew
            obtain ⟨more, -, rfl⟩ := Option.map_eq_some_iff.mp hnew
            rw [List.length_append, List.length_cons]
            omega
          · rw [if_neg (hnum ▸ hfull)]
            have hnext : (args ++ [inp.childElem elem]).length < CF_ELEMENT_MAX := by
              rw [List.length_append, List.length_singleton]
              omega
            have hpos : (((s.setPp pp).setElem (inp.childElem elem)
                (inp.childBNum elem rest.length)).next).elementNum ≠ 0 := by
              rw [hnum]
              exact Nat.succ_ne_zero _
            rw [bind_child hpos]
            exact (ih hadd hnext).cons

theorem reaches_arguments (h : s.Holds []) :
    Reaches [] inp.arguments (inp.makeArguments s) := by
  have hcompound : Reaches [] (inp.rentaiArgs.bind fun args => inp.compoundArgs.map fun new =>
      args ++ new) ((inp.makeDataCframeRentai s).bind inp.makeCompound) := by
    refine (reaches_rentai h (by decide)).bind ?_
    intro s' new hnew hs _
    refine reaches_compound hs ?_
    have hle := length_rentaiArgs_le hnew
    rw [List.nil_append, CF_ELEMENT_MAX]
    omega
  refine hcompound.bind ?_
  intro s' new _ hs hlt
  exact reaches_children _ hs hlt

/-! ## The predicate's own tag -/

theorem makeSameBunsetsu_of_ownTag (h : inp.ownTag = true) :
    ∃ pp bNum, inp.makeSameBunsetsu s = .ok ((s.setPp pp).setElem inp.pred bNum).next := by
  rw [ownTag, Bool.and_eq_true] at h
  obtain ⟨hfeature, hmade⟩ := h
  rw [makeSameBunsetsu, if_pos hfeature]
  cases hpp : inp.makeDataCframePp inp.pred with
  | barred =>
      rw [hpp] at hmade
      cases hmade
  | exit =>
      rw [hpp] at hmade
      cases hmade
  | null =>
      rw [hpp] at hmade
      cases hmade
  | made elem pp => exact ⟨pp, _, rfl⟩

/-- Nothing is added for the predicate's own tag. -/
theorem makeSameBunsetsu_of_not (h : inp.ownTag = false) (hs : s.Holds args)
    (hlt : args.length < CF_ELEMENT_MAX) :
    (∃ s', inp.makeSameBunsetsu s = .ok s' ∧ s'.Holds args) ∨
      ∃ r, inp.makeSameBunsetsu s = .error r ∧ r.Fine := by
  rw [makeSameBunsetsu]
  split
  next hfeature =>
    rw [ownTag, hfeature, Bool.true_and] at h
    cases hpp : inp.makeDataCframePp inp.pred with
    | barred => exact .inl ⟨s, rfl, hs⟩
    | exit => exact .inr ⟨_, rfl, (hs.touch hlt).fine none⟩
    | null => exact .inl ⟨s.touch, rfl, hs.touch hlt⟩
    | made elem pp =>
        rw [hpp] at h
        cases h
  next => exact .inl ⟨s, rfl, hs⟩

/-! ## The coordination and the ノ格, where there is room -/

theorem checkFull_of_lt (h : s.Holds args) (hlt : args.length < CF_ELEMENT_MAX) :
    checkFull s = .ok s := by
  rw [checkFull, h.num, if_neg (not_le.mpr hlt)]

theorem checkFull_of_eq (h : s.Holds args) (hlen : CF_ELEMENT_MAX ≤ args.length) :
    checkFull s = .error (s.reset, some (-1)) := by
  rw [checkFull, h.num, if_pos hlen]

/-- The coordination keeps the law as long as there is room. -/
theorem expandPara_of_lt (l : List Nat) (i : Nat) (h : s.Holds args)
    (hlt : args.length < CF_ELEMENT_MAX) :
    (∃ s' args', inp.expandPara l i s = .ok s' ∧ s'.Holds args' ∧ args'.length < CF_ELEMENT_MAX) ∨
      ∃ r, inp.expandPara l i s = .error r ∧ r.Fine := by
  induction l generalizing i s args with
  | nil => exact .inl ⟨s, args, rfl, h, hlt⟩
  | cons child rest ih =>
      rw [expandPara]
      split
      next =>
        cases inp.makeDataCframePp child with
        | barred =>
            dsimp only
            rw [checkFull_of_lt h hlt]
            exact ih (i + 1) h hlt
        | exit => exact .inr ⟨_, rfl, (h.touch hlt).fine none⟩
        | null =>
            dsimp only
            rw [checkFull_of_lt (h.touch hlt) hlt]
            exact ih (i + 1) (h.touch hlt) hlt
        | made elem pp =>
            have hadd := h.made hlt pp elem (inp.paraBNum elem i)
            dsimp only
            rcases Nat.lt_or_ge (args ++ [elem]).length CF_ELEMENT_MAX with hlt' | hge
            · rw [checkFull_of_lt hadd hlt']
              exact ih (i + 1) hadd hlt'
            · rw [checkFull_of_eq hadd hge]
              exact .inr ⟨_, rfl, hadd.fineReset⟩
      next => exact ih (i + 1) h hlt

theorem makeNo_fine (h : s.Holds args) (hlt : args.length < CF_ELEMENT_MAX) (closest : Int)
    (ret : Option Int) : Stop.Fine (inp.makeNo closest s, ret) := by
  rw [makeNo]
  split
  · dsimp only
    split
    · exact ((h.setPp hlt).add hlt).fine ret
    next hfull =>
      rw [ArgState.elementNum_setElem, ArgState.elementNum_setPp, h.num] at hfull
      exact absurd hlt hfull
  · exact h.fine ret

/-! ## The coordination and the ノ格, where the arrays are full -/

theorem expandPara_of_none {l : List Nat} (hnone : l.find? inp.dependsOnPara = none) (i : Nat) :
    inp.expandPara l i s = .ok s := by
  induction l generalizing i with
  | nil => rfl
  | cons child rest ih =>
      rw [List.find?_eq_none] at hnone
      obtain ⟨hchild, hrest⟩ := List.forall_mem_cons.mp hnone
      rw [expandPara, if_neg hchild]
      exact ih (List.find?_eq_none.mpr hrest) (i + 1)

/-- The first argument of the coordination ends the collection, and is written before unless it is
barred. -/
theorem expandPara_of_full {l : List Nat} {child : Nat}
    (hfind : l.find? inp.dependsOnPara = some child) (h : s.Holds args)
    (hlen : args.length = CF_ELEMENT_MAX) (i : Nat) :
    ∃ r, inp.expandPara l i s = .error r ∧
      (r.Fine ↔ inp.makeDataCframePp child = .barred) := by
  induction l generalizing i with
  | nil => cases hfind
  | cons c rest ih =>
      rw [expandPara]
      by_cases hc : inp.dependsOnPara c = true
      · rw [List.find?_cons_of_pos hc] at hfind
        obtain rfl := Option.some.inj hfind
        rw [if_pos hc]
        have hover : ∀ r : Stop, CF_ELEMENT_MAX ∈ r.1.written → ¬r.Fine := by
          intro r hmem hfine
          exact lt_irrefl _ (hfine.below _ hmem)
        have hwritten : CF_ELEMENT_MAX ∈ s.written ++ [s.elementNum] := by
          rw [h.num, hlen]
          exact List.mem_append_right _ List.mem_cons_self
        cases inp.makeDataCframePp c with
        | barred =>
            dsimp only
            rw [checkFull_of_eq h hlen.ge]
            exact ⟨_, rfl, iff_of_true h.fineReset rfl⟩
        | exit => exact ⟨_, rfl, iff_of_false (hover _ hwritten) (by simp)⟩
        | null =>
            have hfull : checkFull s.touch = .error (s.touch.reset, some (-1)) :=
              if_pos (show CF_ELEMENT_MAX ≤ s.elementNum by rw [h.num, hlen])
            dsimp only
            rw [hfull]
            exact ⟨_, rfl, iff_of_false (hover _ hwritten) (by simp)⟩
        | made elem pp =>
            have hfull : checkFull ((s.setPp pp).setElem elem (inp.paraBNum elem i)).next =
                .error (((s.setPp pp).setElem elem (inp.paraBNum elem i)).next.reset,
                  some (-1)) := by
              rw [checkFull, if_pos]
              show CF_ELEMENT_MAX ≤ (s.setPp pp).elementNum + 1
              rw [ArgState.elementNum_setPp, h.num, hlen]
              exact Nat.le_succ _
            dsimp only
            rw [hfull]
            refine ⟨_, rfl, iff_of_false (hover _ ?_) (by simp)⟩
            show CF_ELEMENT_MAX ∈ (s.setPp pp).written ++ [(s.setPp pp).elementNum]
            rw [ArgState.written_setPp]
            exact List.mem_append_left _ hwritten
      · rw [List.find?_cons_of_neg hc] at hfind
        rw [if_neg hc]
        exact ih hfind (i + 1)

/-- The search for the closest element ends at the first one that is part of a compound or of the
predicate's own tag. -/
theorem closestLoop_ends {L : List Nat} (helem : ∀ i < L.length, L[i]? = some (s.elemBPtr i))
    (k i : Nat) (best : Option Nat) (hlen : i + k = L.length) {t : Nat}
    (hfind : (L.drop i).find? inp.endsSearch = some t) :
    ∃ j < L.length, L[j]? = some t ∧
      inp.closestLoop s k i best = .inl (if 0 < (inp.tag t).inum then -1 else (j : Int)) := by
  induction k generalizing i best with
  | zero =>
      rw [List.drop_eq_nil_of_le (by omega)] at hfind
      cases hfind
  | succ k ih =>
      have hi : i < L.length := by omega
      obtain ⟨hget, hgetElem⟩ := List.getElem?_eq_some_iff.mp (helem i hi)
      rw [List.drop_eq_getElem_cons hi, hgetElem] at hfind
      rw [closestLoop]
      by_cases hinum : 0 < (inp.tag (s.elemBPtr i)).inum
      · rw [List.find?_cons_of_pos (by simp [endsSearch, hinum])] at hfind
        obtain rfl := Option.some.inj hfind
        refine ⟨i, hi, helem i hi, ?_⟩
        rw [if_pos hinum, if_pos hinum]
      · by_cases hnum : inp.predTag.num = (inp.tag (s.elemBPtr i)).num
        · rw [List.find?_cons_of_pos (by simp [endsSearch, hnum])] at hfind
          obtain rfl := Option.some.inj hfind
          refine ⟨i, hi, helem i hi, ?_⟩
          rw [if_neg hinum, if_pos hnum, if_neg hinum]
        · rw [List.find?_cons_of_neg (by simpa [endsSearch, hnum] using hinum)] at hfind
          rw [if_neg hinum, if_neg hnum]
          split
          · exact ih (i + 1) _ (by omega) hfind
          · exact ih (i + 1) _ (by omega) hfind

/-- The ノ格 is added just if the predicate's own tag is closest and has one in front. -/
theorem makeNo_of_full (h : s.Holds (args ++ [inp.pred]))
    (hlen : (args ++ [inp.pred]).length = CF_ELEMENT_MAX) (ret : Option Int) :
    Stop.Fine (inp.makeNo (inp.getClosestCaseComponent s) s, ret) ↔
      (inp.optCaseNo && (inp.ownTagClosest args && inp.noInFront inp.pred)) = false := by
  have hown : inp.endsSearch inp.pred = true := by simp [endsSearch, predTag]
  obtain ⟨t, hfind⟩ := Option.isSome_iff_exists.mp
    (List.find?_isSome.mpr ⟨inp.pred, List.mem_append_right args List.mem_cons_self, hown⟩)
  obtain ⟨j, hj, hjt, hloop⟩ := @closestLoop_ends inp s _ h.elem s.elementNum 0 none
    (by rw [Nat.zero_add, h.num]) t (by rwa [List.drop_zero])
  have hclosest : inp.getClosestCaseComponent s =
      if 0 < (inp.tag t).inum then -1 else (j : Int) := by
    rw [getClosestCaseComponent, hloop]
  have hends := List.find?_some hfind
  have hownTag : inp.ownTagClosest args = decide ((inp.tag t).inum = 0) := by
    rw [ownTagClosest, hfind]
    rfl
  have hcond : (inp.getClosestCaseComponent s > -1 &&
      inp.noInFront (s.elemBPtr (inp.getClosestCaseComponent s).toNat)) =
        (inp.ownTagClosest args && inp.noInFront inp.pred) := by
    rw [hclosest, hownTag]
    by_cases hinum : 0 < (inp.tag t).inum
    · rw [if_pos hinum]
      simp [show (inp.tag t).inum ≠ 0 by omega]
    · rw [if_neg hinum, Int.toNat_natCast]
      have helem := h.elem j hj
      rw [hjt] at helem
      have hnum : inp.predTag.num = (inp.tag t).num := by
        simpa [endsSearch, hinum] using hends
      have hfront : inp.noInFront t = inp.noInFront inp.pred := by
        rw [noInFront, noInFront, ← hnum]
        rfl
      have hj0 : (j : Int) > -1 := by omega
      rw [← Option.some.inj helem, hfront, decide_eq_true hj0,
        decide_eq_true (show (inp.tag t).inum = 0 by omega)]
  rw [makeNo, hcond]
  cases hadds : inp.optCaseNo && (inp.ownTagClosest args && inp.noInFront inp.pred) with
  | false =>
      rw [if_neg Bool.false_ne_true]
      exact iff_of_true (h.fine ret) rfl
  | true =>
      rw [if_pos rfl]
      refine iff_of_false ?_ (by simp)
      intro hfine
      dsimp only at hfine
      rw [if_neg] at hfine
      · refine lt_irrefl _ (hfine.below CF_ELEMENT_MAX ?_)
        rw [ArgState.written_setElem, ArgState.elementNum_setPp, h.num, hlen]
        exact List.mem_append_right _ List.mem_cons_self
      · rw [ArgState.elementNum_setElem, ArgState.elementNum_setPp, h.num, hlen]
        exact lt_irrefl _

/-! ## The whole -/

theorem result_of_error {r : Stop} (h : inp.makeElements s = .error r) : inp.result s = r := by
  rw [result, makeDataCframe, h]
  rfl

theorem result_of_ok {s' : ArgState} (h : inp.makeElements s = .ok s') :
    inp.result s = (inp.makeNo (inp.getClosestCaseComponent s') s',
      some (inp.getClosestCaseComponent s')) := by
  rw [result, makeDataCframe, h]
  rfl

theorem collectLaw_iff_fine : inp.CollectLaw s ↔ (inp.result s).Fine :=
  ⟨fun h => ⟨h.below, h.gaveUp⟩, fun h => ⟨h.below, h.gaveUp⟩⟩

/-- Where there is room behind the predicate's own tag, the rest keeps the law. -/
theorem fine_of_room (h : s.Holds args) (hlt : args.length < CF_ELEMENT_MAX) {s₀ : ArgState}
    (hrun : inp.makeElements s₀ = inp.expandPara inp.paraChildren 0 s) :
    (inp.result s₀).Fine := by
  rcases expandPara_of_lt inp.paraChildren 0 h hlt with
    ⟨s', args', hok, hs', hlt'⟩ | ⟨r, herr, hfine⟩
  · rw [result_of_ok (hrun.trans hok)]
    exact makeNo_fine hs' hlt' _ _
  · rw [result_of_error (hrun.trans herr)]
    exact hfine

/-- Where the predicate's own tag fills the arrays, the law depends on what is added. -/
theorem fine_iff_of_full (h : s.Holds (args ++ [inp.pred]))
    (hlen : (args ++ [inp.pred]).length = CF_ELEMENT_MAX) {s₀ : ArgState}
    (hrun : inp.makeElements s₀ = inp.expandPara inp.paraChildren 0 s) :
    (inp.result s₀).Fine ↔ inp.addsMore args = false := by
  rw [addsMore]
  cases hfind : inp.paraChildren.find? inp.dependsOnPara with
  | none =>
      rw [result_of_ok (hrun.trans (expandPara_of_none hfind 0))]
      exact makeNo_of_full h hlen _
  | some child =>
      obtain ⟨r, herr, hfine⟩ := expandPara_of_full hfind h hlen 0
      rw [result_of_error (hrun.trans herr), hfine]
      simp

/-- **When no element is written behind the arrays.** -/
theorem collectLaw_iff (inp : ArgInput) (s : ArgState) : inp.CollectLaw s ↔ inp.Roomy := by
  have hinit : ArgState.Holds { s with elementNum := 0, written := [], tooMany := false } [] :=
    ⟨rfl, fun i hi => absurd hi (Nat.not_lt_zero i), fun k hk => absurd hk List.not_mem_nil, rfl⟩
  have hreach := @reaches_arguments inp _ hinit
  rw [collectLaw_iff_fine]
  cases hrun : inp.makeArguments { s with elementNum := 0, written := [], tooMany := false } with
  | error r =>
      rw [hrun] at hreach
      have herr : inp.makeElements s = .error r := by
        rw [makeElements, hrun]
        rfl
      rw [result_of_error herr]
      refine iff_of_true hreach.1 ?_
      intro args hargs hlen
      have hmany := hreach.2 args hargs
      rw [List.nil_append, hlen] at hmany
      exact absurd hmany (by decide)
  | ok s₁ =>
      rw [hrun] at hreach
      obtain ⟨args, hargs, hs, hlt⟩ := hreach
      rw [List.nil_append] at hs hlt
      have helements : inp.makeElements s =
          (inp.makeSameBunsetsu s₁).bind (inp.expandPara inp.paraChildren 0) := by
        rw [makeElements, hrun]
        rfl
      have hroomy : inp.Roomy ↔
          (args.length = CF_ELEMENT_MAX - 1 → inp.ownTag = true → inp.addsMore args = false) := by
        constructor
        · intro h
          exact h args hargs
        · intro h args' hargs'
          rw [hargs] at hargs'
          cases hargs'
          exact h
      rw [hroomy]
      cases hown : inp.ownTag with
      | true =>
          obtain ⟨pp, bNum, hsame⟩ := makeSameBunsetsu_of_ownTag (s := s₁) hown
          have hadd := hs.made hlt pp inp.pred bNum
          rw [hsame] at helements
          by_cases hfull : args.length = CF_ELEMENT_MAX - 1
          · have hlen : (args ++ [inp.pred]).length = CF_ELEMENT_MAX := by
              rw [List.length_append, List.length_singleton, hfull]
              rfl
            rw [fine_iff_of_full hadd hlen helements]
            exact ⟨fun h _ _ => h, fun h => h hfull rfl⟩
          · refine iff_of_true (fine_of_room hadd ?_ helements) fun h => absurd h hfull
            rw [List.length_append, List.length_singleton]
            omega
      | false =>
          refine iff_of_true ?_ (by simp)
          rcases makeSameBunsetsu_of_not hown hs hlt with ⟨s₂, hok, hs₂⟩ | ⟨r, herr, hfine⟩
          · rw [hok] at helements
            exact fine_of_room hs₂ hlt helements
          · rw [herr] at helements
            rw [result_of_error helements]
            exact hfine

/-- Twenty-three arguments, one more in the predicate's own tag, and a ノ格 in front of it. -/
def crowded : ArgInput where
  tag := fun n => ⟨n, 0, if n < 23 then ["Ｔ解析格-ガ"] else if n = 23 then ["係:ノ格"]
    else ["Ｔ用言同文節", "Ｔ解析格-ニ"], .nil, false, 'D', none,
    if n = 24 then List.range 23 else []⟩
  pred := 24
  cfType := .pred
  optAnaphora := false
  optCaseNo := true
  useNtt := false
  noSmCode := fun _ => false
  isSubject := fun _ => false
  ccRelation := fun _ => false
  size := 25

def emptyArrays : ArgState := ⟨0, fun _ => 0, fun _ => 0, fun _ => 0, [], false⟩

theorem crowded_overruns : ¬crowded.CollectLaw emptyArrays := by
  intro h
  have hlt := h.below CF_ELEMENT_MAX (by decide +kernel)
  exact lt_irrefl _ hlt

end ArgInput

end Knp
