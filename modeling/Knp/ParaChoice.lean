import Knp.ParaDpnd

/-!
# The choice of a failing check (`para_dpnd.c`)

`check_dpnd_in_para` fails in one manager. There a bunsetsu of a part has no
head, or the Chinese tests reject the parts. Only in the first case
`revise_para_kakari` is called.

> A check that fails in a manager has chosen one of its coordinations, unless
> the manager was rejected.

The failing manager is found along the recursion (`EndsIn`): the loop over the
children stops at one of them, or all of them are passed.
-/

namespace Knp

variable {env : CheckEnv} {sp : ParaSentence} {s s' s₁ : CheckState} {m m' n depth : Nat}

/-! ## The coordinations of the managers stay -/

namespace ParaManager

@[simp] theorem setStart_paraDataNum (m : ParaManager) (k v : Nat) :
    (m.setStart k v).paraDataNum = m.paraDataNum := rfl

@[simp] theorem setStop_paraDataNum (m : ParaManager) (k v : Nat) :
    (m.setStop k v).paraDataNum = m.paraDataNum := rfl

end ParaManager

namespace Chinese

variable {mgr mgr' : ParaManager}

@[simp] theorem shrinkEnd_paraDataNum : (shrinkEnd env mgr).paraDataNum = mgr.paraDataNum := by
  unfold shrinkEnd
  split <;> rfl

@[simp] theorem shrinkStart_paraDataNum : (shrinkStart env mgr).paraDataNum = mgr.paraDataNum := by
  unfold shrinkStart
  split <;> rfl

@[simp] theorem dropVerb_paraDataNum : (dropVerb env mgr).paraDataNum = mgr.paraDataNum := by
  unfold dropVerb
  split
  · split <;> rfl
  · rfl

theorem enlargeDeg_paraDataNum (h : enlargeDeg env mgr = some mgr') :
    mgr'.paraDataNum = mgr.paraDataNum := by
  unfold enlargeDeg at h
  dsimp only at h
  split_ifs at h <;> cases h <;> rfl

@[simp] theorem enlargePhrase_paraDataNum (a b : Int → Int) (k : Nat) :
    (enlargePhrase a b k mgr).paraDataNum = mgr.paraDataNum := by
  unfold enlargePhrase
  split_ifs <;> rfl

@[simp] theorem enlargeName_paraDataNum : (enlargeName env mgr).paraDataNum = mgr.paraDataNum := by
  unfold enlargeName
  split_ifs <;> rfl

theorem enlargePart_paraDataNum (k : Nat) (mgr : ParaManager) :
    (enlargePart env k mgr).paraDataNum = mgr.paraDataNum := by
  rw [enlargePart, enlargePhrase_paraDataNum, enlargePhrase_paraDataNum, enlargeName_paraDataNum]

theorem moveConjunction_paraDataNum (k : Nat) (mgr : ParaManager) :
    (moveConjunction k mgr).paraDataNum = mgr.paraDataNum := rfl

theorem upTo_paraDataNum {body : Nat → ParaManager → ParaManager} {hi : Nat}
    (hbody : ∀ k mgr, (body k mgr).paraDataNum = mgr.paraDataNum) :
    (Loop.upTo 0 hi body mgr).paraDataNum = mgr.paraDataNum :=
  Loop.upTo_invariant body (fun m => m.paraDataNum = mgr.paraDataNum)
    (fun k m h => (hbody k m).trans h) rfl

theorem whenKey_paraDataNum {keyType : Int → ParaKey} {type : ParaKey}
    {change : ParaManager → ParaManager} (h : ∀ m, (change m).paraDataNum = m.paraDataNum) :
    (whenKey keyType type change mgr).paraDataNum = mgr.paraDataNum := by
  unfold whenKey
  split
  · exact h mgr
  · rfl

theorem nounScope_paraDataNum {keyType : Int → ParaKey}
    (h : nounScope env keyType mgr = some mgr') : mgr'.paraDataNum = mgr.paraDataNum := by
  unfold nounScope at h
  dsimp only at h
  split at h
  · rw [enlargeDeg_paraDataNum h, whenKey_paraDataNum fun _ => dropVerb_paraDataNum,
      whenKey_paraDataNum fun _ => shrinkStart_paraDataNum,
      whenKey_paraDataNum fun _ => shrinkEnd_paraDataNum]
  · rw [← Option.some.inj h, whenKey_paraDataNum fun _ => dropVerb_paraDataNum,
      whenKey_paraDataNum fun _ => shrinkStart_paraDataNum,
      whenKey_paraDataNum fun _ => shrinkEnd_paraDataNum]

theorem adjust_paraDataNum {key key' : Int → ParaKey} (h : adjust env mgr key = some (mgr', key')) :
    mgr'.paraDataNum = mgr.paraDataNum := by
  unfold adjust at h
  obtain ⟨mgr₁, hscope, hmgr⟩ := Option.map_eq_some_iff.mp h
  obtain ⟨rfl, -⟩ := Prod.mk.inj hmgr
  rw [whenKey_paraDataNum fun _ => upTo_paraDataNum moveConjunction_paraDataNum,
    upTo_paraDataNum enlargePart_paraDataNum, nounScope_paraDataNum hscope]

end Chinese

/-- All managers list coordinations of the sentence. -/
def MembersBelow (sp : ParaSentence) (s : CheckState) : Prop :=
  ∀ m, ∀ n ∈ (s.manager m).paraDataNum, n < sp.paraNum

theorem MembersBelow.congr (h : MembersBelow sp s)
    (heq : ∀ m, (s'.manager m).paraDataNum = (s.manager m).paraDataNum) : MembersBelow sp s' := by
  intro m n hn
  rw [heq] at hn
  exact h m n hn

theorem restrictFront_manager (keyPos : Nat) :
    (restrictFront env keyPos s).manager = s.manager := by
  unfold restrictFront
  dsimp only
  split
  · rfl
  · split <;> rfl

theorem restrictBack_manager (keyPos j : Nat) :
    (restrictBack env keyPos j s).manager = s.manager := by
  unfold restrictBack
  dsimp only
  split <;> rfl

theorem reviseParaKakari_manager : (reviseParaKakari env sp n s).2.manager = s.manager :=
  Loop.upTo_invariant _ (fun t : CheckState => t.manager = s.manager)
    (fun _ _ h => (restrictBack_manager _ _).trans h) (restrictFront_manager _)

theorem enterManager_paraDataNum (h : enterManager env m s = some s') (k : Nat) :
    (s'.manager k).paraDataNum = (s.manager k).paraDataNum := by
  unfold enterManager at h
  obtain ⟨⟨mgr, keyType⟩, hmgr, rfl⟩ := Option.map_eq_some_iff.mp h
  have hkeep : mgr.paraDataNum = (s.manager m).paraDataNum := by
    split at hmgr
    · exact Chinese.adjust_paraDataNum hmgr
    · rw [(Prod.mk.inj (Option.some.inj hmgr)).1]
  dsimp only
  by_cases hk : k = m
  · rw [hk, Function.update_self, hkeep]
  · rw [Function.update_of_ne hk]

theorem closeManager_manager {startPos : Nat} {invalid : Bool} :
    (closeManager env sp m startPos invalid s).2.manager = s.manager := by
  unfold closeManager
  dsimp only
  split
  · split <;> rfl
  · rfl

theorem closeManager_ok_iff {startPos : Nat} {invalid : Bool} :
    (closeManager env sp m startPos invalid s).1 = true ↔
      ¬ (env.language = .chinese ∧ Chinese.rejects env (s.manager m) s.keyType = true) := by
  unfold closeManager
  dsimp only
  split_ifs with hlang hrej
  · simp [hlang, hrej]
  · simp [hrej]
  · simp [hlang]

/-! ## One manager -/

/-- The heads of manager `m` are all right, but its scope is not: the check
fails and revises nothing. -/
def Rejected (env : CheckEnv) (sp : ParaSentence) (m : Nat) (s : CheckState) : Prop :=
  env.language = .chinese ∧ ∃ s' dFound startPos invalid, enterManager env m s = some s' ∧
    checkHeads env sp m s' = some (none, dFound, startPos, invalid) ∧
    Chinese.rejects env (s'.manager m) s'.keyType

theorem checkErrorState_lt {mgr : ParaManager} {error : List Bool} (hpos : 0 < sp.paraNum)
    (hmgr : ∀ n ∈ mgr.paraDataNum, n < sp.paraNum) (h : checkErrorState mgr error = some n) :
    n < sp.paraNum := by
  have hhead : mgr.paraDataNum.headD 0 < sp.paraNum := by
    cases hl : mgr.paraDataNum with
    | nil => exact hpos
    | cons a l => exact hmgr a (hl ▸ List.mem_cons_self)
  have hlast : mgr.paraDataNum.getLastD 0 < sp.paraNum := by
    rw [List.getLastD_eq_getLast?]
    cases hl : mgr.paraDataNum.getLast? with
    | none => exact hpos
    | some a => exact hmgr a (List.mem_of_getLast? hl)
  unfold checkErrorState at h
  split_ifs at h <;> cases h <;> assumption

theorem errorToRevise_lt {mgr : ParaManager} {dFound : Nat → Bool} {startPos : Nat}
    {error : List Bool} (hpos : 0 < sp.paraNum) (hmgr : ∀ n ∈ mgr.paraDataNum, n < sp.paraNum)
    (h : errorToRevise mgr dFound startPos error = some (some n)) : n < sp.paraNum := by
  unfold errorToRevise at h
  split_ifs at h
  · cases h
  · exact checkErrorState_lt hpos hmgr (Option.some.inj h)
  · obtain ⟨corresponds, -, hnum⟩ := Option.map_eq_some_iff.mp h
    split_ifs at hnum
    exact checkErrorState_lt hpos hmgr hnum

/-- The three ways in which the check of a manager ends. -/
theorem checkManager_cases {ok : Bool} {chosen : Option Nat} (hpos : 0 < sp.paraNum)
    (hs : MembersBelow sp s) (h : checkManager env sp m s = some (ok, chosen, s')) :
    MembersBelow sp s' ∧ ((ok = true ∧ chosen = none ∧ ¬ Rejected env sp m s) ∨
      (ok = false ∧ (∃ n < sp.paraNum, chosen = some n) ∧ ¬ Rejected env sp m s) ∨
      (ok = false ∧ chosen = none ∧ Rejected env sp m s)) := by
  obtain ⟨s₁, henter, hrest⟩ := Option.bind_eq_some_iff.mp h
  obtain ⟨⟨num, dFound, startPos, invalid⟩, hheads, hres⟩ := Option.map_eq_some_iff.mp hrest
  have hs₁ : MembersBelow sp s₁ := hs.congr (enterManager_paraDataNum henter)
  cases num with
  | some num =>
      obtain ⟨rfl, hrev⟩ := Prod.mk.inj hres
      obtain ⟨rfl, rfl⟩ := Prod.mk.inj hrev
      refine ⟨hs₁.congr fun k => congrArg (fun mgr => (mgr k).paraDataNum)
        reviseParaKakari_manager, Or.inr (Or.inl ⟨rfl, ⟨num, ?_, rfl⟩, ?_⟩)⟩
      · obtain ⟨num', hnum, heq⟩ := Option.map_eq_some_iff.mp hheads
        obtain ⟨rfl, -⟩ := Prod.mk.inj heq
        exact errorToRevise_lt hpos (hs₁ m) hnum
      · rintro ⟨-, s₂, _, _, _, henter', hheads', -⟩
        obtain rfl := Option.some.inj (henter.symm.trans henter')
        rw [hheads] at hheads'
        cases hheads'
  | none =>
      have hok : (closeManager env sp m startPos invalid { s₁ with dFound := dFound }).1 = ok :=
        congrArg Prod.fst hres
      have hiff : (closeManager env sp m startPos invalid { s₁ with dFound := dFound }).1 = true ↔
          ¬ (env.language = .chinese ∧ Chinese.rejects env (s₁.manager m) s₁.keyType = true) :=
        closeManager_ok_iff
      have hchosen : chosen = none := (congrArg (fun r => r.2.1) hres).symm
      have hs' : (closeManager env sp m startPos invalid { s₁ with dFound := dFound }).2 = s' :=
        congrArg (fun r => r.2.2) hres
      have hrej : Rejected env sp m s ↔
          env.language = .chinese ∧ Chinese.rejects env (s₁.manager m) s₁.keyType = true := by
        constructor
        · rintro ⟨hlang, s₂, _, _, _, henter', -, hrej⟩
          obtain rfl := Option.some.inj (henter.symm.trans henter')
          exact ⟨hlang, hrej⟩
        · rintro ⟨hlang, hrej⟩
          exact ⟨hlang, s₁, dFound, startPos, invalid, henter, hheads, hrej⟩
      refine ⟨hs₁.congr fun k => ?_, ?_⟩
      · rw [← hs', closeManager_manager]
      · rw [hrej]
        cases ok with
        | true => exact Or.inl ⟨rfl, hchosen, hiff.mp hok⟩
        | false =>
            refine Or.inr (Or.inr ⟨rfl, hchosen, ?_⟩)
            by_contra hnot
            rw [hiff.mpr hnot] at hok
            cases hok

/-! ## Where a check fails -/

/-- The check of one manager, in a given state. -/
abbrev Check := Nat → CheckState → Option (Bool × Option Nat × CheckState)

/-- The loop over the managers `ms` from state `s` is ended by the failure of
`c`, whose check begins in state `sc`. -/
inductive StopsAt (check : Check) (passOver : Nat → List Nat → Bool) :
    List Nat → CheckState → Nat → CheckState → Prop
  | here {m ms s chosen s'} (hfail : check m s = some (false, chosen, s'))
      (hstop : passOver m ms = false) : StopsAt check passOver (m :: ms) s m s
  | next {m ms s ok chosen s' c sc} (hcheck : check m s = some (ok, chosen, s'))
      (hpass : (ok || passOver m ms) = true) (hrest : StopsAt check passOver ms s' c sc) :
      StopsAt check passOver (m :: ms) s c sc

/-- The check of `m` from state `s` fails in `m'`, whose own parts are checked
from state `s'`. -/
inductive EndsIn (env : CheckEnv) (sp : ParaSentence) :
    Nat → Nat → CheckState → Nat → CheckState → Prop
  | own {depth m s chosen s'}
      (hchildren : checkEach (checkParaDStruct env sp depth) (passChild env)
        (s.manager m).child none s = some (true, chosen, s')) :
      EndsIn env sp (depth + 1) m s m s'
  | child {depth m s c sc m' s'}
      (hstop : StopsAt (checkParaDStruct env sp depth) (passChild env) (s.manager m).child s c sc)
      (hend : EndsIn env sp depth c sc m' s') : EndsIn env sp (depth + 1) m s m' s'

section Loop

variable {check : Check} {passOver : Nat → List Nat → Bool} {ms : List Nat} {c c' : Nat}
  {sc sc' : CheckState}

theorem StopsAt.unique (h : StopsAt check passOver ms s c sc)
    (h' : StopsAt check passOver ms s c' sc') : c = c' ∧ sc = sc' := by
  induction h with
  | here hfail hstop =>
      cases h' with
      | here => exact ⟨rfl, rfl⟩
      | next hcheck hpass =>
          rw [hfail] at hcheck
          cases hcheck
          rw [hstop] at hpass
          cases hpass
  | next hcheck hpass _ ih =>
      cases h' with
      | here hfail hstop =>
          rw [hcheck] at hfail
          cases hfail
          rw [hstop] at hpass
          cases hpass
      | next hcheck' _ hrest' =>
          rw [hcheck] at hcheck'
          cases hcheck'
          exact ih hrest'

/-- A failing loop has stopped at a failing check, and kept its choice. -/
theorem checkEach_stops (P : CheckState → Prop)
    (hcheck : ∀ m s ok chosen s', P s → check m s = some (ok, chosen, s') → P s') :
    ∀ (ms : List Nat) (chosen₀ : Option Nat) (s : CheckState) {ok : Bool} {chosen : Option Nat}
      {s' : CheckState}, P s → checkEach check passOver ms chosen₀ s = some (ok, chosen, s') →
      P s' ∧ (ok = false → ∃ c sc own, P sc ∧ StopsAt check passOver ms s c sc ∧
        check c sc = some (false, own, s') ∧ ∀ n, own = some n → chosen = some n) := by
  intro ms
  induction ms with
  | nil =>
      intro chosen₀ s ok chosen s' hs h
      cases h
      exact ⟨hs, fun hfail => by cases hfail⟩
  | cons m ms ih =>
      intro chosen₀ s ok chosen s' hs h
      obtain ⟨⟨ok₁, own, s₁⟩, h₁, hrest⟩ := Option.bind_eq_some_iff.mp h
      dsimp only at hrest
      have hs₁ := hcheck m s ok₁ own s₁ hs h₁
      by_cases hpass : (ok₁ || passOver m ms) = true
      · rw [if_pos hpass] at hrest
        obtain ⟨hs', hend⟩ := ih _ _ hs₁ hrest
        refine ⟨hs', fun hfail => ?_⟩
        obtain ⟨c, sc, own', hsc, hstop, hown, hkeep⟩ := hend hfail
        exact ⟨c, sc, own', hsc, .next h₁ hpass hstop, hown, hkeep⟩
      · rw [if_neg hpass] at hrest
        cases hrest
        refine ⟨hs₁, fun _ => ⟨m, s, own, hs, ?_, ?_, ?_⟩⟩
        · cases ok₁ with
          | true => exact absurd rfl hpass
          | false => exact .here h₁ (by simpa using hpass)
        · cases ok₁ with
          | true => exact absurd rfl hpass
          | false => exact h₁
        · intro n hn
          rw [hn]
          rfl

end Loop

theorem StopsAt.checkEach_ne_true {check : Check} {passOver : Nat → List Nat → Bool}
    {ms : List Nat} {c : Nat} {sc : CheckState} (h : StopsAt check passOver ms s c sc)
    (chosen₀ chosen : Option Nat) : checkEach check passOver ms chosen₀ s ≠ some (true, chosen, s') := by
  induction h generalizing chosen₀ with
  | here hfail hstop =>
      rw [checkEach, hfail]
      simp [hstop]
  | next hcheck hpass _ ih =>
      rw [checkEach, hcheck, Option.bind_eq_bind, Option.bind_some]
      dsimp only
      rw [if_pos hpass]
      exact ih _

theorem EndsIn.unique (h : EndsIn env sp depth m s m' s') :
    ∀ {m₂ : Nat} {s₂ : CheckState}, EndsIn env sp depth m s m₂ s₂ → m' = m₂ ∧ s' = s₂ := by
  induction h with
  | own hchildren =>
      intro m₂ s₂ h'
      cases h' with
      | own hchildren' =>
          rw [hchildren] at hchildren'
          cases hchildren'
          exact ⟨rfl, rfl⟩
      | child hstop => exact absurd hchildren (hstop.checkEach_ne_true _ _)
  | child hstop _ ih =>
      intro m₂ s₂ h'
      cases h' with
      | own hchildren => exact absurd hchildren (hstop.checkEach_ne_true _ _)
      | child hstop' hend' =>
          obtain ⟨rfl, rfl⟩ := hstop.unique hstop'
          exact ih hend'

/-- A failing check of `m` fails in the own parts of one manager, and keeps the
choice made there. -/
theorem checkParaDStruct_ends (hpos : 0 < sp.paraNum) :
    ∀ (depth m : Nat) (s : CheckState) {ok : Bool} {chosen : Option Nat} {s' : CheckState},
      MembersBelow sp s → checkParaDStruct env sp depth m s = some (ok, chosen, s') →
      MembersBelow sp s' ∧ (ok = false → ∃ m' s₁ own, MembersBelow sp s₁ ∧
        EndsIn env sp depth m s m' s₁ ∧ checkManager env sp m' s₁ = some (false, own, s') ∧
        ∀ n, own = some n → chosen = some n) := by
  intro depth
  induction depth with
  | zero =>
      intro m s ok chosen s' _ h
      cases h
  | succ depth ih =>
      intro m s ok chosen s' hs h
      obtain ⟨⟨ok₁, chosen₁, s₁⟩, hloop, hown⟩ := Option.bind_eq_some_iff.mp h
      obtain ⟨hs₁, hend⟩ := checkEach_stops (MembersBelow sp)
        (fun c sc ok own sc' hsc hc => (ih c sc hsc hc).1) _ _ _ hs hloop
      cases ok₁ with
      | true =>
          obtain ⟨⟨ok₂, own, s₂⟩, hcheck, heq⟩ := Option.bind_eq_some_iff.mp hown
          cases heq
          refine ⟨(checkManager_cases hpos hs₁ hcheck).1, fun hfail => ?_⟩
          subst hfail
          refine ⟨m, s₁, own, hs₁, .own hloop, hcheck, fun n hn => ?_⟩
          rw [hn]
          rfl
      | false =>
          cases hown
          refine ⟨hs₁, fun _ => ?_⟩
          obtain ⟨c, sc, ownc, hsc, hstop, hfail, hkeep⟩ := hend rfl
          obtain ⟨m', sm, own, hsm, hendc, hcheck, hkeepc⟩ := (ih c sc hsc hfail).2 rfl
          exact ⟨m', sm, own, hsm, .child hstop hendc, hcheck, fun n hn => hkeep n (hkeepc n hn)⟩

/-- `check_dpnd_in_para` from state `s` fails in `m'`, whose own parts are
checked from state `s'`. -/
def FailsIn (env : CheckEnv) (sp : ParaSentence) (st : ParaState) (s : CheckState) (m' : Nat)
    (s' : CheckState) : Prop :=
  ∃ c sc, StopsAt (checkParaDStruct env sp st.paraMNum) (passRoot env st) st.roots
    (initCheck env st s) c sc ∧ EndsIn env sp st.paraMNum c sc m' s'

theorem FailsIn.unique {st : ParaState} {m₂ : Nat} {s₂ : CheckState}
    (h : FailsIn env sp st s m' s') (h' : FailsIn env sp st s m₂ s₂) : m' = m₂ ∧ s' = s₂ := by
  obtain ⟨c, sc, hstop, hend⟩ := h
  obtain ⟨c₂, sc₂, hstop₂, hend₂⟩ := h'
  obtain ⟨rfl, rfl⟩ := hstop.unique hstop₂
  exact hend.unique hend₂

theorem checkDpndInPara_fails {st : ParaState} {chosen : Option Nat} (hpos : 0 < sp.paraNum)
    (hst : ∀ m, ∀ n ∈ (st.manager m).paraDataNum, n < sp.paraNum)
    (h : checkDpndInPara env sp st s = some (false, chosen, s')) :
    ∃ m' s₁ own, MembersBelow sp s₁ ∧ FailsIn env sp st s m' s₁ ∧
      checkManager env sp m' s₁ = some (false, own, s') ∧ ∀ n, own = some n → chosen = some n := by
  have hinit : MembersBelow sp (initCheck env st s) := hst
  obtain ⟨-, hend⟩ := checkEach_stops (MembersBelow sp)
    (fun c sc ok own sc' hsc hc => (checkParaDStruct_ends hpos _ c sc hsc hc).1) _ _ _ hinit h
  obtain ⟨c, sc, ownc, hsc, hstop, hfail, hkeep⟩ := hend rfl
  obtain ⟨m', sm, own, hsm, hendc, hcheck, hkeepc⟩ :=
    (checkParaDStruct_ends hpos _ c sc hsc hfail).2 rfl
  exact ⟨m', sm, own, hsm, ⟨c, sc, hstop, hendc⟩, hcheck, fun n hn => hkeep n (hkeepc n hn)⟩

end Knp
