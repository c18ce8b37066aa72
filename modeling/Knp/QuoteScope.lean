import Knp.ParaDetect
import Knp.Quote

/-!
# Too many quotes (`quote.c`, `para_analysis.c`)

Where no slot is left, `quote` returns `CONTINUE` and leaves `Quote_matrix` as it is. The
slots that are taken by then are not given back, and `mask_quote_scope` reads them.

> The scopes of coordinations are not restricted just if each pair of brackets that is
> recorded stands in one bunsetsu, or around the whole sentence without a 係:文末.
-/

namespace Knp.Quote

open Loop Mask

/-- The flag, the data and `Quote_matrix`; no flag is `CONTINUE`. -/
def quote (bnst : List (List String)) : Option Bool × QuoteData × (Nat → Nat → Bool) :=
  match checkQuote bnst with
  | .error d => (none, d, fun _ _ => true)
  | .ok (quoteP, d) =>
      (some quoteP, d, if quoteP then maskQuote bnst d fun _ _ => true else fun _ _ => true)

/-! ## The restriction of the scopes -/

/-- The turn of the loop of `mask_quote_scope` for one quote. -/
def maskScopeTurn (bnst : List (List String)) (keyPos : Nat) (start stop : Int)
    (m : Nat → Nat → Bool) : Nat → Nat → Bool :=
  if keyPos < start then
    -- 後に括弧がある場合
    upTo 0 start.toNat (fun i => upTo start.toNat stop.toNat fun j => clear i j) m
  else if stop ≤ keyPos then
    -- 前に括弧がある場合 (キーが括弧内の末尾の場合も)
    upTo (start + 1).toNat (stop + 1).toNat
      (fun i => upTo (stop + 1).toNat bnst.length fun j => clear i j) m
  else
    -- キーが括弧の中にある場合
    let m := upTo 0 (stop + 1).toNat (fun i => upTo start.toNat bnst.length fun j m =>
      if i < start ∨ stop < j then clear i j m else m) m
    -- 括弧の中に句点がある場合
    upTo start.toNat stop.toNat (fun l m =>
      if hasFeature (bnst.getD l []) "係:文末" then
        upTo start.toNat (l + 1) (fun i => upTo (l + 1) (stop + 1).toNat fun j => clear i j) m
      else m) m

/-- 括弧がある場合に並列構造の範囲に制限を設ける -/
def maskQuoteScope (bnst : List (List String)) (d : QuoteData) (keyPos : Nat)
    (m : Nat → Nat → Bool) : Nat → Nat → Bool :=
  forQuotes d (maskScopeTurn bnst keyPos) QUOTE_MAX 0 m

/-- A scope of the key from `i` to `j` is left, as far as one quote is concerned. -/
structure ScopePermits (bnst : List (List String)) (keyPos : Nat) (start stop : Int)
    (i j : Nat) : Prop where
  behind : keyPos < start → i < start → ¬(start ≤ j ∧ j < stop)
  front : start ≤ keyPos → stop ≤ keyPos → start < i → i ≤ stop → ¬stop < j
  inside : start ≤ keyPos → keyPos < stop → i ≤ stop → start ≤ j → ¬(i < start ∨ stop < j)
  period : start ≤ keyPos → keyPos < stop → ∀ l : Nat, start ≤ l → l < stop →
    hasFeature (bnst.getD l []) "係:文末" = true → start ≤ i → i ≤ l → ¬(l < j ∧ j ≤ stop)

theorem retains_maskScopeTurn (bnst : List (List String)) (keyPos start : Nat) (stop : Int)
    (m : Nat → Nat → Bool) (i j : Nat) (hj : j < bnst.length) :
    maskScopeTurn bnst keyPos start stop m i j = true ↔
      m i j = true ∧ ScopePermits bnst keyPos start stop i j := by
  unfold maskScopeTurn
  split_ifs with hbehind hfront
  · refine (retains_rectangle _ _ _ _ m i j).trans (and_congr_right fun _ => ⟨fun h => ?_, ?_⟩)
    · exact ⟨fun _ _ _ => h ⟨by omega, by omega⟩, fun _ => by omega, fun _ => by omega,
        fun _ => by omega⟩
    · intro h hcell
      exact h.behind hbehind (by omega) ⟨by omega, by omega⟩
  · refine (retains_rectangle _ _ _ _ m i j).trans (and_congr_right fun _ => ⟨fun h => ?_, ?_⟩)
    · exact ⟨fun _ => by omega, fun _ _ _ _ _ => h ⟨by omega, by omega⟩, fun _ => by omega,
        fun _ => by omega⟩
    · intro h hcell
      exact h.front (by omega) hfront (by omega) (by omega) (by omega)
  · have hsides : Retains (upTo 0 (stop + 1).toNat fun i =>
        upTo (start : Int).toNat bnst.length fun j m =>
          if i < (start : Int) ∨ stop < j then clear i j m else m)
        fun a b => ¬((a : Int) ≤ stop ∧ start ≤ b ∧ b < bnst.length ∧ (a < start ∨ stop < b)) := by
      refine (retains_upTo fun i => retains_upTo fun j => (retains_clear i j).ite).congr
        fun a b => ?_
      constructor
      · rintro h ⟨ha, hb, hlt, hside⟩
        exact h a (by omega) (by omega) b (by omega) hlt (by omega) ⟨rfl, rfl⟩
      · rintro h p - hp q hq hlt hside ⟨rfl, rfl⟩
        exact h ⟨by omega, by omega, hlt, by omega⟩
    have hperiod : Retains (upTo (start : Int).toNat stop.toNat fun l m =>
        if hasFeature (bnst.getD l []) "係:文末" = true then
          upTo (start : Int).toNat (l + 1)
            (fun i => upTo (l + 1) (stop + 1).toNat fun j => clear i j) m
        else m) _ := retains_upTo fun l => (retains_rectangle _ _ _ _).ite
    refine ((hsides.comp hperiod) m i j).trans (and_congr_right fun _ => ?_)
    constructor
    · rintro ⟨hside, hperiod⟩
      exact ⟨fun _ => by omega, fun _ => by omega,
        fun _ _ hi hjs hout => hside ⟨hi, by omega, hj, by omega⟩,
        fun _ _ l hlo hhi hl hi hil hj' => hperiod l (by omega) (by omega) hl
          ⟨by omega, by omega⟩⟩
    · intro h
      exact ⟨fun hc => h.inside (by omega) (by omega) hc.1 (by omega) (by omega),
        fun l hlo hhi hl hc => h.period (by omega) (by omega) l (by omega) (by omega) hl
          (by omega) (by omega) ⟨by omega, by omega⟩⟩

/-- A bracket pair that restricts no scope. -/
def Harmless (bnst : List (List String)) (a b : Nat) : Prop :=
  a = b ∨ (a = 0 ∧ b + 1 = bnst.length ∧
    ∀ l < b, hasFeature (bnst.getD l []) "係:文末" = false)

section Candidates

variable {bnst : List (List String)} {keyPos a b : Nat}

/-- A slot that is not closed. -/
theorem scopePermits_open {i j : Nat} : ScopePermits bnst keyPos a (-1) i j :=
  ⟨fun _ _ => by omega, fun _ _ _ => by omega, fun _ => by omega, fun _ => by omega⟩

theorem Harmless.permits (h : Harmless bnst a b) {i j : Nat} (hj : j < bnst.length)
    (hkey : keyPos + 1 < bnst.length) : ScopePermits bnst keyPos a b i j := by
  rcases h with rfl | ⟨rfl, hb, hno⟩
  · exact ⟨fun _ _ => by omega, fun _ _ _ => by omega, fun _ => by omega, fun _ => by omega⟩
  · refine ⟨fun _ _ => by omega, fun _ _ _ => by omega, fun _ _ _ _ => by omega, ?_⟩
    intro _ _ l _ hlb hl
    rw [hno l (by omega)] at hl
    cases hl

/-- Whatever the key is. -/
theorem harmless_of_permits (keyPos : Nat) (hab : a ≤ b) (hb : b < bnst.length)
    (hkey : keyPos + 1 < bnst.length)
    (h : ∀ i j, i ≤ keyPos → keyPos < j → j < bnst.length →
      ScopePermits bnst keyPos a b i j) : Harmless bnst a b := by
  by_contra hnot
  have hlt : a < b := lt_of_le_of_ne hab fun heq => hnot (Or.inl heq)
  by_cases hbehind : keyPos < a
  · exact (h keyPos a le_rfl hbehind (by omega)).behind (by omega) (by omega) (by omega)
  by_cases hfront : b ≤ keyPos
  · exact (h b (keyPos + 1) hfront (Nat.lt_succ_self _) hkey).front (by omega) (by omega)
      (by omega) (by omega) (by omega)
  by_cases ha : 0 < a
  · exact (h 0 (keyPos + 1) (Nat.zero_le _) (Nat.lt_succ_self _) hkey).inside (by omega)
      (by omega) (by omega) (by omega) (by omega)
  by_cases hlast : b + 1 < bnst.length
  · exact (h keyPos (b + 1) le_rfl (by omega) hlast).inside (by omega) (by omega) (by omega)
      (by omega) (by omega)
  · refine hnot (Or.inr ⟨by omega, by omega, fun l hl => ?_⟩)
    cases hperiod : hasFeature (bnst.getD l []) "係:文末" with
    | false => rfl
    | true =>
        exact absurd ⟨hl, le_rfl⟩
          ((h 0 b (Nat.zero_le _) (by omega) hb).period (by omega) (by omega) l (by omega)
            (by omega) hperiod (by omega) (by omega))

end Candidates

/-! ## What is recorded -/

/-- The bunsetsu of the bracket that closes the open quote number `r`, where `k` slots are
taken. -/
def closerOf : Nat → Nat → List (Nat × Bracket) → Option Nat
  | _, _, [] => none
  | r, k, (_, .opening) :: l =>
      if k < QUOTE_MAX - 1 then closerOf (r + 1) (k + 1) l else none
  | 0, _, (b, .closing) :: _ => some b
  | r + 1, k, (_, .closing) :: l => closerOf r k l

/-- The slots from `k` on that the loops over the quotes read, where `n` quotes are open. -/
def slots : Nat → Nat → List (Nat × Bracket) → List (Nat × Option Nat)
  | _, _, [] => []
  | n, k, (a, .opening) :: l =>
      if k < QUOTE_MAX - 1 then (a, closerOf 0 (k + 1) l) :: slots (n + 1) (k + 1) l else []
  | 0, _, (_, .closing) :: _ => []
  | n + 1, k, (_, .closing) :: l => slots n k l

/-- What is left of the brackets `l`, from the state `s` on. -/
structure Recorded (s : QuoteState) (l : List (Nat × Bracket)) (d : QuoteData) : Prop where
  pending : ∀ r q, s.stack[r]? = some q → d.outNum q = slotNum (closerOf r s.k l)
  slot : ∀ p x, (slots s.stack.length s.k l)[p]? = some x →
    d.inNum (s.k + p) = x.1 ∧ d.outNum (s.k + p) = slotNum x.2
  guard : d.inNum (s.k + (slots s.stack.length s.k l).length) = -1

section Run

variable {done l : List (Nat × Bracket)} {s s' : QuoteState} {e : Nat × Bracket} {q : Nat}

theorem bracketStep_error (h : bracketStep s e = .error s') : s' = s := by
  obtain ⟨i, x⟩ := e
  cases x with
  | opening =>
      simp only [bracketStep, openQuote] at h
      split_ifs at h
      exact (Except.error.inj h).symm
  | closing =>
      simp only [bracketStep, closeQuote] at h
      split at h
      · split_ifs at h
        exact (Except.error.inj h).symm
      · cases h

/-- Slots that are closed are not written again. -/
theorem bracketStep_frame (hq : q < s.k) (h : bracketStep s e = .ok s') :
    q < s'.k ∧ s'.data.inNum q = s.data.inNum q ∧
      (q ∉ s.stack → q ∉ s'.stack ∧ s'.data.outNum q = s.data.outNum q) := by
  obtain ⟨i, -, -, rfl⟩ | ⟨i, -, -, -, rfl⟩ | ⟨i, p, stack, -, hstack, rfl⟩ := bracketStep_cases h
  · refine ⟨Nat.lt_succ_of_lt hq, Function.update_of_ne hq.ne .., fun hout => ⟨?_, rfl⟩⟩
    simpa using ⟨hq.ne, hout⟩
  · exact ⟨Nat.lt_succ_of_lt hq, rfl,
      fun _ => ⟨List.not_mem_nil, Function.update_of_ne hq.ne ..⟩⟩
  · refine ⟨hq, rfl, fun hout => ?_⟩
    rw [hstack, List.mem_cons, not_or] at hout
    obtain ⟨hne, hout⟩ := hout
    exact ⟨hout, Function.update_of_ne hne ..⟩

theorem run_frame (hq : q < s.k) (hrun : l.foldlM bracketStep s = .error s') :
    s'.data.inNum q = s.data.inNum q ∧
      (q ∉ s.stack → s'.data.outNum q = s.data.outNum q) := by
  induction l generalizing s with
  | nil => cases hrun
  | cons e l ih =>
      rw [List.foldlM_cons] at hrun
      cases hstep : bracketStep s e with
      | error s₁ =>
          rw [hstep] at hrun
          obtain rfl := Except.error.inj hrun
          rw [bracketStep_error hstep]
          exact ⟨rfl, fun _ => rfl⟩
      | ok s₁ =>
          rw [hstep] at hrun
          obtain ⟨hq₁, hin₁, hout₁⟩ := bracketStep_frame hq hstep
          obtain ⟨hin, hout⟩ := ih hq₁ hrun
          refine ⟨hin.trans hin₁, fun hstack => ?_⟩
          obtain ⟨hstack₁, hkeep⟩ := hout₁ hstack
          exact (hout hstack₁).trans hkeep

theorem Sound.fresh (hs : Sound done s) : s.data.inNum s.k = -1 := by
  obtain ⟨opener, closer, hm, hin, -⟩ := hs
  rw [hin, (hm.fresh s.k le_rfl).1]
  rfl

theorem Sound.pending (hs : Sound done s) (hq : q ∈ s.stack) :
    q < s.k ∧ s.data.outNum q = -1 := by
  obtain ⟨opener, closer, hm, -, hout⟩ := hs
  obtain ⟨hlt, hnone⟩ := (hm.mem_stack q).mp hq
  refine ⟨hlt, ?_⟩
  rw [hout, hnone]
  rfl

theorem Sound.nodup (hs : Sound done s) : s.stack.Nodup := by
  obtain ⟨opener, closer, hm, -, -⟩ := hs
  exact hm.sorted.imp fun h => h.ne'

/-- No slot is left for a bracket that opens. -/
theorem Recorded.full {i : Nat} (hs : Sound done s) (hk : ¬s.k < QUOTE_MAX - 1) :
    Recorded s ((i, .opening) :: l) s.data := by
  constructor
  · intro r q hr
    rw [(hs.pending (List.mem_of_getElem? hr)).2, closerOf, if_neg hk]
    rfl
  · intro p x hx
    rw [slots, if_neg hk] at hx
    simp at hx
  · rw [slots, if_neg hk]
    exact hs.fresh

theorem Recorded.opening {i : Nat} {d : QuoteData} (hk : s.k < QUOTE_MAX - 1)
    (hin : d.inNum s.k = i)
    (h : Recorded ⟨⟨Function.update s.data.inNum s.k i, s.data.outNum⟩, s.k + 1, s.k :: s.stack⟩
      l d) : Recorded s ((i, .opening) :: l) d := by
  constructor
  · intro r q hr
    rw [closerOf, if_pos hk]
    exact h.pending (r + 1) q hr
  · intro p x hx
    rw [slots, if_pos hk] at hx
    cases p with
    | zero =>
        obtain rfl := Option.some.inj hx
        exact ⟨hin, h.pending 0 s.k rfl⟩
    | succ p =>
        rw [show s.k + (p + 1) = s.k + 1 + p by omega]
        exact h.slot p x hx
  · rw [slots, if_pos hk, List.length_cons,
      show ∀ n, s.k + (n + 1) = s.k + 1 + n by omega]
    exact h.guard

theorem Recorded.unopened {i : Nat} {d : QuoteData} (hstack : s.stack = [])
    (hin : d.inNum s.k = -1) : Recorded s ((i, .closing) :: l) d := by
  constructor
  · intro r q hr
    rw [hstack] at hr
    cases hr
  · intro p x hx
    rw [hstack, List.length_nil, slots] at hx
    cases hx
  · rw [hstack, List.length_nil, slots]
    exact hin

theorem Recorded.closing {i : Nat} {stack : List Nat} {d : QuoteData}
    (hstack : s.stack = q :: stack) (hout : d.outNum q = i)
    (h : Recorded ⟨⟨s.data.inNum, Function.update s.data.outNum q i⟩, s.k, stack⟩ l d) :
    Recorded s ((i, .closing) :: l) d := by
  constructor
  · intro r p hr
    rw [hstack] at hr
    cases r with
    | zero =>
        obtain rfl := Option.some.inj hr
        exact hout
    | succ r => exact h.pending r p hr
  · intro p x hx
    rw [hstack, List.length_cons, slots] at hx
    exact h.slot p x hx
  · rw [hstack, List.length_cons, slots]
    exact h.guard

theorem Sound.recorded (hs : Sound done s)
    (hsorted : (done ++ l).Pairwise fun e e' => rank e ≤ rank e')
    (hrun : l.foldlM bracketStep s = .error s') : Recorded s l s'.data := by
  induction l generalizing done s with
  | nil => cases hrun
  | cons e l ih =>
      have hord : ∀ e' ∈ done, rank e' ≤ rank e := fun e' he' =>
        (List.pairwise_append.mp hsorted).2.2 e' he' e List.mem_cons_self
      rw [List.foldlM_cons] at hrun
      cases hstep : bracketStep s e with
      | error s₁ =>
          rw [hstep] at hrun
          obtain rfl := Except.error.inj hrun
          obtain rfl := bracketStep_error hstep
          obtain ⟨i, x⟩ := e
          cases x with
          | opening =>
              refine .full hs fun hk => ?_
              rw [bracketStep, openQuote, if_neg (by omega)] at hstep
              cases hstep
          | closing =>
              refine .unopened ?_ hs.fresh
              simp only [bracketStep, closeQuote] at hstep
              split at hstep
              · assumption
              · cases hstep
      | ok s₁ =>
          have hs₁ := hs.step hord hstep
          rw [hstep] at hrun
          rw [← List.singleton_append, ← List.append_assoc] at hsorted
          have h₁ := ih hs₁ hsorted hrun
          obtain ⟨i, rfl, hk, rfl⟩ | ⟨i, rfl, hstack, -, rfl⟩ | ⟨i, q, stack, rfl, hstack, rfl⟩ :=
            bracketStep_cases hstep
          · have hin := (run_frame (Nat.lt_succ_self s.k) hrun).1
            exact .opening (by omega) (hin.trans (Function.update_self ..)) h₁
          · have hin := (run_frame (Nat.lt_succ_self s.k) hrun).1
            exact .unopened hstack (hin.trans hs.fresh)
          · have hnodup := hs.nodup
            rw [hstack, List.nodup_cons] at hnodup
            have hlt := (hs.pending (q := q) (by simp [hstack])).1
            have hout := (run_frame
              (s := ⟨⟨s.data.inNum, Function.update s.data.outNum q i⟩, s.k, stack⟩)
              hlt hrun).2 hnodup.1
            exact .closing hstack (hout.trans (Function.update_self ..)) h₁

end Run

/-! ## Pairs of brackets -/

/-- The number of open quotes, from `n` on; none where a bracket closes nothing. -/
def depth : Nat → List (Nat × Bracket) → Option Nat
  | n, [] => some n
  | n, (_, .opening) :: l => depth (n + 1) l
  | 0, (_, .closing) :: _ => none
  | n + 1, (_, .closing) :: l => depth n l

def openings (l : List (Nat × Bracket)) : Nat := l.countP fun e => e.2 = .opening

/-- The brackets of the bunsetsu `a` and `b` belong together, no bracket in front of them
closes nothing, and there is a slot for each bracket that opens in front of `b`. -/
def Spans (bnst : List (List String)) (a b : Nat) : Prop :=
  ∃ pre mid post, brackets bnst = pre ++ (a, .opening) :: (mid ++ (b, .closing) :: post) ∧
    (depth 0 pre).isSome ∧ depth 0 mid = some 0 ∧ openings pre + 1 + openings mid < QUOTE_MAX

theorem closerOf_eq_some {b : Nat} : ∀ {r k : Nat} {l : List (Nat × Bracket)},
    k < QUOTE_MAX → (closerOf r k l = some b ↔ ∃ mid post, l = mid ++ (b, .closing) :: post ∧
      depth r mid = some 0 ∧ k + openings mid < QUOTE_MAX)
  | r, k, [], _ => by simp [closerOf]
  | r, k, (i, .opening) :: l, hk => by
      rw [closerOf]
      constructor
      · intro h
        split_ifs at h with hlt
        obtain ⟨mid, post, rfl, hdepth, hopen⟩ := (closerOf_eq_some (by omega)).mp h
        refine ⟨(i, .opening) :: mid, post, rfl, hdepth, ?_⟩
        simp only [openings, List.countP_cons] at hopen ⊢
        simpa [Nat.add_assoc, Nat.add_comm] using hopen
      · rintro ⟨mid, post, heq, hdepth, hopen⟩
        cases mid with
        | nil => simp at heq
        | cons e mid =>
            obtain ⟨rfl, rfl⟩ := List.cons.inj heq
            have hcount : openings ((i, .opening) :: mid) = openings mid + 1 := by
              simp [openings]
            rw [if_pos (by omega)]
            exact (closerOf_eq_some (by omega)).mpr ⟨mid, post, rfl, hdepth, by omega⟩
  | 0, k, (i, .closing) :: l, hk => by
      rw [closerOf]
      constructor
      · intro h
        obtain rfl := Option.some.inj h
        exact ⟨[], l, rfl, rfl, hk⟩
      · rintro ⟨mid, post, heq, hdepth, -⟩
        cases mid with
        | nil =>
            obtain ⟨h, -⟩ := List.cons.inj heq
            exact congrArg some (congrArg Prod.fst h)
        | cons e mid =>
            obtain ⟨rfl, -⟩ := List.cons.inj heq
            cases hdepth
  | r + 1, k, (i, .closing) :: l, hk => by
      rw [closerOf, closerOf_eq_some hk]
      constructor
      · rintro ⟨mid, post, rfl, hdepth, hopen⟩
        exact ⟨(i, .closing) :: mid, post, rfl, hdepth, by simpa [openings] using hopen⟩
      · rintro ⟨mid, post, heq, hdepth, hopen⟩
        cases mid with
        | nil => cases hdepth
        | cons e mid =>
            obtain ⟨rfl, rfl⟩ := List.cons.inj heq
            exact ⟨mid, post, rfl, hdepth, by simpa [openings] using hopen⟩

theorem mem_slots {x : Nat × Option Nat} : ∀ {n k : Nat} {l : List (Nat × Bracket)},
    x ∈ slots n k l ↔ ∃ pre post, l = pre ++ (x.1, .opening) :: post ∧ (depth n pre).isSome ∧
      k + openings pre + 1 < QUOTE_MAX ∧ x.2 = closerOf 0 (k + openings pre + 1) post
  | n, k, [] => by simp [slots]
  | n, k, (i, .opening) :: l => by
      have hcount : ∀ pre, openings ((i, .opening) :: pre) = openings pre + 1 := fun pre => by
        simp [openings]
      rw [slots]
      constructor
      · intro h
        split_ifs at h with hk
        · rcases List.mem_cons.mp h with rfl | h
          · exact ⟨[], l, rfl, rfl, by simp [openings]; omega, by simp [openings]⟩
          · obtain ⟨pre, post, rfl, hdepth, hopen, hx⟩ := mem_slots.mp h
            refine ⟨(i, .opening) :: pre, post, rfl, hdepth, ?_, ?_⟩
            · rw [hcount]
              omega
            · rw [hcount, hx]
              congr 1
              omega
        · cases h
      · rintro ⟨pre, post, heq, hdepth, hopen, hx⟩
        rw [if_pos (by omega)]
        cases pre with
        | nil =>
            obtain ⟨hi, rfl⟩ := List.cons.inj heq
            exact List.mem_cons.mpr (Or.inl (Prod.ext (congrArg Prod.fst hi).symm hx))
        | cons e pre =>
            obtain ⟨rfl, rfl⟩ := List.cons.inj heq
            rw [hcount] at hopen hx
            refine List.mem_cons_of_mem _ (mem_slots.mpr ⟨pre, post, rfl, hdepth, by omega, ?_⟩)
            rw [hx]
            congr 1
            omega
  | 0, k, (i, .closing) :: l => by
      rw [slots]
      refine ⟨fun h => (List.not_mem_nil h).elim, ?_⟩
      rintro ⟨pre, post, heq, hdepth, -⟩
      cases pre with
      | nil => simp at heq
      | cons e pre =>
          obtain ⟨rfl, -⟩ := List.cons.inj heq
          cases hdepth
  | n + 1, k, (i, .closing) :: l => by
      rw [slots, mem_slots]
      constructor
      · rintro ⟨pre, post, rfl, hdepth, hopen, hx⟩
        have hcount : openings ((i, .closing) :: pre) = openings pre := by simp [openings]
        exact ⟨(i, .closing) :: pre, post, rfl, hdepth, by rwa [hcount], by rwa [hcount]⟩
      · rintro ⟨pre, post, heq, hdepth, hopen, hx⟩
        cases pre with
        | nil => simp at heq
        | cons e pre =>
            obtain ⟨rfl, rfl⟩ := List.cons.inj heq
            have hcount : openings ((i, .closing) :: pre) = openings pre := by simp [openings]
            rw [hcount] at hopen hx
            exact ⟨pre, post, rfl, hdepth, hopen, hx⟩

theorem spans_iff {bnst : List (List String)} {a b : Nat} :
    Spans bnst a b ↔ (a, some b) ∈ slots 0 0 (brackets bnst) := by
  rw [mem_slots]
  constructor
  · rintro ⟨pre, mid, post, heq, hpre, hmid, hopen⟩
    refine ⟨pre, _, heq, hpre, by omega, ((closerOf_eq_some (by omega)).mpr ?_).symm⟩
    exact ⟨mid, post, rfl, hmid, by omega⟩
  · rintro ⟨pre, rest, heq, hpre, hopen, hb⟩
    obtain ⟨mid, post, rfl, hmid, hlt⟩ := (closerOf_eq_some hopen).mp hb.symm
    exact ⟨pre, mid, post, heq, hpre, hmid, by omega⟩

theorem Spans.bounds {bnst : List (List String)} {a b : Nat} (h : Spans bnst a b) :
    a ≤ b ∧ b < bnst.length := by
  obtain ⟨pre, mid, post, heq, -⟩ := h
  have hsorted := brackets_sorted bnst
  rw [heq] at hsorted
  have hrank := (List.pairwise_cons.mp (List.pairwise_append.mp hsorted).2.1).1 (b, .closing)
    (by simp)
  have hmem : (b, .closing) ∈ brackets bnst := by
    rw [heq]
    simp
  have hlt : b < bnst.length := lt_of_mem_brackets hmem
  refine ⟨?_, hlt⟩
  show a ≤ b
  have : 2 * a ≤ 2 * b + 1 := hrank
  omega

theorem length_slots_lt : ∀ {n k : Nat} {l : List (Nat × Bracket)}, k < QUOTE_MAX →
    k + (slots n k l).length < QUOTE_MAX
  | n, k, [], hk => hk
  | n, k, (i, .opening) :: l, hk => by
      rw [slots]
      split_ifs with hlt
      · have := length_slots_lt (n := n + 1) (l := l) (show k + 1 < QUOTE_MAX by omega)
        rw [List.length_cons]
        omega
      · exact hk
  | 0, k, (i, .closing) :: l, hk => hk
  | n + 1, k, (i, .closing) :: l, hk => length_slots_lt (n := n) (l := l) hk

/-! ## The restriction of all quotes -/

section Mask

variable {bnst : List (List String)} {d : QuoteData} {keyPos i j : Nat}

/-- The slots up to the guard are those of a list. -/
theorem maskQuoteScope_iff {ι : Type*} {l : List ι} {start : ι → Nat} {stop : ι → Int}
    (hlen : l.length < QUOTE_MAX) (hguard : d.inNum l.length = -1)
    (hd : ∀ q x, l[q]? = some x → d.inNum q = start x ∧ d.outNum q = stop x)
    (hj : j < bnst.length) (m : Nat → Nat → Bool) :
    maskQuoteScope bnst d keyPos m i j = true ↔
      m i j = true ∧ ∀ x ∈ l, ScopePermits bnst keyPos (start x) (stop x) i j := by
  have hpos : ∀ q < l.length, 0 ≤ d.inNum q := fun q hq => by
    rw [(hd q l[q] (List.getElem?_eq_getElem hq)).1]
    exact Int.natCast_nonneg _
  have hbody : ∀ q < l.length, ∀ m,
      maskScopeTurn bnst keyPos (d.inNum q) (d.outNum q) m i j = true ↔ m i j = true ∧
        ∀ x, l[q]? = some x → ScopePermits bnst keyPos (start x) (stop x) i j := fun q hq m => by
    have hx := List.getElem?_eq_getElem hq
    rw [(hd q l[q] hx).1, (hd q l[q] hx).2, retains_maskScopeTurn bnst keyPos _ _ m i j hj, hx]
    simp
  rw [maskQuoteScope, forQuotes_iff hguard hpos hbody (Nat.zero_le _) (by omega)]
  refine and_congr_right fun _ => ⟨fun hall x hx => ?_, fun hall q _ _ x hx => ?_⟩
  · obtain ⟨q, hq⟩ := List.getElem?_of_mem hx
    exact hall q (Nat.zero_le q) (List.getElem?_eq_some_iff.mp hq).1 x hq
  · exact hall x (List.mem_of_getElem? hx)

/-- The loop over the bunsetsu with 係:文末. -/
theorem periodLoop_ne_zero {t : ParaText} {start stop : Nat} (hle : start ≤ stop)
    (restrict : RestrictMatrix) :
    upTo start stop (fun l (restrict : RestrictMatrix) =>
        if t.has l "係:文末" then
          fun i j => if start ≤ i ∧ i ≤ l ∧ l < j ∧ j ≤ stop then 0 else restrict i j
        else restrict) restrict i j ≠ 0 ↔
      restrict i j ≠ 0 ∧ ∀ l, start ≤ l → l < stop → t.has l "係:文末" = true →
        ¬(start ≤ i ∧ i ≤ l ∧ l < j ∧ j ≤ stop) := by
  refine upTo_induction _ (fun n (r : RestrictMatrix) => r i j ≠ 0 ↔ restrict i j ≠ 0 ∧
    ∀ l, start ≤ l → l < n → t.has l "係:文末" = true →
      ¬(start ≤ i ∧ i ≤ l ∧ l < j ∧ j ≤ stop)) hle ?_ ?_
  · intro n r hlo _ hr
    have hturn : (if t.has n "係:文末" then
          fun i j => if start ≤ i ∧ i ≤ n ∧ n < j ∧ j ≤ stop then 0 else r i j
        else r) i j ≠ 0 ↔ r i j ≠ 0 ∧
          (t.has n "係:文末" = true → ¬(start ≤ i ∧ i ≤ n ∧ n < j ∧ j ≤ stop)) := by
      by_cases hn : t.has n "係:文末" = true
      · simp only [hn, if_true, true_imp_iff]
        split_ifs with hcell
        · simp [hcell]
        · simp [hcell]
      · simp [hn]
    rw [hturn, hr, and_assoc]
    refine and_congr_right fun _ => ⟨?_, ?_⟩
    · rintro ⟨hall, hn⟩ l hle hlt
      rcases Nat.lt_succ_iff_lt_or_eq.mp hlt with hlt | rfl
      · exact hall l hle hlt
      · exact hn
    · exact fun hall => ⟨fun l hle hlt => hall l hle (by omega), hall n hlo (by omega)⟩
  · exact ⟨fun h => ⟨h, fun l _ _ => by omega⟩, And.left⟩

/-- Where both bounds of a quote are recorded. -/
theorem maskQuote_ne_zero {t : ParaText} (hnum : t.bnstNum = bnst.length)
    (hhas : ∀ l, t.has l "係:文末" = hasFeature (bnst.getD l []) "係:文末") (q : Nat × Nat)
    (restrict : RestrictMatrix) (hj : j < bnst.length) :
    Knp.maskQuote t keyPos q restrict i j ≠ 0 ↔
      restrict i j ≠ 0 ∧ ScopePermits bnst keyPos q.1 q.2 i j := by
  obtain ⟨start, stop⟩ := q
  unfold Knp.maskQuote
  simp only
  split_ifs with hbehind hfront
  · show (if i < start ∧ start ≤ j ∧ j < stop then 0 else restrict i j) ≠ 0 ↔ _
    split_ifs with hcell
    · exact ⟨fun h => absurd rfl h, fun h => absurd
        ⟨by omega, by omega⟩ (h.2.behind (by omega) (by omega))⟩
    · exact ⟨fun h => ⟨h, fun _ _ => by omega, fun _ => by omega, fun _ => by omega,
        fun _ => by omega⟩, And.left⟩
  · show (if start < i ∧ i ≤ stop ∧ stop < j ∧ j < t.bnstNum then 0 else restrict i j) ≠ 0 ↔ _
    split_ifs with hcell
    · exact ⟨fun h => absurd rfl h, fun h => absurd (by omega)
        (h.2.front (by omega) (by omega) (by omega) (by omega))⟩
    · exact ⟨fun h => ⟨h, fun _ => by omega, fun _ _ _ _ => by omega, fun _ => by omega,
        fun _ => by omega⟩, And.left⟩
  · refine (periodLoop_ne_zero (by omega) _).trans ?_
    simp only [hhas, hnum]
    split_ifs with hcell
    · exact ⟨fun h => absurd rfl h.1, fun h => absurd (by omega)
        (h.2.inside (by omega) (by omega) (by omega) (by omega))⟩
    · refine and_congr_right fun _ => ⟨fun hperiod => ?_, fun h l hlo hhi hl hc => ?_⟩
      · exact ⟨fun _ => by omega, fun _ => by omega, fun _ _ _ _ => by omega,
          fun _ _ l hlo hhi hl hi hil hj' =>
            hperiod l (by omega) (by omega) hl ⟨by omega, by omega, by omega, by omega⟩⟩
      · exact h.period (by omega) (by omega) l (by omega) (by omega) hl (by omega) (by omega)
          ⟨by omega, by omega⟩

theorem maskQuoteScope_ne_zero {t : ParaText} (hnum : t.bnstNum = bnst.length)
    (hhas : ∀ l, t.has l "係:文末" = hasFeature (bnst.getD l []) "係:文末")
    (restrict : RestrictMatrix) (hj : j < bnst.length) :
    Knp.maskQuoteScope t keyPos restrict i j ≠ 0 ↔
      restrict i j ≠ 0 ∧ ∀ q ∈ t.quoteData, ScopePermits bnst keyPos q.1 q.2 i j := by
  unfold Knp.maskQuoteScope
  induction t.quoteData generalizing restrict with
  | nil => simp
  | cons q quotes ih =>
      rw [List.foldl_cons, ih, maskQuote_ne_zero hnum hhas q restrict hj, and_assoc]
      simp

/-- The loop of `detect_para_scope`, where the two bounds of all quotes are recorded. -/
theorem maskQuoteScope_eq {t : ParaText} (hnum : t.bnstNum = bnst.length)
    (hhas : ∀ l, t.has l "係:文末" = hasFeature (bnst.getD l []) "係:文末")
    (hlen : t.quoteData.length < QUOTE_MAX) (hguard : d.inNum t.quoteData.length = -1)
    (hd : ∀ q x, t.quoteData[q]? = some x → d.inNum q = x.1 ∧ d.outNum q = x.2)
    (restrict : RestrictMatrix) (hj : j < bnst.length) :
    maskQuoteScope bnst d keyPos (fun i j => restrict i j ≠ 0) i j = true ↔
      Knp.maskQuoteScope t keyPos restrict i j ≠ 0 := by
  rw [maskQuoteScope_ne_zero hnum hhas restrict hj, maskQuoteScope_iff hlen hguard hd hj,
    decide_eq_true_iff]

end Mask

/-! ## No trace -/

/-- The rest of the analysis is as without quotes: no cell of the matrix is masked, and no
scope of a coordination is restricted. -/
structure NoTrace (bnst : List (List String)) : Prop where
  matrix : ∀ i j, (quote bnst).2.2 i j = true
  scope : ∀ keyPos m i j, i ≤ keyPos → keyPos < j → j < bnst.length →
    maskQuoteScope bnst (quote bnst).2.1 keyPos m i j = m i j

section Continue

variable {bnst : List (List String)}

theorem quote_continue (h : (quote bnst).1 = none) :
    ∃ d, quote bnst = (none, d, fun _ _ => true) ∧
      Recorded ⟨initQuote, 0, []⟩ (brackets bnst) d := by
  unfold quote checkQuote at h ⊢
  rw [quoteLoop_eq] at h ⊢
  cases hrun : (brackets bnst).foldlM bracketStep ⟨initQuote, 0, []⟩ with
  | error s =>
      unfold brackets at hrun
      rw [hrun]
      exact ⟨s.data, rfl, sound_init.recorded (brackets_sorted bnst) hrun⟩
  | ok s =>
      unfold brackets at hrun
      rw [hrun] at h
      cases h

theorem Recorded.scope_iff {d : QuoteData} {keyPos i j : Nat}
    (h : Recorded ⟨initQuote, 0, []⟩ (brackets bnst) d) (hj : j < bnst.length)
    (m : Nat → Nat → Bool) : maskQuoteScope bnst d keyPos m i j = true ↔
      m i j = true ∧ ∀ x ∈ slots 0 0 (brackets bnst),
        ScopePermits bnst keyPos x.1 (slotNum x.2) i j := by
  have hlen := length_slots_lt (n := 0) (k := 0) (l := brackets bnst) (by decide)
  have hguard := h.guard
  have hslot := h.slot
  simp only [List.length_nil, Nat.zero_add] at hlen hguard hslot
  exact maskQuoteScope_iff hlen hguard hslot hj m

/-- Where `check_quote` gives up, no trace is left just if the pairs that are recorded are
harmless. -/
theorem quote_noTrace_iff (bnst : List (List String)) (h : (quote bnst).1 = none) :
    NoTrace bnst ↔ ∀ a b, Spans bnst a b → Harmless bnst a b := by
  obtain ⟨d, hquote, hd⟩ := quote_continue h
  constructor
  · intro hno a b hspans
    obtain ⟨hab, hb⟩ := hspans.bounds
    rcases Nat.eq_or_lt_of_le hab with rfl | hlt
    · exact Or.inl rfl
    refine harmless_of_permits 0 hab hb (by omega) fun i j hi hj hjb => ?_
    have hcell := hno.scope 0 (fun _ _ => true) i j hi hj hjb
    rw [hquote] at hcell
    exact ((hd.scope_iff hjb _).mp hcell).2 _ (spans_iff.mp hspans)
  · intro hall
    refine ⟨fun i j => by rw [hquote], fun keyPos m i j hi hj hjb => ?_⟩
    rw [hquote, Bool.eq_iff_iff, hd.scope_iff hjb]
    refine ⟨And.left, fun hm => ⟨hm, fun x hx => ?_⟩⟩
    obtain ⟨a, b⟩ := x
    cases b with
    | none => exact scopePermits_open
    | some b => exact (hall a b (spans_iff.mpr hx)).permits hjb (by omega)

end Continue

/-- In each of twenty bunsetsu two quotes are opened and closed. -/
def manyQuotes : List (List String) :=
  List.replicate 20 ["括弧始", "括弧始２", "括弧終", "括弧終２"]

theorem manyQuotes_noTrace : (quote manyQuotes).1 = none ∧ NoTrace manyQuotes := by
  have hcontinue : (quote manyQuotes).1 = none := rfl
  have hslots : ∀ x ∈ slots 0 0 (brackets manyQuotes), ∀ b ∈ x.2, x.1 = b := by decide +kernel
  refine ⟨hcontinue, (quote_noTrace_iff manyQuotes hcontinue).mpr fun a b h => ?_⟩
  exact Or.inl (hslots _ (spans_iff.mp h) b rfl)

/-- The same after a quote of two bunsetsu: a scope that begins in its second one and ends behind
the next key is no longer possible. -/
theorem quoteBefore_trace : (quote (["括弧始"] :: ["括弧終"] :: manyQuotes)).1 = none ∧
    ¬NoTrace (["括弧始"] :: ["括弧終"] :: manyQuotes) := by
  refine ⟨rfl, fun h => ?_⟩
  have hcell := h.scope 2 (fun _ _ => true) 1 3 (by decide) (by decide) (by decide)
  exact absurd hcell (by decide +kernel)

end Knp.Quote
