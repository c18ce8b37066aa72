import Knp.Regexp

/-!
# Matching a rule: pre, self and post patterns (`regexp.c`)

`regexpmrphrule_match` and its two copies check the pre pattern against
everything on the left, and then look for the longest self match whose rest
satisfies the post pattern: each failure of the post pattern shrinks the window
the self pattern is matched in.

> The result is the greatest admissible length, except that the length `0` is
> missed when the window reaches `0` before it is tried.

The loop guard `match_length > 0` bounds the *window*, not the match: an empty
self match is found while the window still has one element, and is never looked for
once a one-element match has been rejected.
-/

namespace Knp

/-- `MrphRule` / `BnstRule`: three optional patterns. -/
structure Rule (ρ : Type*) where
  prePattern : Option (Arr ρ)
  selfPattern : Option (Arr ρ)
  postPattern : Option (Arr ρ)

/-- The elements of an array, in order. -/
def Arr.toList {α : Type*} (a : Arr α) : List α := cells a.mem a.ptr 1 a.size

section Rule

variable {ρ δ : Type*} (astFlag : ρ → Bool) (elem : ρ → δ → Bool)

/-- まず，pre_patternを調べる: everything on the left, from right to left. -/
def preMatch (rPtr : Rule ρ) (D : Int → δ) (dPtr : Int) (bwLength : Nat) : Bool :=
  match rPtr.prePattern with
  | none => bwLength = 0
  | some p =>
      seqMatch astFlag elem p.mem (p.ptr + p.size - 1) p.size D (dPtr - 1) bwLength
        .bw .all .short ≠ -1

/-- The next length to try: the longest self match inside the window, `1`
without a self pattern. -/
def selfMatch (rPtr : Rule ρ) (D : Int → δ) (dPtr : Int) (matchLength : Nat) : Option Nat :=
  match rPtr.selfPattern with
  | none => some 1
  | some p =>
      let matchRest := seqMatch astFlag elem p.mem p.ptr p.size D dPtr matchLength
        .fw .part .long
      if matchRest ≠ -1 then some (matchLength - matchRest).toNat else none

/-- The post pattern against everything that follows the self match. -/
def postMatch (rPtr : Rule ρ) (D : Int → δ) (dPtr : Int) (fwLength matchLength : Nat) : Bool :=
  match rPtr.postPattern with
  | none => true
  | some p =>
      seqMatch astFlag elem p.mem p.ptr p.size D (dPtr + matchLength) (fwLength - matchLength)
        .fw .all .short ≠ -1

variable (rPtr : Rule ρ) (D : Int → δ) (dPtr : Int)

/-- The self match as the rule demands it: exactly the `L` elements from the
current one on, one element without a self pattern. -/
def SelfOk (astFlag : ρ → Bool) (elem : ρ → δ → Bool) (rPtr : Rule ρ) (D : Int → δ) (dPtr : Int)
    (L : Nat) : Prop :=
  match rPtr.selfPattern with
  | none => L = 1
  | some p => cells D dPtr 1 L ∈ patLang astFlag elem p.toList

/-- `selfMatch` finds the greatest admissible self match of the window. -/
theorem selfMatch_cases {m : Nat} (hm : 1 ≤ m) :
    (selfMatch astFlag elem rPtr D dPtr m = none ∧
      ∀ k ≤ m, ¬ SelfOk astFlag elem rPtr D dPtr k) ∨
    ∃ n, selfMatch astFlag elem rPtr D dPtr m = some n ∧
      IsGreatest {k | k ≤ m ∧ SelfOk astFlag elem rPtr D dPtr k} n := by
  cases hp : rPtr.selfPattern with
  | none =>
      refine Or.inr ⟨1, by simp [selfMatch, hp], ⟨hm, by simp [SelfOk, hp]⟩, ?_⟩
      rintro k ⟨-, hk⟩
      simp only [SelfOk, hp] at hk
      omega
  | some p =>
      have hset : {k | k ≤ m ∧ SelfOk astFlag elem rPtr D dPtr k} =
          patLens astFlag elem (cells p.mem p.ptr 1 p.size) (cells D dPtr 1 m) := by
        ext k
        simp only [Set.mem_ofPred_eq, SelfOk, hp, patLens, StarSeq.prefixLens, cells_length]
        refine and_congr_right fun hk => ?_
        rw [cells_take D dPtr 1 hk]
        rfl
      rcases seqMatch_part astFlag elem p.mem D .long .fw p.size m p.ptr dPtr
        with ⟨hres, hnone⟩ | ⟨n, hres, hnn, hn⟩
      · refine Or.inl ⟨by simp [selfMatch, hp, hres], fun k hk hself => ?_⟩
        have hmem : k ∈ {k | k ≤ m ∧ SelfOk astFlag elem rPtr D dPtr k} := ⟨hk, hself⟩
        rw [hset] at hmem
        exact Set.notMem_empty k (hnone ▸ hmem)
      · refine Or.inr ⟨n, ?_, by rw [hset]; exact hn⟩
        rw [cells_length] at hres
        simp only [selfMatch, hp, hres]
        rw [if_pos (by omega)]
        congr 1
        omega

theorem selfMatch_le {m n : Nat} (hm : 1 ≤ m)
    (h : selfMatch astFlag elem rPtr D dPtr m = some n) : n ≤ m := by
  rcases selfMatch_cases astFlag elem rPtr D dPtr hm with ⟨hnone, -⟩ | ⟨k, hk, hgreatest⟩
  · rw [hnone] at h
    cases h
  · rw [hk, Option.some.injEq] at h
    exact h ▸ hgreatest.1.1

/-- The loop `while (match_length > 0)`; a length `0` is left with the
decrement and so ends the loop. -/
def ruleLoop (fwLength matchLength : Nat) : Int :=
  if hpos : 0 < matchLength then
    match hself : selfMatch astFlag elem rPtr D dPtr matchLength with
    | none => -1
    | some n =>
        if postMatch astFlag elem rPtr D dPtr fwLength n then n
        else ruleLoop fwLength (n - 1)
  else -1
termination_by matchLength
decreasing_by
  have hle := selfMatch_le astFlag elem rPtr D dPtr hpos hself
  omega

/-- The common body of the three `regexp*rule_match`: the length of the self
match, or `-1`. -/
def ruleMatch (rPtr : Rule ρ) (D : Int → δ) (dPtr : Int) (bwLength fwLength : Nat) : Int :=
  if preMatch astFlag elem rPtr D dPtr bwLength then
    ruleLoop astFlag elem rPtr D dPtr fwLength fwLength
  else -1

variable {astFlag elem rPtr D dPtr}

theorem ruleLoop_none {fwLength m : Nat} (hm : 0 < m)
    (h : selfMatch astFlag elem rPtr D dPtr m = none) :
    ruleLoop astFlag elem rPtr D dPtr fwLength m = -1 := by
  rw [ruleLoop, dif_pos hm]
  split
  · rfl
  · rename_i n hn
    rw [h] at hn
    cases hn

theorem ruleLoop_some {fwLength m n : Nat} (hm : 0 < m)
    (h : selfMatch astFlag elem rPtr D dPtr m = some n) :
    ruleLoop astFlag elem rPtr D dPtr fwLength m =
      if postMatch astFlag elem rPtr D dPtr fwLength n then (n : Int)
      else ruleLoop astFlag elem rPtr D dPtr fwLength (n - 1) := by
  rw [ruleLoop, dif_pos hm]
  split
  · rename_i hn
    rw [h] at hn
    cases hn
  · rename_i k hk
    rw [h, Option.some.injEq] at hk
    rw [hk]

/-! ## What the loop finds -/

/-- The post pattern as the rule demands it: everything after the self match. -/
def PostOk (astFlag : ρ → Bool) (elem : ρ → δ → Bool) (rPtr : Rule ρ) (D : Int → δ) (dPtr : Int)
    (fwLength L : Nat) : Prop :=
  match rPtr.postPattern with
  | none => True
  | some p => cells D (dPtr + L) 1 (fwLength - L) ∈ patLang astFlag elem p.toList

/-- The pre pattern as the rule demands it: everything before the current
element, and nothing there without a pre pattern. -/
def PreOk (astFlag : ρ → Bool) (elem : ρ → δ → Bool) (rPtr : Rule ρ) (D : Int → δ) (dPtr : Int)
    (bwLength : Nat) : Prop :=
  match rPtr.prePattern with
  | none => bwLength = 0
  | some p => cells D (dPtr - bwLength) 1 bwLength ∈ patLang astFlag elem p.toList

theorem postMatch_iff {fwLength n : Nat} :
    postMatch astFlag elem rPtr D dPtr fwLength n = true ↔
      PostOk astFlag elem rPtr D dPtr fwLength n := by
  cases hp : rPtr.postPattern with
  | none => simp [postMatch, PostOk, hp]
  | some p =>
      simp only [postMatch, PostOk, hp, decide_eq_true_eq]
      exact (seqMatch_all ..).ne_iff

/-- The run from right to left reads the left context in sentence order. -/
theorem preMatch_iff {bwLength : Nat} :
    preMatch astFlag elem rPtr D dPtr bwLength = true ↔
      PreOk astFlag elem rPtr D dPtr bwLength := by
  cases hp : rPtr.prePattern with
  | none => simp [preMatch, PreOk, hp]
  | some p =>
      have hleft : dPtr - 1 = dPtr - bwLength + bwLength - 1 := by omega
      simp only [preMatch, PreOk, hp, decide_eq_true_eq]
      rw [hleft, (seqMatch_all ..).ne_iff, FwOrBw.step_bw, cells_down, cells_down,
        List.map_reverse, StarSeq.reverse_mem_lang_reverse]
      rfl

/-- A length of the self match that a rule admits. -/
structure Admissible (astFlag : ρ → Bool) (elem : ρ → δ → Bool) (rPtr : Rule ρ) (D : Int → δ)
    (dPtr : Int) (bwLength fwLength L : Nat) : Prop where
  le : L ≤ fwLength
  pre : PreOk astFlag elem rPtr D dPtr bwLength
  self : SelfOk astFlag elem rPtr D dPtr L
  post : PostOk astFlag elem rPtr D dPtr fwLength L

/-- A length that passes the self and the post pattern inside a window. -/
def Passes (astFlag : ρ → Bool) (elem : ρ → δ → Bool) (rPtr : Rule ρ) (D : Int → δ) (dPtr : Int)
    (fwLength m : Nat) : Set ℕ :=
  {L | L ≤ m ∧ SelfOk astFlag elem rPtr D dPtr L ∧ PostOk astFlag elem rPtr D dPtr fwLength L}

variable (astFlag elem rPtr D dPtr) in
/-- The loop finds the greatest passing length, but it comes to try the length
`0` only in a nonempty window without a one-element self match. -/
theorem ruleLoop_cases (fwLength : Nat) :
    ∀ m : Nat,
      (ruleLoop astFlag elem rPtr D dPtr fwLength m = -1 ∧
        (∀ L ∈ Passes astFlag elem rPtr D dPtr fwLength m, L = 0) ∧
        (0 ∈ Passes astFlag elem rPtr D dPtr fwLength m →
          m = 0 ∨ SelfOk astFlag elem rPtr D dPtr 1)) ∨
      ∃ n : ℕ, ruleLoop astFlag elem rPtr D dPtr fwLength m = n ∧
        IsGreatest (Passes astFlag elem rPtr D dPtr fwLength m) n ∧
        (n = 0 → 0 < m ∧ ¬ SelfOk astFlag elem rPtr D dPtr 1)
  | 0 => by
      refine Or.inl ⟨by simp [ruleLoop], ?_, fun _ => Or.inl rfl⟩
      rintro L ⟨hL, -⟩
      omega
  | m + 1 => by
      rcases selfMatch_cases astFlag elem rPtr D dPtr (Nat.succ_pos m)
        with ⟨hnone, hself⟩ | ⟨n, hsome, hn⟩
      · refine Or.inl ⟨ruleLoop_none (Nat.succ_pos m) hnone, ?_, ?_⟩
        · rintro L ⟨hL, hLself, -⟩
          exact absurd hLself (hself L hL)
        · rintro ⟨-, h0, -⟩
          exact absurd h0 (hself 0 (Nat.zero_le _))
      · have hpass : ∀ L ∈ Passes astFlag elem rPtr D dPtr fwLength (m + 1), L ≤ n :=
          fun L hL => hn.2 ⟨hL.1, hL.2.1⟩
        have hle : n ≤ m + 1 := hn.1.1
        by_cases hpost : postMatch astFlag elem rPtr D dPtr fwLength n = true
        · refine Or.inr ⟨n, ?_, ⟨⟨hle, hn.1.2, postMatch_iff.mp hpost⟩, hpass⟩, ?_⟩
          · rw [ruleLoop_some (Nat.succ_pos m) hsome, if_pos hpost]
          · rintro rfl
            refine ⟨Nat.succ_pos m, fun h1 => ?_⟩
            have := hn.2 ⟨Nat.succ_pos m, h1⟩
            omega
        · -- the post pattern fails: nothing passes at `n`, the window shrinks to `n - 1`
          have hstep : ruleLoop astFlag elem rPtr D dPtr fwLength (m + 1) =
              ruleLoop astFlag elem rPtr D dPtr fwLength (n - 1) := by
            rw [ruleLoop_some (Nat.succ_pos m) hsome, if_neg hpost]
          have hshrink : ∀ L ∈ Passes astFlag elem rPtr D dPtr fwLength (m + 1), L ≤ n - 1 := by
            intro L hL
            have hne : L ≠ n := by
              rintro rfl
              exact hpost (postMatch_iff.mpr hL.2.2)
            have := hpass L hL
            omega
          rcases ruleLoop_cases fwLength (n - 1) with ⟨hres, hall, hzero⟩ | ⟨k, hres, hk, hk0⟩
          · refine Or.inl ⟨hstep.trans hres, ?_, ?_⟩
            · intro L hL
              exact hall L ⟨hshrink L hL, hL.2⟩
            · intro h0
              rcases hzero ⟨Nat.zero_le _, h0.2⟩ with hn0 | h1
              · right
                rcases Nat.eq_zero_or_pos n with rfl | hpos
                · exact absurd (postMatch_iff.mpr h0.2.2) hpost
                · have : n = 1 := by omega
                  exact this ▸ hn.1.2
              · exact Or.inr h1
          · refine Or.inr ⟨k, hstep.trans hres, ⟨⟨by have := hk.1.1; omega, hk.1.2⟩, ?_⟩, ?_⟩
            · intro L hL
              exact hk.2 ⟨hshrink L hL, hL.2⟩
            · intro h0
              exact ⟨Nat.succ_pos m, (hk0 h0).2⟩
termination_by m => m

/-! ## The contract of a rule -/

/-- What a rule match should return: the greatest admissible length, `-1` when
there is none. -/
def RuleLaw (astFlag : ρ → Bool) (elem : ρ → δ → Bool) (rPtr : Rule ρ) (D : Int → δ) (dPtr : Int)
    (bwLength fwLength : Nat) (res : Int) : Prop :=
  (res = -1 ∧ ∀ L, ¬ Admissible astFlag elem rPtr D dPtr bwLength fwLength L) ∨
    ∃ L : ℕ, res = L ∧ IsGreatest {L | Admissible astFlag elem rPtr D dPtr bwLength fwLength L} L

/-- The empty self match is the only admissible one, and the loop leaves it
out: nothing follows, or the current element alone is a self match too. -/
def EmptyMissed (astFlag : ρ → Bool) (elem : ρ → δ → Bool) (rPtr : Rule ρ) (D : Int → δ)
    (dPtr : Int) (bwLength fwLength : Nat) : Prop :=
  Admissible astFlag elem rPtr D dPtr bwLength fwLength 0 ∧
    (∀ L, Admissible astFlag elem rPtr D dPtr bwLength fwLength L → L = 0) ∧
    (fwLength = 0 ∨ SelfOk astFlag elem rPtr D dPtr 1)

theorem ruleMatch_law_iff {bwLength fwLength : Nat} :
    RuleLaw astFlag elem rPtr D dPtr bwLength fwLength
        (ruleMatch astFlag elem rPtr D dPtr bwLength fwLength) ↔
      ¬ EmptyMissed astFlag elem rPtr D dPtr bwLength fwLength := by
  by_cases hpre : PreOk astFlag elem rPtr D dPtr bwLength
  · have hadm : ∀ L, Admissible astFlag elem rPtr D dPtr bwLength fwLength L ↔
        L ∈ Passes astFlag elem rPtr D dPtr fwLength fwLength :=
      fun L => ⟨fun h => ⟨h.le, h.self, h.post⟩, fun h => ⟨h.1, hpre, h.2.1, h.2.2⟩⟩
    simp only [RuleLaw, EmptyMissed, hadm, Set.ofPred_mem_eq]
    rw [ruleMatch, if_pos (preMatch_iff.mpr hpre)]
    rcases ruleLoop_cases astFlag elem rPtr D dPtr fwLength fwLength
      with ⟨hres, hall, hzero⟩ | ⟨n, hres, hn, hn0⟩
    · rw [hres]
      constructor
      · rintro (⟨-, hnone⟩ | ⟨L, hL, -⟩) ⟨h0, -⟩
        · exact hnone 0 h0
        · omega
      · intro hmiss
        refine Or.inl ⟨rfl, fun L hL => hmiss ?_⟩
        have h0 := hall L hL ▸ hL
        exact ⟨h0, hall, hzero h0⟩
    · refine iff_of_true (Or.inr ⟨n, hres, hn⟩) ?_
      rintro ⟨-, hall, hside⟩
      obtain ⟨hpos, hself⟩ := hn0 (hall n hn.1)
      rcases hside with h | h
      · omega
      · exact hself h
  · have hnone : ∀ L, ¬ Admissible astFlag elem rPtr D dPtr bwLength fwLength L :=
      fun L h => hpre h.pre
    rw [ruleMatch, if_neg (fun h => hpre (preMatch_iff.mp h))]
    exact iff_of_true (Or.inl ⟨rfl, hnone⟩) fun h => hnone 0 h.1

end Rule

/-! ## The three copies -/

section Copies

variable {ψ φ : Type*} (env : MatchEnv ψ φ)

/-- `regexpmrphrule_match` -/
def regexpmrphruleMatch (rPtr : Rule (RegexpMrph ψ)) (D : Int → MrphData φ) (dPtr : Int)
    (bwLength fwLength : Nat) : Int :=
  ruleMatch RegexpMrph.isAst (regexpmrphMatch env) rPtr D dPtr bwLength fwLength

/-- `regexpbnstrule_match` -/
def regexpbnstruleMatch (rPtr : Rule (RegexpBnst ψ)) (D : Int → BnstData φ) (dPtr : Int)
    (bwLength fwLength : Nat) : Int :=
  ruleMatch RegexpBnst.isAst (regexpbnstMatch env) rPtr D dPtr bwLength fwLength

/-- `regexptagrule_match` -/
def regexptagruleMatch (rPtr : Rule (RegexpBnst ψ)) (D : Int → TagData φ) (dPtr : Int)
    (bwLength fwLength : Nat) : Int :=
  ruleMatch RegexpBnst.isAst (fun r d => regexpbnstMatch env r d.toBnstData) rPtr D dPtr
    bwLength fwLength

/-- A rule match, in each of the three copies, returns the greatest admissible
length exactly when it does not miss an empty self match. -/
theorem rule_matches_longest_iff :
    (∀ (ρ δ : Type) (astFlag : ρ → Bool) (elem : ρ → δ → Bool) (rPtr : Rule ρ) (D : Int → δ)
        (dPtr : Int) (bwLength fwLength : Nat),
      RuleLaw astFlag elem rPtr D dPtr bwLength fwLength
          (ruleMatch astFlag elem rPtr D dPtr bwLength fwLength) ↔
        ¬ EmptyMissed astFlag elem rPtr D dPtr bwLength fwLength) ∧
    (∀ (rPtr : Rule (RegexpMrph ψ)) (D : Int → MrphData φ) (dPtr : Int) (bwLength fwLength : Nat),
      RuleLaw RegexpMrph.isAst (regexpmrphMatch env) rPtr D dPtr bwLength fwLength
          (regexpmrphruleMatch env rPtr D dPtr bwLength fwLength) ↔
        ¬ EmptyMissed RegexpMrph.isAst (regexpmrphMatch env) rPtr D dPtr bwLength fwLength) ∧
    (∀ (rPtr : Rule (RegexpBnst ψ)) (D : Int → BnstData φ) (dPtr : Int) (bwLength fwLength : Nat),
      RuleLaw RegexpBnst.isAst (regexpbnstMatch env) rPtr D dPtr bwLength fwLength
          (regexpbnstruleMatch env rPtr D dPtr bwLength fwLength) ↔
        ¬ EmptyMissed RegexpBnst.isAst (regexpbnstMatch env) rPtr D dPtr bwLength fwLength) ∧
    (∀ (rPtr : Rule (RegexpBnst ψ)) (D : Int → TagData φ) (dPtr : Int) (bwLength fwLength : Nat),
      RuleLaw RegexpBnst.isAst (fun r d => regexpbnstMatch env r d.toBnstData) rPtr D dPtr
          bwLength fwLength (regexptagruleMatch env rPtr D dPtr bwLength fwLength) ↔
        ¬ EmptyMissed RegexpBnst.isAst (fun r d => regexpbnstMatch env r d.toBnstData) rPtr D
          dPtr bwLength fwLength) :=
  ⟨fun _ _ _ _ _ _ _ _ _ => ruleMatch_law_iff, fun _ _ _ _ _ => ruleMatch_law_iff,
    fun _ _ _ _ _ => ruleMatch_law_iff, fun _ _ _ _ _ => ruleMatch_law_iff⟩

end Copies

/-- The pattern element `?` (any morpheme), with or without a star. -/
def anyMrph (astFlag : Flg) : RegexpMrph Unit where
  typeFlag := .qst
  astFlag := astFlag
  hinshiNot := .mat
  hinshi := []
  bunruiNot := .mat
  bunrui := []
  kataNot := .mat
  katuyouKata := []
  keiNot := .mat
  katuyouKei := []
  goiNot := .mat
  goi := []
  fPattern := []

/-- Self pattern `?*`, post pattern `?`, and no pre pattern. -/
def starThenAny : Rule (RegexpMrph Unit) where
  prePattern := none
  selfPattern := some ⟨fun _ => anyMrph .ast, 0, 1⟩
  postPattern := some ⟨fun _ => anyMrph .mat, 0, 1⟩

/-- No inflection table and no features. -/
def emptyEnv : MatchEnv Unit Unit := ⟨0, 0, fun _ _ => none, fun _ _ => true, fun _ _ => true⟩

/-- A sentence of nouns. -/
def nounSentence : Int → MrphData Unit := fun _ => ⟨6, 1, 0, 0, "名詞", ()⟩

@[simp] theorem anyMrph_match (flg : Flg) (d : MrphData Unit) :
    regexpmrphMatch emptyEnv (anyMrph flg) d = true := rfl

@[simp] theorem anyMrph_isAst (flg : Flg) : (anyMrph flg).isAst = decide (flg = .ast) := rfl

/-- One noun is the empty self match followed by the post match, and the rule
does not find it. -/
theorem starThenAny_missed :
    regexpmrphruleMatch emptyEnv starThenAny nounSentence 0 0 1 = -1 ∧
      ¬ RuleLaw RegexpMrph.isAst (regexpmrphMatch emptyEnv) starThenAny nounSentence 0 0 1
        (regexpmrphruleMatch emptyEnv starThenAny nounSentence 0 0 1) := by
  have hself : selfMatch RegexpMrph.isAst (regexpmrphMatch emptyEnv) starThenAny nounSentence 0 1 =
      some 1 := by
    simp [selfMatch, starThenAny, seqMatch, starMatch, firstMatch]
  have hpost : postMatch RegexpMrph.isAst (regexpmrphMatch emptyEnv) starThenAny nounSentence 0
      1 1 = false := by
    simp [postMatch, starThenAny, seqMatch]
  have hres : regexpmrphruleMatch emptyEnv starThenAny nounSentence 0 0 1 = -1 := by
    simp only [regexpmrphruleMatch, ruleMatch]
    rw [if_pos (by simp [preMatch, starThenAny]), ruleLoop_some Nat.one_pos hself, hpost]
    simp [ruleLoop]
  refine ⟨hres, ?_⟩
  rw [hres]
  rintro (⟨-, hnone⟩ | ⟨L, hL, -⟩)
  · refine hnone 0 ⟨Nat.zero_le _, rfl, ?_, ?_⟩
    · exact StarSeq.mem_lang_of_skip (a := toItem _ _ (anyMrph .ast)) rfl
        (StarSeq.mem_lang_nil.mpr rfl)
    · exact (StarSeq.mem_lang_plain (a := toItem _ _ (anyMrph .mat)) rfl).mpr
        ⟨nounSentence 0, [], rfl, rfl, StarSeq.mem_lang_nil.mpr rfl⟩
  · omega

end Knp
