import Knp.JumpWalk
import Knp.RegexpRule
import Knp.Cky

/-!
# Applying rules to morphemes, tags and bunsetsu (`read_data.c`)

`assign_mrph_feature` and its two copies try rules at every unit of a range, from the
left or from the right, units outside and rules inside (`RLOOP_MRM`) or the other way
round (`RLOOP_RMM`). After a match with `RLOOP_BREAK_JUMP` the loop over the units goes on
by the length of the match.

> With rules inside, the loop ends just if it is nowhere stuck at matches of length 0.
> It then leaves out a unit just if it goes from right to left: the match is on the
> right of where it begins, the jump goes to the left.

`assign_feature` is any function on the state, in which the units and the features of the
rules are.
-/

namespace Knp

open JumpWalk

/-- `RLOOP_MRM`, `RLOOP_RMM`. -/
inductive LoopMode
  | mrm
  | rmm
deriving DecidableEq

/-- `RLOOP_BREAK_NONE`, `RLOOP_BREAK_NORMAL`, `RLOOP_BREAK_JUMP`. -/
inductive BreakMode
  | none
  | normal
  | jump
deriving DecidableEq

/-- `break_feature` -/
def breakFeature : List String → BreakMode
  | [] => .none
  | cp :: fp =>
      if cp = "&break:normal" then .normal
      else if cp = "&break:jump" then .jump
      else if "&break".toList.isPrefixOf cp.toList then .normal
      else breakFeature fp

/-- The unit at the `i`-th turn, when `sPtr` is the first of `n` units. -/
def unitPtr (direction : Direction) (sPtr : Int) (n i : Nat) : Int :=
  match direction with
  | .LtoR => sPtr + i
  | .RtoL => sPtr + (n - 1) - i

/-! ## The loops -/

/-- The three functions differ in what matches a rule, and in what `assign_feature` is
called for at the `k`-th unit of a match. -/
structure UnitRules (σ : Type*) where
  ruleMatch : Nat → σ → Int → Nat → Nat → Int
  ruleFeature : Nat → σ → List String
  assignUnit : Nat → Int → Nat → Nat → σ → σ

namespace UnitRules

variable {σ : Type*} (R : UnitRules σ) (breakMode : BreakMode) (direction : Direction)
  (sPtr : Int) (n : Nat)

/-- The match of the rule `j` at the `i`-th turn. -/
def matchLength (j i : Nat) (s : σ) : Int :=
  R.ruleMatch j s (unitPtr direction sPtr n i)
    (match direction with | .LtoR => i | .RtoL => n - i - 1)
    (match direction with | .LtoR => n - i | .RtoL => i + 1)

/-- The loop over the units of a match. -/
def assignMatch (j i m : Nat) (s : σ) : σ :=
  (List.range m).foldl
    (fun s k => R.assignUnit j (unitPtr direction sPtr n i) k (m - k) s) s

/-- `RLOOP_MRM`: the rules at the `i`-th turn, and the jump of the rule that makes one. -/
def rulesAt (i : Nat) : List Nat → σ → σ × Option Nat
  | [], s => (s, none)
  | j :: js, s =>
      let matchLength := R.matchLength direction sPtr n j i s
      if matchLength ≠ -1 then
        let s := R.assignMatch direction sPtr n j i matchLength.toNat s
        let featureBreakMode := breakFeature (R.ruleFeature j s)
        if breakMode = .normal ∨ featureBreakMode = .normal then (s, none)
        else if breakMode = .jump ∨ featureBreakMode = .jump then (s, some matchLength.toNat)
        else rulesAt i js s
      else rulesAt i js s

/-- `RLOOP_RMM`: the units for the rule `j`. -/
def unitsFor (featureBreakMode : BreakMode) (j : Nat) : List Nat → σ → σ
  | [], s => s
  | i :: is, s =>
      let matchLength := R.matchLength direction sPtr n j i s
      if matchLength ≠ -1 then
        let s := R.assignMatch direction sPtr n j i matchLength.toNat s
        if breakMode = .normal ∨ breakMode = .jump ∨
            featureBreakMode = .normal ∨ featureBreakMode = .jump then s
        else unitsFor featureBreakMode j is s
      else unitsFor featureBreakMode j is s

/-- The body of the three functions, with the turns of the outer loop in `RLOOP_MRM`. A jump
by `m` is `i += m - 1` before the `i++` of the loop. -/
def assign (rSize : Nat) (mode : LoopMode) (fuel : Nat) (s : σ) : Option (List Pass × σ) :=
  match mode with
  | .mrm =>
      walk (fun i => R.rulesAt breakMode direction sPtr n i (List.range rSize)) n fuel 0 s
  | .rmm =>
      some ([], (List.range rSize).foldl (fun s j =>
        R.unitsFor breakMode direction sPtr n (breakFeature (R.ruleFeature j s)) j
          (List.range n) s) s)

end UnitRules

/-! ## The three functions -/

/-- The structure whose features `assign_feature` is called for. -/
inductive FeatureTarget
  | mrph (ptr : Int)
  | tag (ptr : Int)
  | bnst (ptr : Int)
  | bnstOfTag (ptr : Int)
  | headTagOfBnst (ptr : Int)
deriving DecidableEq

/-- What the functions read of the state, and `assign_feature`, for the rule `j` at the
`k`-th unit from `ptr` on with `rest` units of the match left. -/
structure RuleState (σ ψ φ : Type*) where
  matchEnv : σ → MatchEnv ψ φ
  mrph : σ → Int → MrphData φ
  tag : σ → Int → TagData φ
  bnst : σ → Int → BnstData φ
  ruleFeature : Nat → σ → List String
  assignFeature : FeatureTarget → (j : Nat) → (ptr : Int) → (k rest : Nat) → Bool → σ → σ

section Functions

variable {σ ψ φ : Type*} (S : RuleState σ ψ φ)

def mrphRules (rules : Nat → Rule (RegexpMrph ψ)) (tempAssignFlag : Bool) : UnitRules σ where
  ruleMatch j s := regexpmrphruleMatch (S.matchEnv s) (rules j) (S.mrph s)
  ruleFeature := S.ruleFeature
  assignUnit j ptr k rest := S.assignFeature (.mrph (ptr + k)) j ptr k rest tempAssignFlag

/-- `also_assign_flag`: 属する文節にも付与する場合 -/
def tagRules (rules : Nat → Rule (RegexpBnst ψ)) (alsoAssignFlag tempAssignFlag : Bool) :
    UnitRules σ where
  ruleMatch j s := regexptagruleMatch (S.matchEnv s) (rules j) (S.tag s)
  ruleFeature := S.ruleFeature
  assignUnit j ptr k rest s :=
    let s := S.assignFeature (.tag (ptr + k)) j ptr k rest tempAssignFlag s
    if alsoAssignFlag then S.assignFeature (.bnstOfTag (ptr + k)) j ptr k rest tempAssignFlag s
    else s

/-- `also_assign_flag`: headのタグ単位にも付与する場合 -/
def bnstRules (rules : Nat → Rule (RegexpBnst ψ)) (alsoAssignFlag tempAssignFlag : Bool) :
    UnitRules σ where
  ruleMatch j s := regexpbnstruleMatch (S.matchEnv s) (rules j) (S.bnst s)
  ruleFeature := S.ruleFeature
  assignUnit j ptr k rest s :=
    let s := S.assignFeature (.bnst (ptr + k)) j ptr k rest tempAssignFlag s
    if alsoAssignFlag then
      S.assignFeature (.headTagOfBnst (ptr + k)) j ptr k rest tempAssignFlag s
    else s

/-- `assign_mrph_feature`. The `also_assign_flag` is not used. -/
def assignMrphFeature (rules : Nat → Rule (RegexpMrph ψ)) (rSize : Nat) (sPtr : Int) (n : Nat)
    (mode : LoopMode) (breakMode : BreakMode) (direction : Direction)
    (_alsoAssignFlag tempAssignFlag : Bool) : Nat → σ → Option (List Pass × σ) :=
  (mrphRules S rules tempAssignFlag).assign breakMode direction sPtr n rSize mode

/-- `assign_tag_feature` -/
def assignTagFeature (rules : Nat → Rule (RegexpBnst ψ)) (rSize : Nat) (sPtr : Int) (n : Nat)
    (mode : LoopMode) (breakMode : BreakMode) (direction : Direction)
    (alsoAssignFlag tempAssignFlag : Bool) : Nat → σ → Option (List Pass × σ) :=
  (tagRules S rules alsoAssignFlag tempAssignFlag).assign breakMode direction sPtr n rSize mode

/-- `assign_bnst_feature` -/
def assignBnstFeature (rules : Nat → Rule (RegexpBnst ψ)) (rSize : Nat) (sPtr : Int) (n : Nat)
    (mode : LoopMode) (breakMode : BreakMode) (direction : Direction)
    (alsoAssignFlag tempAssignFlag : Bool) : Nat → σ → Option (List Pass × σ) :=
  (bnstRules S rules alsoAssignFlag tempAssignFlag).assign breakMode direction sPtr n rSize mode

end Functions

/-! ## What the loops should do -/

/-- Every unit is tried, or lies in the match of a rule that made a jump. -/
def CoversUnits (direction : Direction) (sPtr : Int) (n : Nat) (ps : List Pass) : Prop :=
  ∀ x, sPtr ≤ x → x < sPtr + n →
    (∃ p ∈ ps, unitPtr direction sPtr n p.pos = x) ∨
    ∃ p ∈ ps, ∃ m, p.jump = some m ∧
      unitPtr direction sPtr n p.pos ≤ x ∧ x < unitPtr direction sPtr n p.pos + m

/-- The loops end, and `RLOOP_MRM` covers the units. -/
def AppliesRules {σ : Type*} (mode : LoopMode) (direction : Direction) (sPtr : Int) (n : Nat)
    (run : Nat → Option (List Pass × σ)) : Prop :=
  ∃ fuel r, run fuel = some r ∧ (mode = .mrm → CoversUnits direction sPtr n r.1)

/-- What the turns of the outer loop must be like. -/
structure Proceeds {σ : Type*} (direction : Direction) (n : Nat) (step : Nat → σ → σ × Option Nat)
    (s : σ) : Prop where
  /-- A unit is not matched with length 0 over and over. -/
  movesOn : ∀ i t, JumpWalk.Reached step n 0 s i t → i < n → MovesOn step i t
  /-- To the left, a jump over a unit is made up for by a later match that reaches back. -/
  reachesBack : direction = .RtoL → ∀ i t m, JumpWalk.Reached step n 0 s i t → i + 1 < n →
    (step i t).2 = some m → 2 ≤ m →
      ∃ i' t' m', JumpWalk.Reached step n 0 s i' t' ∧ i < i' ∧ i' < n ∧ (step i' t').2 = some m' ∧
        i' ≤ i + m'

section Cover

variable {σ : Type*} {step : Nat → σ → σ × Option Nat} {direction : Direction} {sPtr : Int}
  {n fuel : Nat} {s t : σ} {ps : List Pass}

/-- From the left, what is jumped over is the match. -/
theorem coversUnits_ltoR (h : walk step n fuel 0 s = some (ps, t)) :
    CoversUnits .LtoR sPtr n ps := by
  intro x hlo hhi
  obtain ⟨j, rfl⟩ : ∃ j : Nat, x = sPtr + j := ⟨(x - sPtr).toNat, by omega⟩
  rcases tried_or_skipped h (Nat.zero_le j) (by omega) with ⟨p, hp, rfl⟩ | ⟨p, hp, m, hm, hpos, hlt⟩
  · exact .inl ⟨p, hp, rfl⟩
  · refine .inr ⟨p, hp, m, hm, ?_, ?_⟩ <;> dsimp only [unitPtr] <;> omega

/-- From the right, in numbers of turns: the match of a turn covers the turn and those before. -/
theorem coversUnits_rtoL_iff :
    CoversUnits .RtoL sPtr n ps ↔ ∀ j < n,
      (∃ p ∈ ps, p.pos = j) ∨
      ∃ p ∈ ps, ∃ m, p.jump = some m ∧ j ≤ p.pos ∧ p.pos < j + m := by
  unfold CoversUnits unitPtr
  dsimp only
  constructor
  · intro h j hj
    rcases h (sPtr + (n - 1) - j) (by omega) (by omega) with
      ⟨p, hp, hpos⟩ | ⟨p, hp, m, hm, hlo, hhi⟩
    · exact .inl ⟨p, hp, by omega⟩
    · exact .inr ⟨p, hp, m, hm, by omega, by omega⟩
  · intro h x hlo hhi
    obtain ⟨j, rfl⟩ : ∃ j : Nat, x = sPtr + (n - 1) - j :=
      ⟨(sPtr + (n - 1) - x).toNat, by omega⟩
    rcases h j (by omega) with ⟨p, hp, rfl⟩ | ⟨p, hp, m, hm, hlo, hhi⟩
    · exact .inl ⟨p, hp, rfl⟩
    · exact .inr ⟨p, hp, m, hm, by omega, by omega⟩

/-- From the right, a unit that is jumped over is covered just if a later match reaches back. -/
theorem coversUnits_rtoL (h : walk step n fuel 0 s = some (ps, t)) :
    CoversUnits .RtoL sPtr n ps ↔
      ∀ p ∈ ps, ∀ m, p.jump = some m → p.pos + 1 < n → 2 ≤ m →
        ∃ q ∈ ps, ∃ m', q.jump = some m' ∧ p.pos < q.pos ∧ q.pos ≤ p.pos + m' := by
  rw [coversUnits_rtoL_iff]
  constructor
  · intro hcov p hp m hm hlt htwo
    have hskip : p.Skips (p.pos + 1) := ⟨m, hm, Nat.lt_succ_self _, by omega⟩
    rcases hcov _ hlt with ⟨q, hq, hpos⟩ | ⟨q, hq, m', hm', hlo, hhi⟩
    · exact absurd (hpos ▸ hskip) (not_skips_of_mem h hp hq)
    · exact ⟨q, hq, m', hm', by omega, by omega⟩
  · intro hback j hj
    rcases tried_or_skipped h (Nat.zero_le j) hj with htried | ⟨p, hp, m, hm, hpos, hlt⟩
    · exact .inl htried
    · obtain ⟨q, hq, m', hm', hlo, hhi⟩ := hback p hp m hm (by omega) (by omega)
      -- the later turn is not jumped over, so it is not before `j`
      have hnot : ¬(p.pos < q.pos ∧ q.pos < p.pos + m) := fun hskip =>
        not_skips_of_mem h hp hq ⟨m, hm, hskip.1, hskip.2⟩
      exact .inr ⟨q, hq, m', hm', by omega, by omega⟩

/-- **The outer loop of `RLOOP_MRM`.** -/
theorem walk_applies_iff :
    (∃ fuel r, walk step n fuel 0 s = some r ∧ CoversUnits direction sPtr n r.1) ↔
      Proceeds direction n step s := by
  constructor
  · rintro ⟨fuel, ⟨ps, t⟩, hrun, hcov⟩
    refine ⟨ends_iff.mp ⟨fuel, _, hrun⟩, ?_⟩
    rintro rfl i u m hreach hlt hjump htwo
    have hp : ⟨i, some m⟩ ∈ ps :=
      (mem_walk_iff hrun).mpr ⟨u, hreach, by dsimp only; omega, hjump.symm⟩
    obtain ⟨q, hq, m', hm', hlo, hhi⟩ := (coversUnits_rtoL hrun).mp hcov _ hp m rfl hlt htwo
    obtain ⟨u', hreach', hlt', hjump'⟩ := (mem_walk_iff hrun).mp hq
    exact ⟨q.pos, u', m', hreach', hlo, hlt', hjump'.symm.trans hm', hhi⟩
  · intro h
    obtain ⟨fuel, ⟨ps, t⟩, hrun⟩ := ends_iff.mpr h.movesOn
    refine ⟨fuel, _, hrun, ?_⟩
    cases direction with
    | LtoR => exact coversUnits_ltoR hrun
    | RtoL =>
        refine (coversUnits_rtoL hrun).mpr fun p hp m hm hlt htwo => ?_
        obtain ⟨u, hreach, -, hjump⟩ := (mem_walk_iff hrun).mp hp
        obtain ⟨i', t', m', hreach', hlo, hlt', hjump', hhi⟩ :=
          h.reachesBack rfl p.pos u m hreach hlt (hjump.symm.trans hm) htwo
        exact ⟨⟨i', some m'⟩, (mem_walk_iff hrun).mpr ⟨t', hreach', hlt', hjump'.symm⟩, m', rfl,
          hlo, hhi⟩

end Cover

theorem assign_applies_iff {σ : Type*} (R : UnitRules σ) {breakMode : BreakMode}
    {direction : Direction} {sPtr : Int} {n rSize : Nat} {mode : LoopMode} {s : σ} :
    AppliesRules mode direction sPtr n (fun fuel =>
        R.assign breakMode direction sPtr n rSize mode fuel s) ↔
      (mode = .mrm → Proceeds direction n
        (fun i => R.rulesAt breakMode direction sPtr n i (List.range rSize)) s) := by
  cases mode with
  | mrm =>
      unfold AppliesRules UnitRules.assign
      simp only [forall_const]
      exact walk_applies_iff
  | rmm =>
      refine iff_of_true ⟨0, _, rfl, ?_⟩ ?_ <;> exact fun h => absurd h (by decide)

/-- The three functions end and cover the units just if, with the rules inside, the outer loop
proceeds; with the units inside they always do. -/
theorem rule_loops_iff {σ ψ φ : Type*} (S : RuleState σ ψ φ) (rSize : Nat) (sPtr : Int) (n : Nat)
    (mode : LoopMode) (breakMode : BreakMode) (direction : Direction) (also temp : Bool) (s : σ) :
    (∀ rules, AppliesRules mode direction sPtr n (fun fuel =>
        assignMrphFeature S rules rSize sPtr n mode breakMode direction also temp fuel s) ↔
      (mode = .mrm → Proceeds direction n (fun i =>
        (mrphRules S rules temp).rulesAt breakMode direction sPtr n i (List.range rSize)) s)) ∧
    (∀ rules, AppliesRules mode direction sPtr n (fun fuel =>
        assignTagFeature S rules rSize sPtr n mode breakMode direction also temp fuel s) ↔
      (mode = .mrm → Proceeds direction n (fun i =>
        (tagRules S rules also temp).rulesAt breakMode direction sPtr n i (List.range rSize)) s)) ∧
    (∀ rules, AppliesRules mode direction sPtr n (fun fuel =>
        assignBnstFeature S rules rSize sPtr n mode breakMode direction also temp fuel s) ↔
      (mode = .mrm → Proceeds direction n (fun i => (bnstRules S rules also temp).rulesAt
        breakMode direction sPtr n i (List.range rSize)) s)) :=
  ⟨fun _ => assign_applies_iff _, fun _ => assign_applies_iff _, fun _ => assign_applies_iff _⟩

/-! ## Rules that need a unit -/

section Plain

variable {ρ δ : Type*} {astFlag : ρ → Bool} {elem : ρ → δ → Bool}

theorem nil_mem_patLang_iff {ps : List ρ} :
    ([] : List δ) ∈ patLang astFlag elem ps ↔ ∀ r ∈ ps, astFlag r = true := by
  unfold patLang
  induction ps with
  | nil => simp
  | cons r ps ih =>
      rw [List.map_cons, List.forall_mem_cons, ← ih]
      cases hr : astFlag r with
      | false =>
          rw [StarSeq.mem_lang_plain hr]
          refine iff_of_false ?_ fun h => absurd h.1 (by decide)
          rintro ⟨x, w, h, -⟩
          exact absurd h (List.cons_ne_nil x w).symm
      | true =>
          rw [StarSeq.mem_lang_star_step hr]
          simp

/-- The self pattern has an element without a star, or there is none. -/
def Rule.NeedsUnit (astFlag : ρ → Bool) (rPtr : Rule ρ) : Prop :=
  ∀ p, rPtr.selfPattern = some p → ∃ r ∈ p.toList, astFlag r = false

/-- Such a rule matches a unit at least. -/
theorem ruleMatch_pos {rPtr : Rule ρ} (h : rPtr.NeedsUnit astFlag) {D : Int → δ} {dPtr : Int}
    {bwLength fwLength : Nat} (hmatch : ruleMatch astFlag elem rPtr D dPtr bwLength fwLength ≠ -1) :
    0 < ruleMatch astFlag elem rPtr D dPtr bwLength fwLength := by
  rw [ruleMatch] at hmatch ⊢
  split at hmatch
  next hpre =>
    rw [if_pos hpre]
    rcases ruleLoop_cases astFlag elem rPtr D dPtr fwLength fwLength
      with ⟨hres, -⟩ | ⟨n, hres, hn, -⟩
    · exact absurd hres hmatch
    · rw [hres]
      refine Int.natCast_pos.mpr (Nat.pos_of_ne_zero ?_)
      rintro rfl
      have hself : SelfOk astFlag elem rPtr D dPtr 0 := hn.1.2.1
      unfold SelfOk at hself
      cases hp : rPtr.selfPattern with
      | none =>
          rw [hp] at hself
          exact Nat.zero_ne_one hself
      | some p =>
          rw [hp] at hself
          obtain ⟨r, hr, hast⟩ := h p hp
          rw [nil_mem_patLang_iff.mp hself r hr] at hast
          cases hast
  · exact absurd rfl hmatch

end Plain

section NoStar

variable {σ : Type*} {R : UnitRules σ} {breakMode : BreakMode} {direction : Direction} {sPtr : Int}
  {n i m : Nat} {js : List Nat} {s : σ}

/-- A jump is by the length of a match. -/
theorem rulesAt_jump (h : (R.rulesAt breakMode direction sPtr n i js s).2 = some m) :
    ∃ j ∈ js, ∃ t, R.matchLength direction sPtr n j i t ≠ -1 ∧
      m = (R.matchLength direction sPtr n j i t).toNat := by
  induction js generalizing s with
  | nil => cases h
  | cons j js ih =>
      unfold UnitRules.rulesAt at h
      dsimp only at h
      split at h
      next hmatch =>
        split at h
        · cases h
        · split at h
          · exact ⟨j, List.mem_cons_self, s, hmatch, (Option.some.inj h).symm⟩
          · obtain ⟨j', hj', hrest⟩ := ih h
            exact ⟨j', List.mem_cons_of_mem _ hj', hrest⟩
      next =>
        obtain ⟨j', hj', hrest⟩ := ih h
        exact ⟨j', List.mem_cons_of_mem _ hj', hrest⟩

/-- From the left, rules that match a unit at least always proceed. -/
theorem applies_of_pos {rSize : Nat} {mode : LoopMode}
    (hpos : ∀ j s dPtr bw fw, R.ruleMatch j s dPtr bw fw ≠ -1 → 0 < R.ruleMatch j s dPtr bw fw) :
    AppliesRules mode .LtoR sPtr n (fun fuel =>
      R.assign breakMode .LtoR sPtr n rSize mode fuel s) := by
  refine (assign_applies_iff R).mpr fun _ => ⟨fun i t _ _ => ⟨0, fun hzero => ?_⟩, ?_⟩
  · obtain ⟨j, -, t', hmatch, hlen⟩ := rulesAt_jump hzero
    have hlt := hpos j t' _ _ _ hmatch
    unfold UnitRules.matchLength at hlen
    omega
  · rintro ⟨⟩

end NoStar

/-- With rules whose self patterns all have an element without a star, the three functions end
and cover the units from the left. -/
theorem rules_apply_of_needsUnit {σ ψ φ : Type*} (S : RuleState σ ψ φ) (rSize : Nat) (sPtr : Int)
    (n : Nat) (mode : LoopMode) (breakMode : BreakMode) (also temp : Bool) (s : σ) :
    (∀ rules : Nat → Rule (RegexpMrph ψ), (∀ j, (rules j).NeedsUnit RegexpMrph.isAst) →
      AppliesRules mode .LtoR sPtr n (fun fuel =>
        assignMrphFeature S rules rSize sPtr n mode breakMode .LtoR also temp fuel s)) ∧
    (∀ rules : Nat → Rule (RegexpBnst ψ), (∀ j, (rules j).NeedsUnit RegexpBnst.isAst) →
      AppliesRules mode .LtoR sPtr n (fun fuel =>
          assignTagFeature S rules rSize sPtr n mode breakMode .LtoR also temp fuel s) ∧
        AppliesRules mode .LtoR sPtr n (fun fuel =>
          assignBnstFeature S rules rSize sPtr n mode breakMode .LtoR also temp fuel s)) :=
  ⟨fun _ h => applies_of_pos fun j _ _ _ _ => ruleMatch_pos (h j),
    fun _ h => ⟨applies_of_pos fun j _ _ _ _ => ruleMatch_pos (h j),
      applies_of_pos fun j _ _ _ _ => ruleMatch_pos (h j)⟩⟩

/-! ## Rules that do not -/

/-- Self pattern `名詞*` between `?*` and `?*`. -/
def starNoun : Rule (RegexpMrph Unit) where
  prePattern := some ⟨fun _ => anyMrph .ast, 0, 1⟩
  selfPattern := some ⟨fun _ => { anyMrph .ast with typeFlag := .mat, hinshi := [6] }, 0, 1⟩
  postPattern := some ⟨fun _ => anyMrph .ast, 0, 1⟩

/-- Self pattern `? ?` between `?*` and nothing more. -/
def twoMrphs : Rule (RegexpMrph Unit) where
  prePattern := some ⟨fun _ => anyMrph .ast, 0, 1⟩
  selfPattern := some ⟨fun _ => anyMrph .mat, 0, 2⟩
  postPattern := none

/-- The features of the rules are `&break:jump`, and `assign_feature` does nothing. -/
def jumpState (hinshi : Nat) : RuleState Unit Unit Unit where
  matchEnv _ := emptyEnv
  mrph _ _ := ⟨hinshi, 1, 0, 0, "", ()⟩
  tag _ _ := ⟨⟨fun _ => ⟨hinshi, 1, 0, 0, "", ()⟩, 0, 1⟩, ()⟩
  bnst _ _ := ⟨⟨fun _ => ⟨hinshi, 1, 0, 0, "", ()⟩, 0, 1⟩, ()⟩
  ruleFeature _ _ := ["&break:jump"]
  assignFeature _ _ _ _ _ _ s := s

/-- One verb: `名詞*` matches no morpheme. -/
theorem starNoun_zero (D : Int → MrphData Unit) (hD : ∀ x, (D x).hinshi = 2) :
    regexpmrphruleMatch emptyEnv starNoun D 0 0 1 = 0 := by
  have hself : selfMatch RegexpMrph.isAst (regexpmrphMatch emptyEnv) starNoun D 0 1 = some 0 := by
    simp [selfMatch, starNoun, seqMatch, starMatch, firstMatch, regexpmrphMatch, ruleHBKCmp,
      flgMatch, anyMrph, RegexpMrph.isAst, hD]
  have hpost : postMatch RegexpMrph.isAst (regexpmrphMatch emptyEnv) starNoun D 0 1 0 = true := by
    simp [postMatch, starNoun, seqMatch, starMatch, firstMatch]
  simp only [regexpmrphruleMatch, ruleMatch]
  rw [if_pos (by simp [preMatch, starNoun, seqMatch, starMatch, firstMatch]),
    ruleLoop_some Nat.one_pos hself, hpost]
  rfl

theorem twoMrphs_one (D : Int → MrphData Unit) (x : Int) (bw : Nat) :
    regexpmrphruleMatch emptyEnv twoMrphs D x bw 1 = -1 := by
  have hself : selfMatch RegexpMrph.isAst (regexpmrphMatch emptyEnv) twoMrphs D x 1 = none := by
    simp [selfMatch, twoMrphs, seqMatch]
  simp only [regexpmrphruleMatch, ruleMatch]
  rw [ruleLoop_none Nat.one_pos hself]
  split <;> rfl

theorem twoMrphs_two (D : Int → MrphData Unit) (x : Int) :
    regexpmrphruleMatch emptyEnv twoMrphs D x 1 2 = 2 := by
  have hself : selfMatch RegexpMrph.isAst (regexpmrphMatch emptyEnv) twoMrphs D x 2 = some 2 := by
    simp [selfMatch, twoMrphs, seqMatch]
  simp only [regexpmrphruleMatch, ruleMatch]
  rw [if_pos (by simp [preMatch, twoMrphs, seqMatch, starMatch, firstMatch]),
    ruleLoop_some Nat.two_pos hself]
  rfl

section Jumps

variable {rules : Nat → Rule (RegexpMrph Unit)} {hinshi n i : Nat} {direction : Direction}

/-- The turns of the outer loop with one of these rules. -/
def jumpTurn (rules : Nat → Rule (RegexpMrph Unit)) (hinshi n : Nat) (direction : Direction)
    (i : Nat) : Unit → Unit × Option Nat :=
  (mrphRules (jumpState hinshi) rules false).rulesAt .none direction 0 n i (List.range 1)

theorem jumpTurn_match {m : Nat} (h : (mrphRules (jumpState hinshi) rules false).matchLength
    direction 0 n 0 i () = m) : (jumpTurn rules hinshi n direction i ()).2 = some m := by
  have hne : (m : Int) ≠ -1 := by omega
  have hjump : ∀ t, breakFeature ((mrphRules (jumpState hinshi) rules false).ruleFeature 0 t) =
      .jump := fun _ => (by decide : breakFeature ["&break:jump"] = .jump)
  unfold jumpTurn
  rw [List.range_one, UnitRules.rulesAt]
  simp [h, hne, hjump]

theorem jumpTurn_none (h : (mrphRules (jumpState hinshi) rules false).matchLength
    direction 0 n 0 i () = -1) : (jumpTurn rules hinshi n direction i ()).2 = none := by
  simp [jumpTurn, UnitRules.rulesAt, h, List.range_succ]

end Jumps

/-- A rule with `名詞*` stays at a verb for ever; from the right, one with two morphemes leaves
out the first of three. -/
theorem rule_loops_fail :
    ¬AppliesRules .mrm .LtoR 0 1 (fun fuel => assignMrphFeature (jumpState 2)
      (fun _ => starNoun) 1 0 1 .mrm .none .LtoR false false fuel ()) ∧
    ¬AppliesRules .mrm .RtoL 0 3 (fun fuel => assignMrphFeature (jumpState 6)
      (fun _ => twoMrphs) 1 0 3 .mrm .none .RtoL false false fuel ()) := by
  constructor
  · rintro ⟨fuel, r, hr, -⟩
    have hstep : ∀ s, (jumpTurn (fun _ => starNoun) 2 1 .LtoR 0 s).2 = some 0 := fun _ =>
      jumpTurn_match (starNoun_zero _ fun _ => rfl)
    have hstuck : ¬MovesOn (jumpTurn (fun _ => starNoun) 2 1 .LtoR) 0 () :=
      fun ⟨k, hk⟩ => hk (hstep _)
    exact absurd (hr.symm.trans (walk_stuck Nat.one_pos hstuck fuel)) (Option.some_ne_none _)
  · rintro ⟨fuel, r, hr, hcov⟩
    have hfirst : (jumpTurn (fun _ => twoMrphs) 6 3 .RtoL 0 ()).2 = none :=
      jumpTurn_none (twoMrphs_one _ _ _)
    have hsecond : (jumpTurn (fun _ => twoMrphs) 6 3 .RtoL 1 ()).2 = some 2 :=
      jumpTurn_match (twoMrphs_two _ _)
    -- the turns are 0, 1 and the end
    have hreach : ∀ {j t}, JumpWalk.Reached (jumpTurn (fun _ => twoMrphs) 6 3 .RtoL) 3 1 () j t →
        j = 1 ∨ j = 3 := by
      intro j t h
      cases h with
      | refl => exact .inl rfl
      | head _ h =>
          rw [hsecond] at h
          cases h with
          | refl => exact .inr rfl
          | head hlt _ => exact absurd hlt (by decide)
    have hone : JumpWalk.Reached (jumpTurn (fun _ => twoMrphs) 6 3 .RtoL) 3 0 () 1 () :=
      .head (by decide) (by rw [hfirst]; exact .refl _ _)
    have hproceeds := walk_applies_iff.mp ⟨fuel, r, hr, hcov rfl⟩
    obtain ⟨i', t', m', hr', hlo, hlt, -⟩ :=
      hproceeds.reachesBack rfl 1 () 2 hone (by decide) hsecond (Nat.le_refl _)
    change JumpWalk.Reached (jumpTurn (fun _ => twoMrphs) 6 3 .RtoL) 3 0 () i' t' at hr'
    cases hr' with
    | refl => omega
    | head _ h =>
        rw [hfirst] at h
        rcases hreach h with rfl | rfl <;> omega

end Knp
