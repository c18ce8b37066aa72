import Knp.FirstFit
import Knp.RegexpRule

/-!
# Homographs (`read_data.c`)

Juman gives several morphemes for one place. `lexical_disambiguation` looks for a
rule of `mrph_homo.rule` whose elements are the homographs in any order, each of
them first fit, and prefers the homograph that takes the first element.

> Without such a rule the first homograph should stay. But the variable for the
> preferred one keeps what the last rule that was tried has put there before it
> failed.
-/

namespace Knp

def HOMO_MAX : Nat := 30

def HOMO_MRPH_MAX : Nat := 10

/-- The patterns of `HomoRule`. -/
structure HomoRule (ψ : Type*) where
  prePattern : Option (Arr (RegexpMrph ψ))
  pattern : Arr (RegexpMrph ψ)

/-- The variables of the loop over the homographs; `matched` is `matched_flag`. -/
structure HomoPass where
  flag : Bool
  prefMrph : Nat
  matched : Nat → Bool

/-- What is left in the variables behind the loop over the rules. -/
structure HomoChoice where
  flag : Bool
  prefMrph : Nat
  prefRule : Nat
deriving DecidableEq

section Disambiguation

variable {ψ φ : Type*} (env : MatchEnv ψ φ) (D : Int → MrphData φ) (mPtr homoNum : Nat)

namespace HomoRule

variable (r : HomoRule ψ)

/-- そこまでの形態素列をチェック -/
def preCheck : Bool :=
  match r.prePattern with
  | none => mPtr = 0
  | some p =>
      regexpmrphsMatch env p.mem (p.ptr + p.size - 1) p.size D (mPtr - 1) mPtr
        .bw .all .short ≠ -1

def elem (k : Nat) : RegexpMrph ψ := r.pattern.mem (r.pattern.ptr + k)

/-- An element that is used is passed over, unless it has a star. -/
def findElem (matched : Nat → Bool) (j : Nat) : Option Nat :=
  FirstFit.slot (fun k => (r.elem k).isAst) (fun k d => regexpmrphMatch env (r.elem k) d)
    r.pattern.size matched (D (mPtr + j : Nat))

/-- The homographs from `j` on, the first number is how many. -/
def homographs : Nat → Nat → HomoPass → HomoPass
  | 0, _, s => s
  | rest + 1, j, s =>
      match r.findElem env D mPtr s.matched j with
      | some k =>
          homographs rest (j + 1)
            ⟨true, if k = 0 then j else s.prefMrph, Function.update s.matched k true⟩
      | none => { s with flag := false }

/-- Each homograph has an element, and then each element a homograph. -/
def tryHomographs (flag : Bool) : Bool × Nat :=
  let s := r.homographs env D mPtr homoNum 0 ⟨flag, 0, fun _ => false⟩
  (s.flag && (List.range r.pattern.size).all s.matched, s.prefMrph)

end HomoRule

/-- The loop over the rules; a pattern that is too long ends the program. -/
def homoRules : List (HomoRule ψ) → Nat → HomoChoice → Option HomoChoice
  | [], _, s => some s
  | r :: rs, i, s =>
      if HOMO_MRPH_MAX < r.pattern.size then none
      else if !r.preCheck env D mPtr then homoRules rs (i + 1) s
      else
        let found := r.tryHomographs env D mPtr homoNum s.flag
        if found.1 then some ⟨true, found.2, i⟩
        else homoRules rs (i + 1) ⟨false, found.2, s.prefRule⟩

/-- The choice of `lexical_disambiguation`. A single morpheme is left as it is. -/
def lexicalDisambiguation (rules : List (HomoRule ψ)) : Option HomoChoice :=
  -- 処理する最大数を越えていれば、最大数個だけチェックする
  let homoNum := min homoNum HOMO_MAX
  if homoNum ≤ 1 then some ⟨false, 0, 0⟩
  else homoRules env D mPtr homoNum rules 0 ⟨false, 0, 0⟩

/-! ## The choice as the rules have it -/

namespace HomoRule

variable (r : HomoRule ψ)

/-- The first `m` homographs take the elements `σ`, first fit. -/
def Takes (m : Nat) (σ : Nat → Nat) : Prop :=
  FirstFit.Takes (fun k => (r.elem k).isAst) (fun k d => regexpmrphMatch env (r.elem k) d)
    r.pattern.size (fun j => D (mPtr + j : Nat)) m σ

/-- The pre pattern matches everything on the left. -/
def Preceded : Prop :=
  PreOk RegexpMrph.isAst (regexpmrphMatch env) ⟨r.prePattern, none, none⟩ D mPtr mPtr

/-- The homographs take the elements `σ`, and all elements are used. -/
structure Applies (σ : Nat → Nat) : Prop where
  preceded : r.Preceded env D mPtr
  takes : r.Takes env D mPtr homoNum σ
  all : ∀ k < r.pattern.size, ∃ j < homoNum, σ j = k

end HomoRule

def NoneApplies (rules : List (HomoRule ψ)) : Prop :=
  ∀ r ∈ rules, ∀ σ, ¬r.Applies env D mPtr homoNum σ

/-- 形態素列の先頭にマッチする形態素が選ばれる, without a rule the first one. -/
inductive SelectsHomograph (rules : List (HomoRule ψ)) (sel : Nat) : Prop
  | applied {before after : List (HomoRule ψ)} {r : HomoRule ψ} {σ : Nat → Nat}
      (split : rules = before ++ r :: after) (none : NoneApplies env D mPtr homoNum before)
      (applies : r.Applies env D mPtr homoNum σ) (lt : sel < homoNum) (first : σ sel = 0)
  | unapplied (none : NoneApplies env D mPtr homoNum rules) (first : sel = 0)

/-- No rule that is looked at is too long, and if none applies, then in the last
one whose pre pattern matches no homograph but the first takes the first element. -/
structure LeavesFirst (rules : List (HomoRule ψ)) : Prop where
  size : ∀ before r after, rules = before ++ r :: after →
    NoneApplies env D mPtr homoNum before → r.pattern.size ≤ HOMO_MRPH_MAX
  last : NoneApplies env D mPtr homoNum rules → ∀ before r after, rules = before ++ r :: after →
    r.Preceded env D mPtr → (∀ r' ∈ after, ¬r'.Preceded env D mPtr) →
    ∀ m ≤ homoNum, ∀ σ, r.Takes env D mPtr m σ → ∀ j < m, σ j = 0 → j = 0

end Disambiguation

/-! ## One rule -/

section Rule

variable {ψ φ : Type*} {env : MatchEnv ψ φ} {D : Int → MrphData φ} {mPtr homoNum : Nat}
  {r : HomoRule ψ} {flag : Bool}

theorem preCheck_iff : r.preCheck env D mPtr = true ↔ r.Preceded env D mPtr := by
  have hpre : r.preCheck env D mPtr = preMatch RegexpMrph.isAst (regexpmrphMatch env)
      ⟨r.prePattern, none, none⟩ D mPtr mPtr := by
    unfold HomoRule.preCheck preMatch
    cases r.prePattern <;> rfl
  rw [hpre]
  exact preMatch_iff ..

/-- How the loop over the homographs ends: `m` of them have an element, and
`prefMrph` is the last one that has the first element. -/
structure Ends (r : HomoRule ψ) (env : MatchEnv ψ φ) (D : Int → MrphData φ) (mPtr homoNum m : Nat)
    (σ : Nat → Nat) (s : HomoPass) : Prop where
  le : m ≤ homoNum
  takes : r.Takes env D mPtr m σ
  marks : FirstFit.Marks s.matched m σ
  stuck : m < homoNum → ∀ τ, ¬r.Takes env D mPtr (m + 1) τ
  flag_iff : s.flag = true ↔ m = homoNum
  pref_le : ∀ j < m, σ j = 0 → j ≤ s.prefMrph
  pref_zero : s.prefMrph = 0 ∨ s.prefMrph < m ∧ σ s.prefMrph = 0

theorem homographs_ends {rest j : Nat} {s : HomoPass} {σ : Nat → Nat} (hsum : j + rest = homoNum)
    (htakes : r.Takes env D mPtr j σ) (hmarks : FirstFit.Marks s.matched j σ)
    (hflag : rest = 0 → s.flag = true) (hle : ∀ i < j, σ i = 0 → i ≤ s.prefMrph)
    (hzero : s.prefMrph = 0 ∨ s.prefMrph < j ∧ σ s.prefMrph = 0) :
    ∃ m τ, Ends r env D mPtr homoNum m τ (r.homographs env D mPtr rest j s) := by
  induction rest generalizing j s σ with
  | zero =>
      refine ⟨j, σ, by omega, htakes, hmarks, ?_, ?_, hle, hzero⟩
      · intro hlt
        omega
      · exact iff_of_true (hflag rfl) (by omega)
  | succ rest ih =>
      rw [HomoRule.homographs]
      cases hfind : r.findElem env D mPtr s.matched j with
      | none =>
          refine ⟨j, σ, by omega, htakes, hmarks, ?_, ?_, hle, hzero⟩
          · intro _ τ
            exact htakes.stuck hmarks hfind
          · exact iff_of_false Bool.false_ne_true (by omega)
      | some k =>
          have hold : ∀ i < j, Function.update σ j k i = σ i := by
            intro i hi
            exact Function.update_of_ne (by omega) _ _
          refine ih (by omega) (htakes.extend hmarks hfind) hmarks.extend (fun _ => rfl) ?_ ?_
          · intro i hi heq
            dsimp only
            rcases Nat.lt_succ_iff_lt_or_eq.mp hi with hlt | rfl
            · rw [hold i hlt] at heq
              have hi' := hle i hlt heq
              split <;> omega
            · rw [Function.update_self] at heq
              rw [if_pos heq]
          · dsimp only
            split
            next hk => exact Or.inr ⟨by omega, by rw [Function.update_self, hk]⟩
            next hk =>
              refine hzero.imp_right ?_
              rintro ⟨hlt, heq⟩
              rw [hold _ hlt]
              exact ⟨by omega, heq⟩

/-- No run has more homographs. -/
theorem Ends.le_of_takes {m n : Nat} {σ τ : Nat → Nat} {s : HomoPass}
    (h : Ends r env D mPtr homoNum m σ s) (htakes : r.Takes env D mPtr n τ) (hn : n ≤ homoNum) :
    n ≤ m := by
  by_contra hlt
  exact h.stuck (by omega) τ (htakes.mono (by omega))

variable (hpos : 0 < homoNum)
include hpos

theorem homographs_from_zero (flag : Bool) :
    ∃ m σ, Ends r env D mPtr homoNum m σ
      (r.homographs env D mPtr homoNum 0 ⟨flag, 0, fun _ => false⟩) := by
  refine homographs_ends (σ := fun _ => 0) (by omega) FirstFit.Takes.zero FirstFit.Marks.zero ?_ ?_
    (Or.inl rfl)
  · intro hzero
    omega
  · intro i hi
    omega

/-- The rule applies, its pre pattern apart. -/
theorem tryHomographs_fst_iff : (r.tryHomographs env D mPtr homoNum flag).1 = true ↔
    ∃ σ, r.Takes env D mPtr homoNum σ ∧ ∀ k < r.pattern.size, ∃ j < homoNum, σ j = k := by
  obtain ⟨m, σ, h⟩ := @homographs_from_zero ψ φ env D mPtr homoNum r hpos flag
  unfold HomoRule.tryHomographs
  dsimp only
  rw [Bool.and_eq_true, List.all_eq_true, h.flag_iff]
  constructor
  · rintro ⟨rfl, hall⟩
    refine ⟨σ, h.takes, ?_⟩
    intro k hk
    exact (h.marks k).mp (hall k (List.mem_range.mpr hk))
  · rintro ⟨τ, htakes, hall⟩
    have hm : m = homoNum := Nat.le_antisymm h.le (h.le_of_takes htakes (Nat.le_refl _))
    refine ⟨hm, ?_⟩
    intro k hk
    obtain ⟨j, hj, heq⟩ := hall k (List.mem_range.mp hk)
    refine (h.marks k).mpr ⟨j, by omega, ?_⟩
    rw [(h.takes.mono hm.ge).unique htakes j hj, heq]

/-- If it does, a homograph that takes the first element is preferred. -/
theorem tryHomographs_snd_of_takes {τ : Nat → Nat} (htakes : r.Takes env D mPtr homoNum τ)
    (hall : ∀ k < r.pattern.size, ∃ j < homoNum, τ j = k) :
    (r.tryHomographs env D mPtr homoNum flag).2 < homoNum ∧
      τ (r.tryHomographs env D mPtr homoNum flag).2 = 0 := by
  obtain ⟨m, σ, h⟩ := @homographs_from_zero ψ φ env D mPtr homoNum r hpos flag
  have hm : m = homoNum := Nat.le_antisymm h.le (h.le_of_takes htakes (Nat.le_refl _))
  have hsame := (h.takes.mono hm.ge).unique htakes
  have hsize := htakes.lt 0 hpos
  obtain ⟨j, hj, heq⟩ := hall 0 (by omega)
  have hle := h.pref_le j (by omega) ((hsame j hj).trans heq)
  unfold HomoRule.tryHomographs
  dsimp only
  rcases h.pref_zero with hzero | ⟨hlt, hfirst⟩
  · rw [hzero]
    refine ⟨hpos, ?_⟩
    rw [show 0 = j by omega]
    exact heq.trans (by omega)
  · exact ⟨by omega, (hsame _ (by omega)).symm.trans hfirst⟩

/-- What is left in the variable when the rule fails. -/
theorem tryHomographs_snd_eq_zero_iff : (r.tryHomographs env D mPtr homoNum flag).2 = 0 ↔
    ∀ m ≤ homoNum, ∀ σ, r.Takes env D mPtr m σ → ∀ j < m, σ j = 0 → j = 0 := by
  obtain ⟨m, σ, h⟩ := @homographs_from_zero ψ φ env D mPtr homoNum r hpos flag
  unfold HomoRule.tryHomographs
  dsimp only
  constructor
  · intro hzero n hn τ htakes j hj heq
    have hle := h.le_of_takes htakes hn
    have hsame := (h.takes.mono hle).unique htakes j hj
    have hpref := h.pref_le j (by omega) (hsame.trans heq)
    omega
  · intro hfirst
    rcases h.pref_zero with hzero | ⟨hlt, heq⟩
    · exact hzero
    · exact hfirst m h.le σ h.takes _ hlt heq

theorem applies_iff : (∃ σ, r.Applies env D mPtr homoNum σ) ↔
    r.preCheck env D mPtr = true ∧ (r.tryHomographs env D mPtr homoNum flag).1 = true := by
  rw [preCheck_iff, tryHomographs_fst_iff hpos]
  constructor
  · rintro ⟨σ, hpre, htakes, hall⟩
    exact ⟨hpre, σ, htakes, hall⟩
  · rintro ⟨hpre, σ, htakes, hall⟩
    exact ⟨σ, hpre, htakes, hall⟩

end Rule

/-! ## The rules one after the other -/

section Rules

variable {ψ φ : Type*} {env : MatchEnv ψ φ} {D : Int → MrphData φ} {mPtr homoNum : Nat}
  {r : HomoRule ψ} {rules before after : List (HomoRule ψ)} {i : Nat} {s : HomoChoice}

/-- The variable for the preferred homograph after rules that do not apply. -/
def leftover (env : MatchEnv ψ φ) (D : Int → MrphData φ) (mPtr homoNum : Nat) :
    List (HomoRule ψ) → Nat → Nat
  | [], pref => pref
  | r :: rs, pref =>
      leftover env D mPtr homoNum rs
        (if r.preCheck env D mPtr then (r.tryHomographs env D mPtr homoNum false).2 else pref)

theorem NoneApplies.head (h : NoneApplies env D mPtr homoNum (r :: rules)) (hpos : 0 < homoNum)
    (hpre : r.preCheck env D mPtr = true) :
    (r.tryHomographs env D mPtr homoNum false).1 = false := by
  rw [← Bool.not_eq_true]
  intro hfound
  obtain ⟨σ, happlies⟩ : ∃ σ, r.Applies env D mPtr homoNum σ :=
    (applies_iff hpos).mpr ⟨hpre, hfound⟩
  exact h r List.mem_cons_self σ happlies

theorem NoneApplies.tail (h : NoneApplies env D mPtr homoNum (r :: rules)) :
    NoneApplies env D mPtr homoNum rules := by
  intro r' hr'
  exact h r' (List.mem_cons_of_mem r hr')

/-- Rules that do not apply are passed over. -/
theorem homoRules_append (hpos : 0 < homoNum) (hnone : NoneApplies env D mPtr homoNum before)
    (hsize : ∀ r ∈ before, r.pattern.size ≤ HOMO_MRPH_MAX) (hflag : s.flag = false) :
    homoRules env D mPtr homoNum (before ++ after) i s =
      homoRules env D mPtr homoNum after (i + before.length)
        ⟨false, leftover env D mPtr homoNum before s.prefMrph, s.prefRule⟩ := by
  induction before generalizing i s with
  | nil =>
      obtain ⟨flag, prefMrph, prefRule⟩ := s
      obtain rfl : flag = false := hflag
      rfl
  | cons r rs ih =>
      have hle := hsize r List.mem_cons_self
      have hsize' : ∀ r' ∈ rs, r'.pattern.size ≤ HOMO_MRPH_MAX := by
        intro r' hr'
        exact hsize r' (List.mem_cons_of_mem r hr')
      rw [List.cons_append, homoRules, if_neg (by omega), leftover, List.length_cons,
        show i + (rs.length + 1) = i + 1 + rs.length by omega]
      cases hpre : r.preCheck env D mPtr with
      | false => exact ih hnone.tail hsize' hflag
      | true =>
          rw [if_neg (by decide)]
          dsimp only
          rw [hflag, hnone.head hpos hpre, if_neg Bool.false_ne_true, if_pos rfl]
          exact ih hnone.tail hsize' rfl

/-- A rule that is too long ends the program if it is reached. -/
theorem homoRules_of_tooLong (hpos : 0 < homoNum) (hnone : NoneApplies env D mPtr homoNum before)
    (hlong : HOMO_MRPH_MAX < r.pattern.size) (hflag : s.flag = false) :
    homoRules env D mPtr homoNum (before ++ r :: after) i s = none := by
  induction before generalizing i s with
  | nil =>
      rw [List.nil_append, homoRules, if_pos hlong]
  | cons r' rs ih =>
      rw [List.cons_append, homoRules]
      split
      · rfl
      · cases hpre : r'.preCheck env D mPtr with
        | false => exact ih hnone.tail hflag
        | true =>
            rw [if_neg (by decide)]
            dsimp only
            rw [hflag, hnone.head hpos hpre, if_neg Bool.false_ne_true]
            exact ih hnone.tail rfl

/-- There is a first rule that applies, or none does. -/
theorem exists_first_applies (rules : List (HomoRule ψ)) :
    (∃ before r after σ, rules = before ++ r :: after ∧ NoneApplies env D mPtr homoNum before ∧
      r.Applies env D mPtr homoNum σ) ∨ NoneApplies env D mPtr homoNum rules := by
  induction rules with
  | nil =>
      refine Or.inr ?_
      intro r hr
      exact absurd hr List.not_mem_nil
  | cons r rs ih =>
      by_cases happlies : ∃ σ, r.Applies env D mPtr homoNum σ
      · obtain ⟨σ, hσ⟩ := happlies
        refine Or.inl ⟨[], r, rs, σ, rfl, ?_, hσ⟩
        intro r' hr'
        exact absurd hr' List.not_mem_nil
      · have hcons : ∀ l : List (HomoRule ψ), NoneApplies env D mPtr homoNum l →
            NoneApplies env D mPtr homoNum (r :: l) := by
          intro l hl r' hr' σ hσ
          rcases List.mem_cons.mp hr' with rfl | hmem
          · exact happlies ⟨σ, hσ⟩
          · exact hl r' hmem σ hσ
        rcases ih with ⟨before, r', after, σ, heq, hnone, hσ⟩ | hnone
        · refine Or.inl ⟨r :: before, r', after, σ, ?_, hcons before hnone, hσ⟩
          rw [heq]
          rfl
        · exact Or.inr (hcons rs hnone)

/-- There is a last rule whose pre pattern matches, or none matches. -/
theorem exists_last_preceded (rules : List (HomoRule ψ)) :
    (∃ before r after, rules = before ++ r :: after ∧ r.Preceded env D mPtr ∧
      ∀ r' ∈ after, ¬r'.Preceded env D mPtr) ∨ ∀ r ∈ rules, ¬r.Preceded env D mPtr := by
  induction rules with
  | nil =>
      refine Or.inr ?_
      intro r hr
      exact absurd hr List.not_mem_nil
  | cons r rs ih =>
      rcases ih with ⟨before, r', after, heq, hpre, hafter⟩ | hafter
      · refine Or.inl ⟨r :: before, r', after, ?_, hpre, hafter⟩
        rw [heq]
        rfl
      · by_cases hpre : r.Preceded env D mPtr
        · exact Or.inl ⟨[], r, rs, rfl, hpre, hafter⟩
        · refine Or.inr ?_
          intro r' hr'
          rcases List.mem_cons.mp hr' with rfl | hmem
          · exact hpre
          · exact hafter r' hmem

/-- Rules whose pre pattern does not match leave the variable. -/
theorem leftover_of_not_preceded {pref : Nat} (h : ∀ r ∈ rules, ¬r.Preceded env D mPtr) :
    leftover env D mPtr homoNum rules pref = pref := by
  induction rules with
  | nil => rfl
  | cons r rs ih =>
      have hpre : ¬r.preCheck env D mPtr = true := by
        rw [preCheck_iff]
        exact h r List.mem_cons_self
      rw [leftover, if_neg hpre]
      apply ih
      intro r' hr'
      exact h r' (List.mem_cons_of_mem r hr')

/-- The last rule whose pre pattern matches decides what is left over. -/
theorem leftover_append {pref : Nat} (hpre : r.Preceded env D mPtr)
    (hafter : ∀ r' ∈ after, ¬r'.Preceded env D mPtr) :
    leftover env D mPtr homoNum (before ++ r :: after) pref =
      (r.tryHomographs env D mPtr homoNum false).2 := by
  induction before generalizing pref with
  | nil =>
      rw [List.nil_append, leftover, if_pos (preCheck_iff.mpr hpre),
        leftover_of_not_preceded hafter]
  | cons r' rs ih =>
      rw [List.cons_append, leftover]
      exact ih

theorem leftover_eq_zero_iff (hpos : 0 < homoNum) :
    leftover env D mPtr homoNum rules 0 = 0 ↔
      ∀ before r after, rules = before ++ r :: after → r.Preceded env D mPtr →
        (∀ r' ∈ after, ¬r'.Preceded env D mPtr) →
        ∀ m ≤ homoNum, ∀ σ, r.Takes env D mPtr m σ → ∀ j < m, σ j = 0 → j = 0 := by
  constructor
  · rintro hzero before r after rfl hpre hafter
    rw [leftover_append hpre hafter] at hzero
    exact (tryHomographs_snd_eq_zero_iff hpos).mp hzero
  · intro hlast
    rcases @exists_last_preceded ψ φ env D mPtr rules with
      ⟨before, r, after, heq, hpre, hafter⟩ | hno
    · rw [heq, leftover_append hpre hafter]
      exact (tryHomographs_snd_eq_zero_iff hpos).mpr (hlast before r after heq hpre hafter)
    · exact leftover_of_not_preceded hno

/-- The rules before one that does not come after a rule that applies are short. -/
theorem size_le_of_mem
    (hsize : ∀ before r after, rules = before ++ r :: after →
      NoneApplies env D mPtr homoNum before → r.pattern.size ≤ HOMO_MRPH_MAX)
    (hsplit : rules = before ++ after) (hnone : NoneApplies env D mPtr homoNum before) :
    ∀ r ∈ before, r.pattern.size ≤ HOMO_MRPH_MAX := by
  intro r hr
  obtain ⟨front, back, rfl⟩ := List.append_of_mem hr
  refine hsize front r (back ++ after) ?_ ?_
  · rw [hsplit, List.append_assoc, List.cons_append]
  · intro r' hr'
    exact hnone r' (List.mem_append_left _ hr')

/-- Two or more homographs. -/
theorem homoRules_selects_iff (hpos : 0 < homoNum) :
    (∃ c, homoRules env D mPtr homoNum rules 0 ⟨false, 0, 0⟩ = some c ∧
      SelectsHomograph env D mPtr homoNum rules c.prefMrph) ↔
      LeavesFirst env D mPtr homoNum rules := by
  have hrun : NoneApplies env D mPtr homoNum rules →
      (∀ r ∈ rules, r.pattern.size ≤ HOMO_MRPH_MAX) →
      homoRules env D mPtr homoNum rules 0 ⟨false, 0, 0⟩ =
        some ⟨false, leftover env D mPtr homoNum rules 0, 0⟩ := by
    intro hnone hsize
    have happend : homoRules env D mPtr homoNum (rules ++ []) 0 ⟨false, 0, 0⟩ =
        homoRules env D mPtr homoNum [] (0 + rules.length)
          ⟨false, leftover env D mPtr homoNum rules 0, 0⟩ := homoRules_append hpos hnone hsize rfl
    rwa [List.append_nil, homoRules] at happend
  constructor
  · rintro ⟨c, hc, hsel⟩
    have hsize : ∀ before r after, rules = before ++ r :: after →
        NoneApplies env D mPtr homoNum before → r.pattern.size ≤ HOMO_MRPH_MAX := by
      rintro before r after rfl hnone
      by_contra hlong
      rw [homoRules_of_tooLong hpos hnone (by omega) rfl] at hc
      exact Option.some_ne_none c hc.symm
    refine ⟨hsize, ?_⟩
    intro hnone
    have hrun' := hrun hnone (size_le_of_mem hsize (List.append_nil rules).symm hnone)
    have hpref : c.prefMrph = leftover env D mPtr homoNum rules 0 := by
      rw [hc] at hrun'
      rw [Option.some.inj hrun']
    cases hsel with
    | applied hsplit _ happlies _ _ =>
        refine absurd happlies (hnone _ ?_ _)
        rw [hsplit]
        exact List.mem_append_right _ List.mem_cons_self
    | unapplied _ hfirst => exact (leftover_eq_zero_iff hpos).mp (hpref.symm.trans hfirst)
  · rintro ⟨hsize, hlast⟩
    rcases @exists_first_applies ψ φ env D mPtr homoNum rules with
      ⟨before, r, after, σ, heq, hnone, happlies⟩ | hnone
    · have hrun' : homoRules env D mPtr homoNum (before ++ r :: after) 0 ⟨false, 0, 0⟩ =
          homoRules env D mPtr homoNum (r :: after) (0 + before.length)
            ⟨false, leftover env D mPtr homoNum before 0, 0⟩ :=
        homoRules_append hpos hnone (size_le_of_mem hsize heq hnone) rfl
      have hle := hsize before r after heq hnone
      obtain ⟨hpre, hfound⟩ : r.preCheck env D mPtr = true ∧
          (r.tryHomographs env D mPtr homoNum false).1 = true :=
        (applies_iff hpos).mp ⟨σ, happlies⟩
      have hpref : (r.tryHomographs env D mPtr homoNum false).2 < homoNum ∧
          σ (r.tryHomographs env D mPtr homoNum false).2 = 0 :=
        tryHomographs_snd_of_takes hpos happlies.takes happlies.all
      refine ⟨⟨true, (r.tryHomographs env D mPtr homoNum false).2, 0 + before.length⟩, ?_,
        .applied heq hnone happlies hpref.1 hpref.2⟩
      rw [heq, hrun', homoRules, if_neg (by omega), hpre, if_neg (by decide)]
      dsimp only
      rw [hfound, if_pos rfl]
    · exact ⟨_, hrun hnone (size_le_of_mem hsize (List.append_nil rules).symm hnone),
        .unapplied hnone ((leftover_eq_zero_iff hpos).mpr (hlast hnone))⟩

/-- A single morpheme is the first one, and what takes the first element if a rule applies. -/
theorem selectsHomograph_one : SelectsHomograph env D mPtr 1 rules 0 := by
  rcases @exists_first_applies ψ φ env D mPtr 1 rules with
    ⟨before, r, after, σ, heq, hnone, happlies⟩ | hnone
  · have hsize := happlies.takes.lt 0 Nat.one_pos
    obtain ⟨j, hj, hzero⟩ := happlies.all 0 (by omega)
    obtain rfl : j = 0 := by omega
    exact .applied heq hnone happlies Nat.one_pos hzero
  · exact .unapplied hnone rfl

/-- `lexical_disambiguation` selects as the rules say just if there is nothing to
select or what is left over is the first homograph. -/
theorem lexicalDisambiguation_iff (hpos : 0 < homoNum) (hmax : homoNum ≤ HOMO_MAX) :
    (∃ c, lexicalDisambiguation env D mPtr homoNum rules = some c ∧
      SelectsHomograph env D mPtr homoNum rules c.prefMrph) ↔
      homoNum = 1 ∨ LeavesFirst env D mPtr homoNum rules := by
  unfold lexicalDisambiguation
  dsimp only
  rw [Nat.min_eq_left hmax]
  rcases Nat.lt_or_ge 1 homoNum with hlt | hge
  · rw [if_neg (by omega), homoRules_selects_iff hpos]
    constructor
    · exact Or.inr
    · rintro (hone | hleaves)
      · omega
      · exact hleaves
  · obtain rfl : homoNum = 1 := by omega
    rw [if_pos le_rfl]
    exact iff_of_true ⟨_, rfl, selectsHomograph_one⟩ (Or.inl rfl)

end Rules

/-- `[hinshi bunrui]` -/
def classMrph (hinshi : Nat) (bunrui : List Nat) : RegexpMrph Unit :=
  { anyMrph .mat with typeFlag := .mat, hinshi := [hinshi], bunrui := bunrui }

/-- `( ( ?* ) ( [助詞 接続助詞] [助詞 格助詞] [助動詞] ) )` -/
def particleRule : HomoRule Unit where
  prePattern := some ⟨fun _ => anyMrph .ast, 0, 1⟩
  pattern := ⟨fun k => if k = 0 then classMrph 9 [3] else if k = 1 then classMrph 9 [1]
    else classMrph 5 [], 0, 3⟩

/-- 格助詞, 接続助詞, 名詞 -/
def particles (i : Int) : MrphData Unit :=
  if i = 0 then ⟨9, 1, 0, 0, "の", ()⟩ else if i = 1 then ⟨9, 3, 0, 0, "の", ()⟩
  else ⟨6, 1, 0, 0, "の", ()⟩

theorem particles_iff :
    (∃ c, lexicalDisambiguation emptyEnv particles 0 3 [particleRule] = some c ∧
      SelectsHomograph emptyEnv particles 0 3 [particleRule] c.prefMrph) ↔
      3 = 1 ∨ LeavesFirst emptyEnv particles 0 3 [particleRule] :=
  lexicalDisambiguation_iff (by decide) (by decide)

/-- The noun fits no element, and the second homograph stays preferred. -/
theorem particles_selected :
    lexicalDisambiguation emptyEnv particles 0 3 [particleRule] = some ⟨false, 1, 0⟩ ∧
      ¬∃ c, lexicalDisambiguation emptyEnv particles 0 3 [particleRule] = some c ∧
        SelectsHomograph emptyEnv particles 0 3 [particleRule] c.prefMrph := by
  have hpre : particleRule.preCheck emptyEnv particles 0 = true := by
    simp [HomoRule.preCheck, particleRule, regexpmrphsMatch, seqMatch, starMatch,
      firstMatch]
  have htry : particleRule.tryHomographs emptyEnv particles 0 3 false = (false, 1) := rfl
  have hrun : lexicalDisambiguation emptyEnv particles 0 3 [particleRule] = some ⟨false, 1, 0⟩ := by
    change homoRules emptyEnv particles 0 3 [particleRule] 0 ⟨false, 0, 0⟩ = _
    rw [homoRules, if_neg (by decide), hpre, if_neg (by decide), htry]
    rfl
  refine ⟨hrun, ?_⟩
  rintro ⟨c, hc, hsel⟩
  obtain rfl : (⟨false, 1, 0⟩ : HomoChoice) = c := Option.some.inj (hrun.symm.trans hc)
  cases hsel with
  | unapplied _ hfirst => exact Nat.one_ne_zero hfirst
  | @applied before after r σ hsplit _ happlies _ _ =>
      obtain rfl : r = particleRule := by
        have hmem : r ∈ [particleRule] := by
          rw [hsplit]
          exact List.mem_append_right _ List.mem_cons_self
        exact List.mem_singleton.mp hmem
      have hlt : σ 2 < 3 := happlies.takes.lt 2 (by decide)
      have hfit : regexpmrphMatch emptyEnv (particleRule.elem (σ 2)) (particles 2) = true :=
        happlies.takes.fit 2 (by decide)
      have hnone : ∀ k < 3,
          regexpmrphMatch emptyEnv (particleRule.elem k) (particles 2) = false := by decide
      rw [hnone (σ 2) hlt] at hfit
      exact Bool.false_ne_true hfit

end Knp
