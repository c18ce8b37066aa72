import Mathlib.Algebra.BigOperators.Group.List.Lemmas
import Mathlib.Order.Bounds.Basic
import Knp.Thesaurus

/-!
# The most similar codes (`thesaurus.c`)

`get_most_similar_code` goes through all pairs of codes of two strings with a running
maximum: a better pair empties the result, an equal one appends its code of the first
string, unless that code was the last one written.

> The result is the codes of the first string that attain the maximum over all pairs, in
> their order.

`ret_sm` has room for the whole first string and is a list of characters here.
-/

namespace Knp

/-- `score`, `ret_sm`, and `pre_i`, `none` for -1. -/
structure MostSimilar where
  score : ℚ
  retSm : List UInt8
  preI : Option Nat

/-- One pair, whose code of the first string stands at `i`. -/
def MostSimilar.step (st : MostSimilar) (i : Nat) (code : List UInt8) (tempscore : ℚ) :
    MostSimilar :=
  if st.score < tempscore then ⟨tempscore, code, some i⟩
  -- 重複を避けるため直前のiとは違うときのみ
  else if tempscore = st.score ∧ st.preI ≠ some i then
    { st with retSm := st.retSm ++ code, preI := some i }
  else st

/-- The loops, from the code at `i` on. -/
def mostSimilarFrom (env : ThesaurusEnv) (th : ThesaurusUsed) (exp : List (List UInt8)) :
    Nat → List (List UInt8) → MostSimilar → Option MostSimilar
  | _, [], st => some st
  | i, d :: ds, st =>
      (exp.foldlM (fun st p => (codeMatch env .noExpandNe p d th).map (st.step i d)) st).bind
        (mostSimilarFrom env th exp (i + env.codeSize th) ds)

/-- `get_most_similar_code`; the inner `none` is `NULL`. -/
def getMostSimilarCode (env : ThesaurusEnv) (exd exp : List UInt8) :
    Option (Option (List UInt8)) :=
  if exd = [] ∨ exp = [] then some none
  else match env.thesaurus with
    | none => some none
    | some th => do
        let ds ← codesIn (env.codeSize th) exd.length exd
        let ps ← codesIn (env.codeSize th) exp.length exp
        let st ← mostSimilarFrom env th ps 0 ds ⟨0, [], none⟩
        return some st.retSm

/-- `code` has the similarity `m` with a code of `exp`. -/
def Attains (env : ThesaurusEnv) (th : ThesaurusUsed) (exp : List (List UInt8)) (m : ℚ)
    (code : List UInt8) : Prop :=
  ∃ p ∈ exp, codeMatch env .noExpandNe p code th = some m

instance {env : ThesaurusEnv} {th : ThesaurusUsed} {exp : List (List UInt8)} {m : ℚ} :
    DecidablePred (Attains env th exp m) := fun code =>
  inferInstanceAs (Decidable (∃ p ∈ exp, codeMatch env .noExpandNe p code th = some m))

section MostSimilar

variable {env : ThesaurusEnv} {th : ThesaurusUsed} {exp done ds : List (List UInt8)}
  {code p : List UInt8} {st st' : MostSimilar} {i : Nat} {m v : ℚ}

theorem length_le_length_flatten {codeSize : Nat} {codes : List (List UInt8)} (hpos : 0 < codeSize)
    (hlen : ∀ c ∈ codes, c.length = codeSize) : codes.length ≤ codes.flatten.length := by
  rw [List.length_flatten, List.sum_eq_card_nsmul _ codeSize (by simpa using hlen),
    List.length_map]
  exact Nat.le_mul_of_pos_right _ hpos

theorem codeMatch_noExpand (env : ThesaurusEnv) (th : ThesaurusUsed) (p code : List UInt8) :
    ∃ v, codeMatch env .noExpandNe p code th = some v ∧ 0 ≤ v := by
  cases th with
  | bgh => exact ⟨_, rfl, Nat.cast_nonneg _⟩
  | ntt => exact ⟨_, rfl, (nttCodeMatchOne_le env p code).1⟩
  | other => exact ⟨_, rfl, generalCodeMatch_nonneg _⟩

/-- No code of `exp` has a similarity above `m` with `code`. -/
def Below (env : ThesaurusEnv) (th : ThesaurusUsed) (exp : List (List UInt8)) (m : ℚ)
    (code : List UInt8) : Prop :=
  ∀ p ∈ exp, ∀ v, codeMatch env .noExpandNe p code th = some v → v ≤ m

/-- What the pairs of one code do to the state before them. -/
inductive RowResult (env : ThesaurusEnv) (th : ThesaurusUsed) (exp : List (List UInt8)) (i : Nat)
    (code : List UInt8) (st : MostSimilar) : MostSimilar → Prop
  | worse (h : ∀ p ∈ exp, ∀ v, codeMatch env .noExpandNe p code th = some v → v < st.score) :
      RowResult env th exp i code st st
  | equal (h : Attains env th exp st.score code) (hle : Below env th exp st.score code) :
      RowResult env th exp i code st ⟨st.score, st.retSm ++ code, some i⟩
  | better {m : ℚ} (hlt : st.score < m) (h : Attains env th exp m code)
      (hle : Below env th exp m code) : RowResult env th exp i code st ⟨m, code, some i⟩

theorem Attains.snoc (h : Attains env th exp m code) : Attains env th (exp ++ [p]) m code := by
  obtain ⟨q, hq, hv⟩ := h
  exact ⟨q, List.mem_append_left _ hq, hv⟩

theorem Attains.last (hv : codeMatch env .noExpandNe p code th = some v) :
    Attains env th (exp ++ [p]) v code :=
  ⟨p, List.mem_append_right _ List.mem_cons_self, hv⟩

theorem Below.snoc (h : Below env th exp m code) (hv : codeMatch env .noExpandNe p code th = some v)
    (hle : v ≤ m) : Below env th (exp ++ [p]) m code := by
  intro q hq w hw
  rcases List.mem_append.mp hq with hq | hq
  · exact h q hq w hw
  · obtain rfl := List.mem_singleton.mp hq
    rw [hv] at hw
    exact Option.some.inj hw ▸ hle

theorem Below.mono {m' : ℚ} (h : Below env th exp m code) (hle : m ≤ m') :
    Below env th exp m' code :=
  fun q hq w hw => (h q hq w hw).trans hle

/-- One more pair of the same code. -/
theorem RowResult.step (h : RowResult env th exp i code st st') (hpre : st.preI ≠ some i)
    (hv : codeMatch env .noExpandNe p code th = some v) :
    RowResult env th (exp ++ [p]) i code st (st'.step i code v) := by
  cases h with
  | worse h =>
      have hbelow : Below env th exp st.score code := fun q hq w hw => (h q hq w hw).le
      unfold MostSimilar.step
      split_ifs with hlt heq
      · exact .better hlt (.last hv) ((hbelow.mono hlt.le).snoc hv le_rfl)
      · exact .equal (heq.1 ▸ .last hv) (hbelow.snoc hv heq.1.le)
      · refine .worse fun q hq w hw => ?_
        rcases List.mem_append.mp hq with hq | hq
        · exact h q hq w hw
        · obtain rfl := List.mem_singleton.mp hq
          obtain rfl := Option.some.inj (hv.symm.trans hw)
          exact lt_of_le_of_ne (not_lt.mp hlt) fun he => heq ⟨he, hpre⟩
  | equal h hle =>
      unfold MostSimilar.step
      rw [if_neg (fun hcond => hcond.2 rfl : ¬ (v = st.score ∧ some i ≠ some i))]
      split_ifs with hlt
      · exact .better hlt (.last hv) ((hle.mono hlt.le).snoc hv le_rfl)
      · exact .equal h.snoc (hle.snoc hv (not_lt.mp hlt))
  | better hm h hle =>
      rename_i m
      unfold MostSimilar.step
      rw [if_neg (fun hcond => hcond.2 rfl : ¬ (v = m ∧ some i ≠ some i))]
      split_ifs with hlt
      · exact .better (hm.trans hlt) (.last hv) ((hle.mono hlt.le).snoc hv le_rfl)
      · exact .better hm h.snoc (hle.snoc hv (not_lt.mp hlt))

theorem row_result (hpre : st.preI ≠ some i) : ∃ st', exp.foldlM
    (fun st p => (codeMatch env .noExpandNe p code th).map (st.step i code)) st = some st' ∧
      RowResult env th exp i code st st' := by
  induction exp using List.reverseRecOn with
  | nil => exact ⟨st, rfl, .worse fun p hp => absurd hp List.not_mem_nil⟩
  | append_singleton exp p ih =>
      obtain ⟨st', hfold, hrow⟩ := ih
      obtain ⟨v, hv, -⟩ := codeMatch_noExpand env th p code
      refine ⟨st'.step i code v, ?_, hrow.step hpre hv⟩
      rw [List.foldlM_append, hfold]
      simp only [Option.bind_eq_bind, Option.bind_some, List.foldlM_cons, List.foldlM_nil, hv,
        Option.map_some]
      rfl

/-- The pairs of the codes `done` have been seen, and the next code stands at `i`. -/
structure SeenCodes (env : ThesaurusEnv) (th : ThesaurusUsed) (exp done : List (List UInt8))
    (i : Nat) (st : MostSimilar) : Prop where
  below : ∀ d ∈ done, Below env th exp st.score d
  attained : st.score = 0 ∨ ∃ d ∈ done, Attains env th exp st.score d
  retSm : st.retSm = (done.filter fun d => Attains env th exp st.score d).flatten
  preI : ∀ k, st.preI = some k → k < i

theorem SeenCodes.row (h : SeenCodes env th exp done i st)
    (hrow : RowResult env th exp i code st st') {j : Nat} (hij : i < j) :
    SeenCodes env th exp (done ++ [code]) j st' := by
  have hlast : ∀ m, Below env th exp m code → (∀ d ∈ done, Below env th exp m d) →
      ∀ d ∈ done ++ [code], Below env th exp m d := by
    intro m hcode hdone d hd
    rcases List.mem_append.mp hd with hd | hd
    · exact hdone d hd
    · exact List.mem_singleton.mp hd ▸ hcode
  have hmem : code ∈ done ++ [code] := List.mem_append_right _ List.mem_cons_self
  cases hrow with
  | worse hlt =>
      have hnot : ¬ Attains env th exp st.score code := fun ⟨p, hp, hv⟩ => (hlt p hp _ hv).false
      refine ⟨hlast _ (fun p hp v hv => (hlt p hp v hv).le) h.below, ?_, ?_, ?_⟩
      · exact h.attained.imp_right fun ⟨d, hd, hatt⟩ => ⟨d, List.mem_append_left _ hd, hatt⟩
      · rw [List.filter_append, List.filter_cons_of_neg (by simpa using hnot), List.filter_nil,
          List.append_nil, h.retSm]
      · exact fun k hk => (h.preI k hk).trans hij
  | equal hatt hle =>
      refine ⟨hlast _ hle h.below, .inr ⟨code, hmem, hatt⟩, ?_, fun k hk => ?_⟩
      · rw [List.filter_append, List.filter_cons_of_pos (by simpa using hatt), List.filter_nil,
          List.flatten_append, List.flatten_singleton, h.retSm]
      · exact Option.some.inj hk ▸ hij
  | better hlt hatt hle =>
      refine ⟨hlast _ hle fun d hd => (h.below d hd).mono hlt.le, .inr ⟨code, hmem, hatt⟩, ?_,
        fun k hk => Option.some.inj hk ▸ hij⟩
      -- no code before this one attains the new maximum
      have hnone : done.filter (fun d => Attains env th exp _ d) = [] :=
        List.filter_eq_nil_iff.mpr fun d hd hd' => by
          obtain ⟨p, hp, hv⟩ := of_decide_eq_true hd'
          exact (h.below d hd p hp _ hv).not_gt hlt
      rw [List.filter_append, hnone, List.nil_append,
        List.filter_cons_of_pos (by simpa using hatt), List.filter_nil, List.flatten_singleton]

theorem SeenCodes.run (hpos : 0 < env.codeSize th) (h : SeenCodes env th exp done i st) :
    ∃ st' j, mostSimilarFrom env th exp i ds st = some st' ∧
      SeenCodes env th exp (done ++ ds) j st' := by
  induction ds generalizing done i st with
  | nil => exact ⟨st, i, rfl, by rwa [List.append_nil]⟩
  | cons d ds ih =>
      obtain ⟨st1, hfold, hrow⟩ := row_result fun hpre => (h.preI i hpre).false
      obtain ⟨st', j, hrun, hseen⟩ := ih (h.row hrow (Nat.lt_add_of_pos_right hpos))
      refine ⟨st', j, ?_, by rwa [List.append_assoc] at hseen⟩
      rw [mostSimilarFrom, hfold, Option.bind_some, hrun]

/-- The maximum is attained, also when it is 0. -/
theorem SeenCodes.isGreatest (h : SeenCodes env th exp ds i st) (hds : ds ≠ []) (hexp : exp ≠ []) :
    IsGreatest {v | ∃ d ∈ ds, ∃ p ∈ exp, codeMatch env .noExpandNe p d th = some v} st.score := by
  refine ⟨?_, fun v ⟨d, hd, p, hp, hv⟩ => h.below d hd p hp v hv⟩
  rcases h.attained with hzero | ⟨d, hd, p, hp, hv⟩
  · obtain ⟨d, hd⟩ := List.exists_mem_of_ne_nil ds hds
    obtain ⟨p, hp⟩ := List.exists_mem_of_ne_nil exp hexp
    obtain ⟨v, hv, hnonneg⟩ := codeMatch_noExpand env th p d
    have hle := h.below d hd p hp v hv
    have heq : v = st.score := le_antisymm hle (hzero ▸ hnonneg)
    exact ⟨d, hd, p, hp, heq ▸ hv⟩
  · exact ⟨d, hd, p, hp, hv⟩

end MostSimilar

/-- The result is the codes of `exd` that attain the maximum over all pairs, once each and in
their order. -/
theorem getMostSimilarCode_maximal {env : ThesaurusEnv} {th : ThesaurusUsed}
    {ds ps : List (List UInt8)} (hth : env.thesaurus = some th) (hpos : 0 < env.codeSize th)
    (hds : ds ≠ []) (hps : ps ≠ []) (hdlen : ∀ d ∈ ds, d.length = env.codeSize th)
    (hplen : ∀ p ∈ ps, p.length = env.codeSize th) :
    ∃ m, IsGreatest {v | ∃ d ∈ ds, ∃ p ∈ ps, codeMatch env .noExpandNe p d th = some v} m ∧
      getMostSimilarCode env ds.flatten ps.flatten =
        some (some (ds.filter fun d => Attains env th ps m d).flatten) := by
  have hcodes : ∀ {cs : List (List UInt8)}, cs ≠ [] → (∀ c ∈ cs, c.length = env.codeSize th) →
      cs.flatten ≠ [] ∧ codesIn (env.codeSize th) cs.flatten.length cs.flatten = some cs := by
    intro cs hne hlen
    have hle := length_le_length_flatten hpos hlen
    refine ⟨fun hnil => ?_, codesIn_flatten hpos cs _ hlen hle⟩
    rw [hnil, List.length_nil, Nat.le_zero, List.length_eq_zero_iff] at hle
    exact hne hle
  obtain ⟨hdne, hdcodes⟩ := hcodes hds hdlen
  obtain ⟨hpne, hpcodes⟩ := hcodes hps hplen
  have hinit : SeenCodes env th ps [] 0 ⟨0, [], none⟩ :=
    ⟨fun d hd => absurd hd List.not_mem_nil, .inl rfl, rfl, fun k hk => by cases hk⟩
  obtain ⟨st, j, hrun, hseen⟩ : ∃ st j, mostSimilarFrom env th ps 0 ds ⟨0, [], none⟩ = some st ∧
      SeenCodes env th ps ([] ++ ds) j st := hinit.run hpos
  rw [List.nil_append] at hseen
  refine ⟨st.score, hseen.isGreatest hds hps, ?_⟩
  rw [getMostSimilarCode, if_neg (not_or.mpr ⟨hdne, hpne⟩), hth]
  simp only [hdcodes, hpcodes, hrun, Option.bind_eq_bind, Option.bind_some, hseen.retSm]
  rfl

theorem getMostSimilarCode_levels : ∃ m,
    getMostSimilarCode levelsEnv (["123", "411", "122"].map ascii).flatten (ascii "124") =
      some (some ((["123", "411", "122"].map ascii).filter fun d =>
        Attains levelsEnv .other [ascii "124"] m d).flatten) := by
  have hth : levelsEnv.thesaurus = some .other := rfl
  have hds : ∀ d ∈ ["123", "411", "122"].map ascii, d.length = levelsEnv.codeSize .other := by
    decide
  have hps : ∀ p ∈ [ascii "124"], p.length = levelsEnv.codeSize .other := by decide
  obtain ⟨m, -, hres⟩ := getMostSimilarCode_maximal hth (Nat.succ_pos 2) (by simp) (by simp) hds hps
  exact ⟨m, hres⟩

end Knp
