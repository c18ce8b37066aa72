import Mathlib
import Knp.CaseMatch
import Knp.SmScan
import Knp.Thesaurus
import Knp.ThesaurusKey

/-!
# The score of a case element in a slot (`case_match.c`)

`elmnt_match_score` compares an element of the input with a slot of a case frame:
its word with the examples, its codes with their codes, its markers with the
markers. The similarity, 0 to 1, is made an index into a table of eight scores.

> A similarity above 1 never gets there. The -1 of an element without codes does,
> if the case frame of the input has codes or markers for it.

Scores are rational; the bounds of an index are the same for `float`. `none` is a
read outside a string.
-/

namespace Knp

open Tokens

/-- `MATCH_SUBJECT` -/
def MATCH_SUBJECT : Int := -1

/-- `pp_kstr_to_code` of `ヲ`, `時間` and `修飾`. -/
def ppWo : Int := 2

def ppTime : Int := 38

def ppModifier : Int := 40

def EX_match_score : List Int := [0, 0, 0, 1, 3, 5, 8, 11]

/-- An element of `EX_match_score`; `none` outside. -/
def exMatchScore (i : Int) : Option Int := if 0 ≤ i then EX_match_score[i.toNat]? else none

/-- `SM_match_score`, of a depth up to 12. -/
def smScore (depth : Nat) : Int := if depth = 0 then 0 else 10

def EX_match_unknown : Int := 6

def EX_match_sentence : Int := 10

def EX_match_tim : Int := 0

def EX_match_tim2 : Int := 12

def EX_match_tim3 : Int := 8

def EX_match_qua : Int := 9

def EX_match_exact : Int := 12

def EX_match_subject : Int := 8

def EX_match_modification : Int := 0

def EX_match_demonstrative : Int := 0

def SM_match_unknown : Int := 10

def CASE_ASSIGN_THRESHOLD : Int := 0

/-- The options, the dictionaries, and what stands where a thesaurus other than `NTT` and
`BGH` leaves a variable or a result unset. -/
structure ScoreEnv extends ThesaurusEnv where
  useProbability : Bool
  useRepCf : Bool
  useCrepCf : Bool
  smExist : Bool
  rep2id : List UInt8 → List UInt8
  getStrCode : List UInt8 → Option (List UInt8)
  mrphRn : MrphFields → List UInt8
  sm2code : String → List UInt8
  stray : List UInt8
  strayMatch : Bool

/-- A case element: its copy in the case frame of the input, and its tag. -/
structure InputElem where
  /-- `ex[as1]`, `sm[as1]`, and `pp[as1]` up to `END_M` -/
  ex : List UInt8
  sm : List UInt8
  pp : List Int
  bghCode : List UInt8
  smCode : List UInt8
  /-- `check_feature` -/
  feature : String → Bool
  /-- `get_bnst_head_canonical_rep`, and `get_mrph_rep_from_f` of the head -/
  canonicalRep : Option (List UInt8)
  rep : Option (List UInt8)
  head : MrphFields
  headFeatures : List (List UInt8)

/-- A slot of a case frame. -/
structure CaseSlot where
  ex : List UInt8
  sm : Option (List UInt8)
  pp : List Int
  exList : List (List UInt8)
  smSpecify : Option (List UInt8)
  smDelete : Option (List UInt8)

/-! ## The word -/

section Word

variable (env : ScoreEnv) (e : InputElem) (s : CaseSlot)

/-- `check_examples` -/
def checkExamples (word : List UInt8) : Option Nat :=
  let repId := env.rep2id word
  if repId = [] then none else s.exList.findIdx? (· = repId)

/-- `strp` -/
def InputElem.word : List UInt8 :=
  if env.useRepCf then
    ((if env.useCrepCf then e.canonicalRep else none).or e.rep).getD (env.mrphRn e.head)
  else e.head.goi

/-- The representation of a reading: なければ作る -/
def readingRep (m : MrphFields) : List UInt8 :=
  match (mrphRep m).bind fun rep => (textTo? 32 rep).or (textTo? 34 rep) with
  | none => env.mrphRn m
  | some rep => if rep = [] then env.mrphRn m else rep

/-- The `ALT` readings of the head; `m` is the record they are read into. -/
def altExact : MrphFields → List (List UInt8) → Option Nat
  | _, [] => none
  | m, cp :: fs => match readAlt m cp with
      | none => altExact m fs
      | some m => (checkExamples env s (readingRep env m)).or (altExact m fs)

/-- The example that the word is, `exact_matched_flag`. -/
def exactMatch : Option Nat :=
  if e.feature "形副名詞" then none
  else ((strtok '?'.toUInt8 (e.word env)).findSome? (checkExamples env s)).or
    (if env.useRepCf && !env.useCrepCf then altExact env s emptyFields e.headFeatures else none)

end Word

/-! ## The codes -/

section Codes

variable (env : ScoreEnv) (e : InputElem) (s : CaseSlot)

/-- `exd`: the codes of the tag. -/
def InputElem.codes : List UInt8 :=
  match env.thesaurus with
  | some .bgh => e.bghCode
  | some .ntt => e.smCode
  | _ => env.stray

/-- `delete_specified_sm` -/
def deleteSpecifiedSm (sm del : List UInt8) : List UInt8 :=
  ((sm.toChunks SM_CODE_SIZE).filter fun c =>
    -- 固有ではないときを対象とする
    byteAt c 0 = '2'.toUInt8 ||
      !((del.toChunks SM_CODE_SIZE).any fun d => c.drop 1 = d.drop 1)).flatten

/-- `calc_sm_word_similarity` -/
def calcSmWordSimilarity (smd exp : List UInt8) (del : Option (List UInt8)) (expand : SmExpand) :
    Option ℚ :=
  match env.getStrCode exp with
  | none => some 0
  | some smp =>
      let smp := match del with
        | some del => if env.thesaurus = some .ntt then deleteSpecifiedSm smp del else smp
        | none => smp
      if smp = [] then some 0 else calcSimilarity env.toThesaurusEnv smd smp expand

/-- `calc_sm_words_similarity`: the loop from example `i` on, without a word to be left out. -/
def calcSmWordsSimilarity (smd : List UInt8) (del : Option (List UInt8)) (expand : SmExpand) :
    List (List UInt8) → Nat → ℚ × Int → Option (ℚ × Int)
  | [], _, best => some best
  | exp :: exps, i, best =>
      (calcSmWordSimilarity env smd exp del expand).bind fun score =>
        calcSmWordsSimilarity smd del expand exps (i + 1)
          (if best.1 < score then (score, (i : Int)) else best)

/-- `_calc_similarity_sm_cf` -/
def calcSimilaritySmCf (exd : List UInt8) (expand : SmExpand) (pos : Int) : Option (ℚ × Int) :=
  match s.smSpecify with
  -- 意味素制限
  | some spec => (calcSimilarity env.toThesaurusEnv exd spec expand).map fun v => (v, pos)
  | none => calcSmWordsSimilarity env exd s.smDelete expand s.exList 0 (0, pos)

/-- `calc_similarity_word_cf` -/
def calcSimilarityWordCf (pos : Int) : Option (ℚ × Int) :=
  let expand := if e.feature "Ｔ固有一般展開禁止" then SmExpand.noExpandNe else .expandNe
  match exactMatch env e s with
  | some i => some (11 / 10, i)
  | none =>
      -- 意味素なし: 候補にするために -1 を返す
      if e.codes env = [] then some (-1, pos)
      else calcSimilaritySmCf env s (e.codes env) expand pos

end Codes

/-! ## The markers -/

section Markers

variable (env : ScoreEnv) (e : InputElem) (s : CaseSlot)

/-- The loops of `comp_bgh`, over `n` characters from `i` on. -/
def compBghLoop (cpp cpd : List UInt8) : Nat → Nat → Nat
  | 0, _ => BGH_CODE_SIZE
  | n + 1, i =>
      if byteAt cpp i = '*'.toUInt8 then i
      else if byteAt cpp i ≠ byteAt cpd i then 0
      else compBghLoop cpp cpd n (i + 1)

/-- `comp_bgh` -/
def compBgh (cpp cpd : List UInt8) : Nat :=
  if byteAt cpp 0 = byteAt cpd 0 then compBghLoop cpp cpd (BGH_CODE_SIZE - 1) 1
  else if byteAt cpp 0 ≠ '4'.toUInt8 ∧ byteAt cpd 0 ≠ '4'.toUInt8 ∧ byteAt cpp 1 = byteAt cpd 1 then
    compBghLoop cpp cpd 2 2
  else 0

/-- `sms_match` -/
def smsMatch (cpp cpd : List UInt8) (flag : SmFlag) : Option Bool :=
  match env.thesaurus with
  | some .bgh => some ((cpd.toChunks BGH_CODE_SIZE).any fun c => 0 < compBgh cpp c)
  | some .ntt => (cpd.toChunks SM_CODE_SIZE).anyM fun c =>
      (smMatchScoreBy env.sm flag cpp c).map fun score => decide (0 < score)
  | _ => some false

/-- A marker of the slot, of `cf_match_sm_thesaurus`. -/
def matchMarker (flag : SmFlag) (code : List UInt8) : Option Bool :=
  -- 格フレーム-主体, 人, 組織
  if code = env.sm2code "主体" ∨ code = env.sm2code "人" ∨ code = env.sm2code "組織" then
    if e.feature "非主体" ∨ s.pp.head? = some ppWo then some false
    else smsMatch env code (e.codes env) flag
  -- 格フレーム-動作 <=> <名(転生)>, <サ変>
  else if env.thesaurus = some .ntt ∧ code = env.sm2code "動作" then do
    if ← smsMatch env (env.sm2code "名(転生)") (e.codes env) .checkFull then return true
    smsMatch env (env.sm2code "サ変") (e.codes env) .checkFull
  else if code = env.sm2code "場所" then smsMatch env code (e.codes env) flag
  else some false

/-- `cf_match_sm_thesaurus` -/
def cfMatchSmThesaurus : Option Bool :=
  let flag := if e.feature "Ｔ固有一般展開禁止" then SmFlag.noExpandNe else .expandNe
  match env.thesaurus, s.sm with
  | some .bgh, some sm => (sm.toChunks BGH_CODE_SIZE).anyM (matchMarker env e s flag)
  | some .ntt, some sm => (sm.toChunks SM_CODE_SIZE).anyM (matchMarker env e s flag)
  | _, _ => some false

/-- `smp2smg` with side effects. -/
def smp2smgAll (sm : SmEnv) (cpd : List UInt8) : Option (Option (List UInt8)) :=
  if !sm.smp2smgExist then some none
  else match sm.smp2smgDb cpd with
    | none => some none
    | some start =>
        (smp2smgLoop true start.length start).map fun out => if out = [] then none else some out

/-- `_cf_match_element`, of whole codes. -/
def cfMatchElement (d p : List UInt8) : Option Bool :=
  match env.thesaurus with
  | some .bgh => some ((d.toChunks BGH_CODE_SIZE).any fun c => (p.toChunks BGH_CODE_SIZE).contains c)
  | some .ntt => (d.toChunks SM_CODE_SIZE).anyM fun c =>
      -- 固有名詞体系
      if byteAt c 0 = '2'.toUInt8 then (smp2smgAll env.sm c).map fun
        | none => false
        | some code => (code.toChunks SM_CODE_SIZE).contains (p.take SM_CODE_SIZE)
      else some (c = p.take SM_CODE_SIZE)
  | _ => some false

/-- `cf_match_both_element` -/
def cfMatchBothElement (target : String) : Option Bool :=
  match s.sm, env.thesaurus with
  | none, _ => some false
  | some sm, some .bgh | some sm, some .ntt => do
      if ← cfMatchElement env e.sm (env.sm2code target) then cfMatchElement env sm (env.sm2code target)
      else return false
  | some _, _ => some env.strayMatch

/-- `elmnt_match_score_each_sm` -/
def elmntMatchScoreEachSm : Option Int := do
  if ← cfMatchBothElement env e s "補文" then return EX_match_sentence
  if ← cfMatchBothElement env e s "時間" then
    -- 格フレーム側が時間格の場合はスコアを低く
    if s.pp.head? = some ppTime then return EX_match_tim
    else if 1 < e.pp.length then return EX_match_tim3
    else return EX_match_tim2
  if ← cfMatchBothElement env e s "数量" then return EX_match_qua
  return -100

end Markers

/-! ## The score -/

/-- What `elmnt_match_score` leaves: the index into `EX_match_score`, where it makes one, and
`*pos`; the score and the value that is returned, `none` after a read outside. -/
structure MatchOutcome where
  index : Option Int
  pos : Int
  result : Option (ℚ × Bool)

/-- A score made an `int`. -/
def truncate (v : ℚ) : Int := v.num.tdiv v.den

section Score

variable (env : ScoreEnv) (e : InputElem) (s : CaseSlot)

/-- `calc_similarity_word_cf_with_sm` -/
def calcSimilarityWordCfWithSm (pos : Int) : Option (ℚ × Int) :=
  (calcSimilarityWordCf env e s pos).bind fun r =>
    -- exactマッチ
    if 1 < r.1 then some r
    -- 主体マッチ
    else (cfMatchSmThesaurus env e s).map fun m =>
      if m then ((EX_match_subject : ℚ) / 11, MATCH_SUBJECT) else r

/-- The loop of `elmnt_match_score` over the markers of the slot. -/
def markerLoop : List (List UInt8) → ℚ → Option ℚ
  | [], score => some score
  | c :: cs, score =>
      -- 具体的な用例が書いてある場合
      if c = env.sm2code "→" then
        (calcSimilarity env.toThesaurusEnv e.ex s.ex .unset).bind fun v =>
          if truncate v = 1 then some 10 else markerLoop cs score
      else markerLoop cs ((e.sm.toChunks SM_CODE_SIZE).foldl
        (fun score d => max score (smScore (smMatchScore c d) : ℚ)) score)

/-- `elmnt_match_score`, `SEMANTIC_MARKER` -/
def elmntMatchMarker (pos : Int) : Option MatchOutcome :=
  match s.sm with
  | none => some ⟨none, pos, some (SM_match_unknown, true)⟩
  | some sm =>
      if !env.smExist ∨ e.sm = [] ∨ sm = [] then some ⟨none, pos, some (SM_match_unknown, true)⟩
      else some ⟨none, pos,
        (markerLoop env e s (sm.toChunks SM_CODE_SIZE) (-100)).map fun v => (v, true)⟩

/-- The end of `elmnt_match_score`: 格解析用スコアに変換 -/
def tableScore (raw : ℚ) (pos : Int) : MatchOutcome :=
  -- 入力側の用例の意味属性がない場合
  let unknown : Bool := e.ex = [] ∧ e.sm = []
  let index := truncate ((if unknown then 0 else raw) * 7)
  { index := some index
    pos := pos
    result := do
      let each ← elmntMatchScoreEachSm env e s
      let exScore ← exMatchScore index
      let score := max (if unknown then EX_match_unknown else each) exScore
      return (score, CASE_ASSIGN_THRESHOLD < score) }

/-- `elmnt_match_score`, `EXAMPLE`; the sum of the probabilities is given. -/
def elmntMatchExample (cfType : CfType) (probability : ℚ) (pos : Int) : Option MatchOutcome :=
  if env.useProbability then some ⟨none, pos, some (probability, true)⟩
  else if e.pp.head? = some ppModifier then
    some ⟨none, pos, some (EX_match_modification, true)⟩
  else if e.feature "指示詞" then some ⟨none, pos, some (EX_match_demonstrative, true)⟩
  else (if cfType = .pred then calcSimilarityWordCfWithSm env e s pos
      else calcSimilarityWordCf env e s pos).map fun r =>
    -- 外の関係のときシソーラスを使わない
    if s.pp.head? = some ppSoto then
      ⟨none, r.2, if 1 < r.1 then (exMatchScore 7).map fun v => (v, true) else some (0, false)⟩
    else if 1 < r.1 then ⟨none, r.2, some (EX_match_exact, true)⟩
    -- <主体>共通スコア
    else if r.2 = MATCH_SUBJECT then ⟨none, r.2, some (EX_match_subject, true)⟩
    else tableScore env e s r.1 r.2

/-- `elmnt_match_score` -/
def elmntMatchScore (flag : MatchFlag) (cfType : CfType) (probability : ℚ) (pos : Int) :
    Option MatchOutcome :=
  match flag with
  | .semanticMarker => elmntMatchMarker env e s pos
  | .ofExample => elmntMatchExample env e s cfType probability pos

/-- The index of a call is one of the table. -/
def IndexInTable (flag : MatchFlag) (cfType : CfType) (probability : ℚ) (pos : Int) : Prop :=
  ∀ o, elmntMatchScore env e s flag cfType probability pos = some o →
    ∀ i, o.index = some i → 0 ≤ i ∧ i ≤ 7

/-- The element has no codes, though its copy has codes or markers, and nothing else settles
the score: neither an option nor the case of the element or of the slot, nor an example. -/
structure Uncoded (flag : MatchFlag) (pos : Int) : Prop where
  flag : flag = .ofExample
  probability : env.useProbability = false
  modifier : e.pp.head? ≠ some ppModifier
  demonstrative : e.feature "指示詞" = false
  soto : s.pp.head? ≠ some ppSoto
  pos : pos ≠ MATCH_SUBJECT
  exact : exactMatch env e s = none
  codes : e.codes env = []
  copy : ¬(e.ex = [] ∧ e.sm = [])

end Score

/-! ## What a similarity can be -/

section Similarity

variable {env : ScoreEnv} {e : InputElem} {s : CaseSlot}

theorem le_keepMax (score temp : ℚ) : score ≤ keepMax score temp := by
  unfold keepMax
  split_ifs with h
  · exact h.le
  · exact le_rfl

/-- A fold that only raises a score. -/
theorem foldlM_nonneg {α : Type*} {f : ℚ → α → Option ℚ} {l : List α} {v w : ℚ}
    (step : ∀ a v w, 0 ≤ v → f v a = some w → 0 ≤ w) (hv : 0 ≤ v)
    (h : l.foldlM f v = some w) : 0 ≤ w :=
  Loop.foldlM_induction (fun _ v => 0 ≤ v) l [] v w (fun _ a v w _ => step a v w) hv h

theorem map_keepMax_nonneg {o : Option ℚ} {v w : ℚ} (hv : 0 ≤ v)
    (h : o.map (keepMax v) = some w) : 0 ≤ w := by
  obtain ⟨temp, -, rfl⟩ := Option.map_eq_some_iff.mp h
  exact hv.trans (le_keepMax v temp)

theorem calcSimilarity_nonneg {env : ThesaurusEnv} {exd exp : List UInt8} {expand : SmExpand}
    {v : ℚ} (h : calcSimilarity env exd exp expand = some v) : 0 ≤ v := by
  unfold calcSimilarity at h
  split_ifs at h with hnil
  · exact (Option.some.inj h).le
  split at h
  · exact (Option.some.inj h).le
  · obtain ⟨ps, -, h⟩ := Option.bind_eq_some_iff.mp h
    obtain ⟨ds, -, h⟩ := Option.bind_eq_some_iff.mp h
    obtain ⟨score, hscore, h⟩ := Option.bind_eq_some_iff.mp h
    have hnonneg : 0 ≤ score :=
      foldlM_nonneg (fun _ _ _ hv => foldlM_nonneg (fun _ _ _ => map_keepMax_nonneg) hv)
        le_rfl hscore
    obtain rfl := Option.some.inj h
    split_ifs
    · exact div_nonneg hnonneg (by norm_num)
    · exact hnonneg

theorem calcSmWordSimilarity_nonneg {smd exp : List UInt8} {del : Option (List UInt8)}
    {expand : SmExpand} {v : ℚ} (h : calcSmWordSimilarity env smd exp del expand = some v) :
    0 ≤ v := by
  unfold calcSmWordSimilarity at h
  split at h
  · exact (Option.some.inj h).le
  · extract_lets smp at h
    split_ifs at h
    · exact (Option.some.inj h).le
    · exact calcSimilarity_nonneg h

theorem calcSmWordsSimilarity_nonneg {smd : List UInt8} {del : Option (List UInt8)}
    {expand : SmExpand} {exps : List (List UInt8)} {i : Nat} {best r : ℚ × Int}
    (hbest : 0 ≤ best.1) (h : calcSmWordsSimilarity env smd del expand exps i best = some r) :
    0 ≤ r.1 := by
  induction exps generalizing i best with
  | nil => exact Option.some.inj h ▸ hbest
  | cons exp exps ih =>
      obtain ⟨score, hscore, hrest⟩ := Option.bind_eq_some_iff.mp h
      refine ih ?_ hrest
      split_ifs
      · exact calcSmWordSimilarity_nonneg hscore
      · exact hbest

theorem calcSimilaritySmCf_nonneg {exd : List UInt8} {expand : SmExpand} {pos : Int}
    {r : ℚ × Int} (h : calcSimilaritySmCf env s exd expand pos = some r) : 0 ≤ r.1 := by
  unfold calcSimilaritySmCf at h
  split at h
  · obtain ⟨v, hv, rfl⟩ := Option.map_eq_some_iff.mp h
    exact calcSimilarity_nonneg hv
  · exact calcSmWordsSimilarity_nonneg le_rfl h

/-- Only an element without codes has a negative similarity. -/
theorem calcSimilarityWordCf_nonneg {pos : Int} {r : ℚ × Int}
    (h : calcSimilarityWordCf env e s pos = some r) :
    0 ≤ r.1 ∨ (exactMatch env e s = none ∧ e.codes env = [] ∧ r = (-1, pos)) := by
  unfold calcSimilarityWordCf at h
  extract_lets expand at h
  split at h
  · obtain rfl := Option.some.inj h
    exact .inl (by norm_num)
  next hexact =>
      split_ifs at h with hcodes
      · exact .inr ⟨hexact, hcodes, (Option.some.inj h).symm⟩
      · exact .inl (calcSimilaritySmCf_nonneg h)

theorem calcSimilarityWordCfWithSm_nonneg {pos : Int} {r : ℚ × Int}
    (h : calcSimilarityWordCfWithSm env e s pos = some r) :
    0 ≤ r.1 ∨ (exactMatch env e s = none ∧ e.codes env = [] ∧ r = (-1, pos)) := by
  obtain ⟨r₀, hword, h⟩ := Option.bind_eq_some_iff.mp h
  split_ifs at h with hlt
  · obtain rfl := Option.some.inj h
    exact .inl (zero_le_one.trans hlt.le)
  · obtain ⟨m, -, rfl⟩ := Option.map_eq_some_iff.mp h
    cases m with
    | true => exact .inl (by norm_num [EX_match_subject])
    | false => exact calcSimilarityWordCf_nonneg hword

/-- Without codes no marker of the slot is matched. -/
theorem smsMatch_nil (cpp : List UInt8) (flag : SmFlag) : smsMatch env cpp [] flag = some false := by
  unfold smsMatch
  split
  · rfl
  · rfl
  · rfl

theorem matchMarker_of_codes (h : e.codes env = []) (flag : SmFlag) (code : List UInt8) :
    matchMarker env e s flag code = some false := by
  unfold matchMarker
  rw [h]
  simp only [smsMatch_nil]
  split_ifs <;> rfl

theorem anyM_eq_false {l : List (List UInt8)} {f : List UInt8 → Option Bool}
    (h : ∀ c, f c = some false) : l.anyM f = some false := by
  induction l with
  | nil => rfl
  | cons c l ih =>
      rw [List.anyM_cons, h c]
      exact ih

theorem cfMatchSmThesaurus_of_codes (h : e.codes env = []) :
    cfMatchSmThesaurus env e s = some false := by
  unfold cfMatchSmThesaurus
  dsimp only
  split
  · exact anyM_eq_false (matchMarker_of_codes h _)
  · exact anyM_eq_false (matchMarker_of_codes h _)
  · rfl

end Similarity

/-! ## The index -/

section Index

variable {env : ScoreEnv} {e : InputElem} {s : CaseSlot} {flag : MatchFlag} {cfType : CfType}
  {probability : ℚ} {pos : Int}

theorem truncate_bounds {v : ℚ} (h0 : 0 ≤ v) (h7 : v ≤ 7) : 0 ≤ truncate v ∧ truncate v ≤ 7 := by
  have hnum : 0 ≤ v.num := Rat.num_nonneg.mpr h0
  have hle : v.num ≤ 7 * v.den := by
    have hcast : (v.num : ℚ) ≤ 7 * v.den := by
      rw [← Rat.num_div_den v] at h7
      rwa [div_le_iff₀ (by exact_mod_cast v.den_pos)] at h7
    exact_mod_cast hcast
  unfold truncate
  rw [Int.tdiv_eq_ediv_of_nonneg hnum]
  refine ⟨Int.ediv_nonneg hnum (Int.natCast_nonneg _), ?_⟩
  exact Int.ediv_le_of_le_mul (by exact_mod_cast v.den_pos) hle

/-- The index of an element without codes. -/
theorem Uncoded.index (h : Uncoded env e s flag pos) : ∃ o,
    elmntMatchScore env e s flag cfType probability pos = some o ∧ o.index = some (-7) := by
  have hlow : ¬(1 : ℚ) < -1 := by norm_num
  have hword : calcSimilarityWordCf env e s pos = some (-1, pos) := by
    unfold calcSimilarityWordCf
    rw [h.exact]
    exact if_pos h.codes
  have hsm : calcSimilarityWordCfWithSm env e s pos = some (-1, pos) := by
    unfold calcSimilarityWordCfWithSm
    rw [hword, cfMatchSmThesaurus_of_codes h.codes]
    simp only [Option.bind_some, if_neg hlow]
    rfl
  refine ⟨tableScore env e s (-1) pos, ?_, ?_⟩
  · unfold elmntMatchScore elmntMatchExample
    rw [h.flag]
    simp only [h.probability, h.demonstrative, Bool.false_eq_true, if_false, if_neg h.modifier,
      hword, hsm, ite_self, Option.map_some, if_neg h.soto, if_neg h.pos, if_neg hlow]
  · simp only [tableScore, decide_eq_false h.copy, Bool.false_eq_true, if_false]
    norm_num [truncate]

/-- An index that is made comes from a similarity of at most 1. -/
theorem index_cases {o : MatchOutcome} {i : Int}
    (h : elmntMatchScore env e s flag cfType probability pos = some o) (hi : o.index = some i) :
    Uncoded env e s flag pos ∨ ∃ v : ℚ, 0 ≤ v ∧ v ≤ 1 ∧ i = truncate (v * 7) := by
  cases flag with
  | semanticMarker =>
      unfold elmntMatchScore elmntMatchMarker at h
      dsimp only at h
      split at h
      · obtain rfl := Option.some.inj h
        cases hi
      · split_ifs at h
        all_goals
          obtain rfl := Option.some.inj h
          cases hi
  | ofExample =>
      unfold elmntMatchScore elmntMatchExample at h
      dsimp only at h
      by_cases hprob : env.useProbability = true
      · rw [if_pos hprob] at h
        obtain rfl := Option.some.inj h
        cases hi
      by_cases hmod : e.pp.head? = some ppModifier
      · rw [if_neg hprob, if_pos hmod] at h
        obtain rfl := Option.some.inj h
        cases hi
      by_cases hdemo : e.feature "指示詞" = true
      · rw [if_neg hprob, if_neg hmod, if_pos hdemo] at h
        obtain rfl := Option.some.inj h
        cases hi
      rw [if_neg hprob, if_neg hmod, if_neg hdemo] at h
      obtain ⟨r, hr, rfl⟩ := Option.map_eq_some_iff.mp h
      have hraw : 0 ≤ r.1 ∨ (exactMatch env e s = none ∧ e.codes env = [] ∧ r = (-1, pos)) := by
        split_ifs at hr
        · exact calcSimilarityWordCfWithSm_nonneg hr
        · exact calcSimilarityWordCf_nonneg hr
      split_ifs at hi with hsoto hlt hsubject
      have hi := Option.some.inj hi
      by_cases hcopy : e.ex = [] ∧ e.sm = []
      · rw [decide_eq_true hcopy, if_pos rfl] at hi
        exact .inr ⟨0, le_rfl, zero_le_one, hi.symm⟩
      · rw [decide_eq_false hcopy, if_neg Bool.false_ne_true] at hi
        rcases hraw with hnonneg | ⟨hexact, hcodes, rfl⟩
        · exact .inr ⟨r.1, hnonneg, not_lt.mp hlt, hi.symm⟩
        · exact .inl ⟨rfl, Bool.eq_false_of_not_eq_true hprob, hmod,
            Bool.eq_false_of_not_eq_true hdemo, hsoto, hsubject, hexact, hcodes, hcopy⟩

end Index

/-! ## A name that the thesaurus does not know -/

/-- `BGH`, where the marker 主体 is `sm-sub*****`; the word of an element is its base form. -/
def nameEnv : ScoreEnv where
  thesaurus := some .bgh
  format := []
  sm := ⟨.bgh, false, fun _ => none, true, fun _ => none⟩
  useProbability := false
  useRepCf := false
  useCrepCf := false
  smExist := true
  rep2id := id
  getStrCode := fun _ => none
  mrphRn := fun m => m.goi
  sm2code := fun target => if target = "主体" then ascii "sm-sub*****" else []
  stray := []
  strayMatch := false

/-- The name of a person as が: `_make_data_cframe_sm` gives it the marker 主体. -/
def nameElem : InputElem where
  ex := []
  sm := ascii "sm-sub*****"
  pp := [ppGa]
  bghCode := []
  smCode := []
  feature := fun f => f = "人名"
  canonicalRep := none
  rep := none
  head := { emptyFields with goi := utf8 "レイチェル" }
  headFeatures := []

/-- が of a frame, with one example. -/
def gaSlot : CaseSlot where
  ex := []
  sm := some (ascii "sm-sub*****")
  pp := [ppGa]
  exList := [utf8 "犬"]
  smSpecify := none
  smDelete := none

theorem name_uncoded : Uncoded nameEnv nameElem gaSlot .ofExample MATCH_NONE where
  flag := rfl
  probability := rfl
  modifier := by decide
  demonstrative := by decide
  soto := by decide
  pos := by decide
  exact := by decide
  codes := rfl
  copy := by decide

end Knp
