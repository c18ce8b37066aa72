import Mathlib.Algebra.Order.Field.Basic
import Mathlib.Algebra.Order.Field.Rat
import Mathlib.Tactic.Positivity
import Knp.SmCode

/-!
# The similarity of codes (`thesaurus.c`, `lib_bgh.c`, `lib_sm.c`)

A code is a string of a fixed number of characters; in a thesaurus with levels the
characters behind its depth are `*`. Codes are compared from the left, and the similarity
is the part that agrees in proportion to the depths.

> `BGH` and `NTT` codes have a similarity between 0 and 1, which is 1 for codes that agree
> in all digits. A thesaurus of the configuration file counts the first character among
> the digits that agree, but not in the depths.

What is read of a code are its characters; `BGH_CODE_SIZE` of them end the loop of
`bgh_code_match`. `float` is exact. `none` stands for reading behind a string.
-/

namespace Knp

def BGH_CODE_SIZE : Nat := 11

/-- `SM_NO_EXPAND_NE`, `SM_EXPAND_NE`, `SM_EXPAND_NE_DATA`, or 0. -/
inductive SmExpand
  | noExpandNe
  | expandNe
  | expandNeData
  | unset
deriving DecidableEq

/-- `Thesaurus`, `none` for `USE_NONE`; the format of the one in `.knprc`; the tables of
`NTT`. -/
structure ThesaurusEnv where
  thesaurus : Option ThesaurusUsed
  format : List Nat
  sm : SmEnv

/-- 意味素コードの深さを返す関数 (0 .. code_size-1), from character `i` on. -/
def codeDepthFrom (cp : List UInt8) : Nat → Nat → Nat
  | 0, i => i - 1
  | n + 1, i => if byteAt cp i = '*'.toUInt8 then i - 1 else codeDepthFrom cp n (i + 1)

def codeDepth (cp : List UInt8) (codeSize : Nat) : Nat := codeDepthFrom cp (codeSize - 1) 1

/-- The number of equal characters from `i` on, `n` at most. -/
def sameFrom (c1 c2 : List UInt8) : Nat → Nat → Nat
  | 0, _ => 0
  | n + 1, i => if byteAt c1 i = byteAt c2 i then 1 + sameFrom c1 c2 n (i + 1) else 0

/-! ## The codes of each thesaurus -/

/-- 1,2,3,4,5,6-7,8-11桁目比較: whether character `i` gives a point. -/
def bghPoint (i : Nat) : Nat := if i ≠ 5 ∧ i ≠ 7 ∧ i ≠ 8 ∧ i ≠ 9 then 1 else 0

/-- The loop of `bgh_code_match`. -/
def bghPoints (c1 c2 : List UInt8) : Nat → Nat → Nat
  | 0, _ => 0
  | n + 1, i =>
      if byteAt c1 i = byteAt c2 i then bghPoint i + bghPoints c1 c2 n (i + 1) else 0

/-- `bgh_code_match` -/
def bghCodeMatch (c1 c2 : List UInt8) : Nat :=
  if byteAt c1 0 = 's'.toUInt8 ∨ byteAt c2 0 = 's'.toUInt8 then 0
  else if byteAt c1 0 = byteAt c2 0 then 1 + bghPoints c1 c2 (BGH_CODE_SIZE - 1) 1
  else if byteAt c1 0 ≠ '4'.toUInt8 ∧ byteAt c2 0 ≠ '4'.toUInt8 ∧ byteAt c1 1 = byteAt c2 1 then
    2 + sameFrom c1 c2 2 2
  else 0

/-- `bgh_code_match_for_case` -/
def bghCodeMatchForCase (cp1 cp2 : List UInt8) : Nat :=
  -- 単位の項目は無視
  if cp1.take 5 = ascii "11960" ∨ cp2.take 5 = ascii "11960" then 0
  -- 代名詞の項目は類似度を押さえる
  else if (cp1.take 5 = ascii "12000" ∨ cp2.take 5 = ascii "12000") ∧ 3 < bghCodeMatch cp1 cp2 then
    3
  else bghCodeMatch cp1 cp2

/-- `_ntt_code_match` -/
def nttCodeMatchOne (c1 c2 : List UInt8) : ℚ :=
  let d1 := codeDepth c1 SM_CODE_SIZE
  let d2 := codeDepth c2 SM_CODE_SIZE
  if (byteAt c1 0 = '2'.toUInt8 ∧ byteAt c2 0 ≠ '2'.toUInt8) ∨
      (byteAt c1 0 ≠ '2'.toUInt8 ∧ byteAt c2 0 = '2'.toUInt8) then 0
  else if d1 + d2 = 0 ∨ min d1 d2 = 0 then 0
  else 2 * sameFrom c1 c2 (min d1 d2) 1 / (d1 + d2)

/-- `if (tempscore > score) score = tempscore;` -/
def keepMax (score temp : ℚ) : ℚ := if score < temp then temp else score

/-- The codes for which a code stands: the expansion of one of a proper noun, itself
otherwise; `some none` if there is no expansion. -/
def expansion (env : ThesaurusEnv) (c : List UInt8) : Option (Option (List (List UInt8))) :=
  if byteAt c 0 = '2'.toUInt8 then
    (smp2smg env.sm c).map fun r => r.map fun s => codesOf (s.length / SM_CODE_SIZE) s
  else some (some [c])

/-- `ntt_code_match` -/
def nttCodeMatch (env : ThesaurusEnv) (flag : SmExpand) (c1 c2 : List UInt8) : Option ℚ :=
  match flag with
  | .expandNe =>
      (expansion env c1).bind fun r1 => match r1 with
        | none => some 0
        | some l1 => (expansion env c2).map fun r2 => match r2 with
          | none => 0
          | some l2 => l1.foldl (fun score cp1 =>
              l2.foldl (fun score cp2 => keepMax score (nttCodeMatchOne cp1 cp2)) score) 0
  | .expandNeData =>
      -- PATTERN: 固有名詞
      if byteAt c1 0 = '2'.toUInt8 then some (nttCodeMatchOne c1 c2)
      else (expansion env c2).map fun r2 => match r2 with
        | none => 0
        | some l2 => l2.foldl (fun score cp2 => keepMax score (nttCodeMatchOne c1 cp2)) 0
  | _ => some (nttCodeMatchOne c1 c2)

/-- 指定された桁数ごとにチェック: where the first digits are that differ. -/
def differAt (c1 c2 : List UInt8) : List Nat → Nat → Option Nat
  | [], _ => none
  | f :: fs, l =>
      if (c1.drop l).take f ≠ (c2.drop l).take f then some l else differAt c1 c2 fs (l + f)

/-- `general_code_match`, with the format of the thesaurus. -/
def generalCodeMatch (format : List Nat) (c1 c2 : List UInt8) : ℚ :=
  let d1 := codeDepth c1 format.sum
  let d2 := codeDepth c2 format.sum
  if d1 + d2 = 0 ∨ min d1 d2 = 0 then 0
  else match differAt c1 c2 format 0 with
    | some l => 2 * l / (d1 + d2)
    | none => 2 * (min d1 d2 : Nat) / (d1 + d2)

/-! ## Strings of codes -/

def ThesaurusEnv.codeSize (env : ThesaurusEnv) : ThesaurusUsed → Nat
  | .bgh => BGH_CODE_SIZE
  | .ntt => SM_CODE_SIZE
  | .other => env.format.sum

/-- The codes at which a loop `for (i = 0; s[i]; i += code_size)` stops. -/
def codesIn (codeSize : Nat) : Nat → List UInt8 → Option (List (List UInt8))
  | _, [] => some []
  | 0, _ => none
  | fuel + 1, s =>
      if s.length < codeSize then none
      else (codesIn codeSize fuel (s.drop codeSize)).map (s.take codeSize :: ·)

/-- `tempscore` of two codes. -/
def codeMatch (env : ThesaurusEnv) (flag : SmExpand) (c1 c2 : List UInt8) :
    ThesaurusUsed → Option ℚ
  | .bgh => some (bghCodeMatchForCase c1 c2)
  | .ntt => nttCodeMatch env flag c1 c2
  | .other => some (generalCodeMatch env.format c1 c2)

/-- `calc_similarity`: 類似度計算: 意味素 - 意味素 -/
def calcSimilarity (env : ThesaurusEnv) (exd exp : List UInt8) (expand : SmExpand) : Option ℚ :=
  if exd = [] ∨ exp = [] then some 0
  else match env.thesaurus with
    | none => some 0
    | some th => do
        let flag := if th = .ntt ∧ expand ≠ .noExpandNe then .expandNeData else expand
        let ps ← codesIn (env.codeSize th) exp.length exp
        let ds ← codesIn (env.codeSize th) exd.length exd
        let score ← ps.foldlM (fun score p =>
          ds.foldlM (fun score d => (codeMatch env flag p d th).map (keepMax score)) score) 0
        -- スコアの幅に注意
        return if th = .bgh then score / 7 else score

/-! ## What a similarity says -/

/-- The codes agree on all digits: all characters of a `BGH` code, and else those behind the
first one down to the depth. -/
def SameDigits (env : ThesaurusEnv) (a b : List UInt8) : ThesaurusUsed → Prop
  | .bgh => a = b
  | th => codeDepth a (env.codeSize th) = codeDepth b (env.codeSize th) ∧
      ∀ i, 1 ≤ i → i ≤ codeDepth a (env.codeSize th) → byteAt a i = byteAt b i

/-- The similarity of two codes is between 0 and 1, the same either way, and 1 only for codes
that agree. -/
def SimilarityOk (env : ThesaurusEnv) (th : ThesaurusUsed) (expand : SmExpand) (a b : List UInt8) :
    Prop :=
  ∃ v, calcSimilarity env a b expand = some v ∧ calcSimilarity env b a expand = some v ∧
    0 ≤ v ∧ v ≤ 1 ∧ (v = 1 → SameDigits env a b th)

section Similarity

variable {env : ThesaurusEnv} {a b c c1 c2 : List UInt8} {n i : Nat}

theorem byteAt_ext {n : Nat} (ha : a.length = n) (hb : b.length = n)
    (h : ∀ i < n, byteAt a i = byteAt b i) : a = b := by
  refine List.ext_getElem (ha.trans hb.symm) fun i hia hib => ?_
  have heq := h i (ha ▸ hia)
  simpa [byteAt, hia, hib] using heq

theorem sameFrom_comm : sameFrom c1 c2 n i = sameFrom c2 c1 n i := by
  induction n generalizing i with
  | zero => rfl
  | succ n ih => simp only [sameFrom, ih, eq_comm (a := byteAt c1 i)]

theorem sameFrom_le : sameFrom c1 c2 n i ≤ n := by
  induction n generalizing i with
  | zero => exact le_rfl
  | succ n ih =>
      have := ih (i := i + 1)
      unfold sameFrom
      split_ifs <;> omega

theorem byteAt_of_sameFrom (h : sameFrom c1 c2 n i = n) :
    ∀ k < n, byteAt c1 (i + k) = byteAt c2 (i + k) := by
  induction n generalizing i with
  | zero => exact fun k hk => absurd hk (Nat.not_lt_zero k)
  | succ n ih =>
      unfold sameFrom at h
      split_ifs at h with heq
      · intro k hk
        cases k with
        | zero => exact heq
        | succ k =>
            have := ih (i := i + 1) (by omega) k (by omega)
            rwa [Nat.add_right_comm, Nat.add_assoc] at this

/-! ### `BGH` -/

theorem bghPoints_comm : bghPoints c1 c2 n i = bghPoints c2 c1 n i := by
  induction n generalizing i with
  | zero => rfl
  | succ n ih => simp only [bghPoints, ih, eq_comm (a := byteAt c1 i)]

theorem bghPoints_eq : bghPoints c1 c2 n i =
    ((List.range' i (sameFrom c1 c2 n i)).map bghPoint).sum := by
  induction n generalizing i with
  | zero => rfl
  | succ n ih =>
      unfold bghPoints sameFrom
      split_ifs
      · rw [ih, Nat.add_comm 1, List.range'_succ, List.map_cons, List.sum_cons]
      · rfl

/-- Six points behind the first digit, for ten digits that agree. -/
theorem bghPoints_le (c1 c2 : List UInt8) : bghPoints c1 c2 10 1 ≤ 6 ∧
    (bghPoints c1 c2 10 1 = 6 → ∀ i, 1 ≤ i → i < 11 → byteAt c1 i = byteAt c2 i) := by
  have hpoints : ∀ k ≤ 10, ((List.range' 1 k).map bghPoint).sum ≤ 6 ∧
      (((List.range' 1 k).map bghPoint).sum = 6 → k = 10) := by decide
  obtain ⟨hle, hall⟩ := hpoints (sameFrom c1 c2 10 1) sameFrom_le
  rw [bghPoints_eq]
  refine ⟨hle, fun h i hi hlt => ?_⟩
  have := byteAt_of_sameFrom (hall h) (i - 1) (by omega)
  rwa [Nat.add_sub_cancel' hi] at this

theorem bghCodeMatch_comm : bghCodeMatch c1 c2 = bghCodeMatch c2 c1 := by
  unfold bghCodeMatch
  rw [bghPoints_comm, sameFrom_comm]
  grind

theorem bghCodeMatch_le (c1 c2 : List UInt8) : bghCodeMatch c1 c2 ≤ 7 ∧
    (bghCodeMatch c1 c2 = 7 → ∀ i < BGH_CODE_SIZE, byteAt c1 i = byteAt c2 i) := by
  obtain ⟨hle, hall⟩ := bghPoints_le c1 c2
  have hsame : sameFrom c1 c2 2 2 ≤ 2 := sameFrom_le
  unfold bghCodeMatch
  rw [show BGH_CODE_SIZE - 1 = 10 from rfl]
  split_ifs with hsm hfirst
  · exact ⟨Nat.zero_le 7, fun h => by exfalso; omega⟩
  · refine ⟨by omega, fun h i hi => ?_⟩
    rcases Nat.eq_zero_or_pos i with rfl | hpos
    · exact hfirst
    · exact hall (by omega) i hpos hi
  · exact ⟨by omega, fun h => by exfalso; omega⟩
  · exact ⟨Nat.zero_le 7, fun h => by exfalso; omega⟩

theorem bghCodeMatchForCase_comm : bghCodeMatchForCase c1 c2 = bghCodeMatchForCase c2 c1 := by
  unfold bghCodeMatchForCase
  rw [bghCodeMatch_comm]
  grind

theorem bghCodeMatchForCase_le (c1 c2 : List UInt8) : bghCodeMatchForCase c1 c2 ≤ 7 ∧
    (bghCodeMatchForCase c1 c2 = 7 → ∀ i < BGH_CODE_SIZE, byteAt c1 i = byteAt c2 i) := by
  obtain ⟨hle, hall⟩ := bghCodeMatch_le c1 c2
  unfold bghCodeMatchForCase
  split_ifs
  · exact ⟨Nat.zero_le 7, fun h => by exfalso; omega⟩
  · exact ⟨by omega, fun h => by exfalso; omega⟩
  · exact ⟨hle, hall⟩

/-! ### `NTT` -/

theorem nttCodeMatchOne_comm : nttCodeMatchOne c1 c2 = nttCodeMatchOne c2 c1 := by
  unfold nttCodeMatchOne
  dsimp only
  rw [min_comm, sameFrom_comm, add_comm (codeDepth c1 SM_CODE_SIZE),
    add_comm (codeDepth c1 SM_CODE_SIZE : ℚ)]
  grind

/-- The levels that agree are counted within both depths. -/
theorem nttCodeMatchOne_le (env : ThesaurusEnv) (c1 c2 : List UInt8) :
    0 ≤ nttCodeMatchOne c1 c2 ∧ nttCodeMatchOne c1 c2 ≤ 1 ∧
      (nttCodeMatchOne c1 c2 = 1 → SameDigits env c1 c2 .ntt) := by
  unfold nttCodeMatchOne
  dsimp only
  split_ifs with hkind hzero
  · exact ⟨le_rfl, zero_le_one, fun h => absurd h zero_ne_one⟩
  · exact ⟨le_rfl, zero_le_one, fun h => absurd h zero_ne_one⟩
  · have hagree : sameFrom c1 c2 (min (codeDepth c1 SM_CODE_SIZE) (codeDepth c2 SM_CODE_SIZE)) 1 =
          min (codeDepth c1 SM_CODE_SIZE) (codeDepth c2 SM_CODE_SIZE) →
        codeDepth c1 SM_CODE_SIZE = codeDepth c2 SM_CODE_SIZE → SameDigits env c1 c2 .ntt := by
      refine fun hsame hdepth => ⟨hdepth, fun i hi hle => ?_⟩
      have hle : i ≤ codeDepth c1 SM_CODE_SIZE := hle
      have := byteAt_of_sameFrom hsame (i - 1) (by omega)
      rwa [Nat.add_sub_cancel' hi] at this
    have hle : sameFrom c1 c2 (min (codeDepth c1 SM_CODE_SIZE) (codeDepth c2 SM_CODE_SIZE)) 1 ≤
        min (codeDepth c1 SM_CODE_SIZE) (codeDepth c2 SM_CODE_SIZE) := sameFrom_le
    generalize sameFrom c1 c2 _ 1 = k at *
    generalize codeDepth c1 SM_CODE_SIZE = d1 at *
    generalize codeDepth c2 SM_CODE_SIZE = d2 at *
    have hpos : (0 : ℚ) < d1 + d2 := by
      have : 0 < d1 + d2 := by omega
      exact_mod_cast this
    refine ⟨by positivity, ?_, fun h => ?_⟩
    · rw [div_le_one hpos]
      have : 2 * k ≤ d1 + d2 := by omega
      exact_mod_cast this
    · rw [div_eq_one_iff_eq hpos.ne'] at h
      have heq : 2 * k = d1 + d2 := by exact_mod_cast h
      exact hagree (by omega) (by omega)

/-! ### The thesaurus of the configuration file -/

theorem differAt_comm (format : List Nat) (l : Nat) :
    differAt c1 c2 format l = differAt c2 c1 format l := by
  induction format generalizing l with
  | nil => rfl
  | cons f fs ih =>
      unfold differAt
      rw [ih]
      simp only [ne_comm (a := (c1.drop l).take f)]

theorem generalCodeMatch_comm (format : List Nat) :
    generalCodeMatch format c1 c2 = generalCodeMatch format c2 c1 := by
  unfold generalCodeMatch
  dsimp only
  rw [min_comm, differAt_comm, add_comm (codeDepth c1 _), add_comm (codeDepth c1 _ : ℚ)]

theorem generalCodeMatch_nonneg (format : List Nat) : 0 ≤ generalCodeMatch format c1 c2 := by
  unfold generalCodeMatch
  dsimp only
  split_ifs
  · exact le_rfl
  · split <;> positivity

/-! ### One code each -/

theorem codesIn_flatten {codeSize : Nat} (hpos : 0 < codeSize) : ∀ (codes : List (List UInt8))
    (fuel : Nat), (∀ c ∈ codes, c.length = codeSize) → codes.length ≤ fuel →
      codesIn codeSize fuel codes.flatten = some codes
  | [], fuel, _, _ => by cases fuel <;> rfl
  | c :: codes, 0, _, hfuel => absurd hfuel (Nat.not_succ_le_zero _)
  | c :: codes, fuel + 1, hlen, hfuel => by
      have hc := hlen c List.mem_cons_self
      have hrest := codesIn_flatten hpos codes fuel
        (fun c' hc' => hlen c' (List.mem_cons_of_mem c hc')) (Nat.le_of_succ_le_succ hfuel)
      obtain ⟨x, xs, rfl⟩ : ∃ x xs, c = x :: xs := by
        cases c with
        | nil => exact absurd hc hpos.ne
        | cons x xs => exact ⟨x, xs, rfl⟩
      have hnot : ¬ (((x :: xs) :: codes).flatten).length < codeSize := by
        rw [List.flatten_cons, List.length_append, hc]
        omega
      unfold codesIn
      rw [List.flatten_cons] at hnot ⊢
      rw [List.cons_append, ← List.cons_append] at hnot ⊢
      simp only [List.cons_append] at hnot ⊢
      rw [if_neg hnot, ← List.cons_append, List.take_left' hc, List.drop_left' hc, hrest]
      rfl

theorem foldl_keepMax {α : Type*} (f : α → ℚ) : ∀ (l : List α) (score : ℚ),
    score ≤ l.foldl (fun score a => keepMax score (f a)) score ∧
      (l.foldl (fun score a => keepMax score (f a)) score = score ∨
        ∃ a ∈ l, l.foldl (fun score a => keepMax score (f a)) score = f a)
  | [], score => ⟨le_rfl, .inl rfl⟩
  | a :: l, score => by
      obtain ⟨hle, hval⟩ := foldl_keepMax f l (keepMax score (f a))
      have hstep : score ≤ keepMax score (f a) ∧
          (keepMax score (f a) = score ∨ keepMax score (f a) = f a) := by
        unfold keepMax
        split_ifs with h
        · exact ⟨h.le, .inr rfl⟩
        · exact ⟨le_rfl, .inl rfl⟩
      rw [List.foldl_cons]
      refine ⟨hstep.1.trans hle, ?_⟩
      rcases hval with hval | ⟨b, hb, hval⟩
      · rcases hstep.2 with hkeep | hkeep
        · exact .inl (hval.trans hkeep)
        · exact .inr ⟨a, List.mem_cons_self, hval.trans hkeep⟩
      · exact .inr ⟨b, List.mem_cons_of_mem a hb, hval⟩

theorem keepMax_zero {v : ℚ} (h : 0 ≤ v) : keepMax 0 v = v := by
  unfold keepMax
  split_ifs with hlt
  · rfl
  · exact (le_antisymm (not_lt.mp hlt) h).symm

variable {th : ThesaurusUsed} {expand : SmExpand}

/-- What `expand` is for `calc_similarity`. -/
def simFlag (th : ThesaurusUsed) (expand : SmExpand) : SmExpand :=
  if th = .ntt ∧ expand ≠ .noExpandNe then .expandNeData else expand

theorem calcSimilarity_code (hth : env.thesaurus = some th) (hpos : 0 < env.codeSize th)
    (ha : a.length = env.codeSize th) (hb : b.length = env.codeSize th) :
    calcSimilarity env a b expand = (codeMatch env (simFlag th expand) b a th).map fun temp =>
      if th = .bgh then keepMax 0 temp / 7 else keepMax 0 temp := by
  have hone : ∀ {c : List UInt8}, c.length = env.codeSize th →
      codesIn (env.codeSize th) c.length c = some [c] := fun {c} hc => by
    have := codesIn_flatten hpos [c] c.length (by simpa using hc)
      (by rw [hc]; exact hpos)
    simpa using this
  have hne : ¬ (a = [] ∨ b = []) := by
    rintro (rfl | rfl)
    · exact hpos.ne ha
    · exact hpos.ne hb
  unfold calcSimilarity
  rw [if_neg hne, hth]
  simp only [hone ha, hone hb, Option.bind_eq_bind, Option.bind_some, List.foldlM_cons,
    List.foldlM_nil, simFlag]
  cases codeMatch env _ b a th <;> rfl

theorem nttCodeMatch_noExpand (c1 c2 : List UInt8) :
    nttCodeMatch env .noExpandNe c1 c2 = some (nttCodeMatchOne c1 c2) := rfl

/-- Without the expansion of a code the two are compared as they are. -/
theorem nttCodeMatch_same (h : expand = .noExpandNe ∨
    (byteAt c1 0 = '2'.toUInt8 ↔ byteAt c2 0 = '2'.toUInt8)) :
    nttCodeMatch env (simFlag .ntt expand) c1 c2 = some (nttCodeMatchOne c1 c2) := by
  by_cases hno : expand = .noExpandNe
  · rw [simFlag, if_neg fun hcond => hcond.2 hno, hno, nttCodeMatch_noExpand]
  · have hiff := h.resolve_left hno
    rw [simFlag, if_pos ⟨rfl, hno⟩]
    simp only [nttCodeMatch, expansion]
    by_cases hc : byteAt c1 0 = '2'.toUInt8
    · rw [if_pos hc]
    · rw [if_neg hc, if_neg (mt hiff.mpr hc), Option.map_some]
      dsimp only
      rw [List.foldl_cons, List.foldl_nil, keepMax_zero (nttCodeMatchOne_le env c1 c2).1]

theorem SameDigits.symm (h : SameDigits env a b th) : SameDigits env b a th := by
  cases th with
  | bgh => exact Eq.symm h
  | ntt => exact ⟨h.1.symm, fun i hi hle => (h.2 i hi (hle.trans h.1.ge)).symm⟩
  | other => exact ⟨h.1.symm, fun i hi hle => (h.2 i hi (hle.trans h.1.ge)).symm⟩

theorem similarityOk_bgh (hth : env.thesaurus = some .bgh) (ha : a.length = BGH_CODE_SIZE)
    (hb : b.length = BGH_CODE_SIZE) : SimilarityOk env .bgh expand a b := by
  obtain ⟨hle, hall⟩ := bghCodeMatchForCase_le b a
  have hval : ∀ {x y : List UInt8}, x.length = BGH_CODE_SIZE → y.length = BGH_CODE_SIZE →
      calcSimilarity env x y expand = some ((bghCodeMatchForCase y x : ℚ) / 7) := fun hx hy => by
    rw [calcSimilarity_code hth (Nat.succ_pos 10) hx hy]
    simp only [codeMatch, Option.map_some, if_true, keepMax_zero (Nat.cast_nonneg _)]
  refine ⟨_, hval ha hb, by rw [hval hb ha, bghCodeMatchForCase_comm], by positivity, ?_,
    fun h => ?_⟩
  · rw [div_le_one (by norm_num)]
    exact_mod_cast hle
  · rw [div_eq_one_iff_eq (by norm_num)] at h
    exact (byteAt_ext hb ha (hall (by exact_mod_cast h))).symm

theorem similarityOk_ntt (hth : env.thesaurus = some .ntt) (ha : a.length = SM_CODE_SIZE)
    (hb : b.length = SM_CODE_SIZE)
    (h : expand = .noExpandNe ∨ (byteAt a 0 = '2'.toUInt8 ↔ byteAt b 0 = '2'.toUInt8)) :
    SimilarityOk env .ntt expand a b := by
  have hval : ∀ {x y : List UInt8}, x.length = SM_CODE_SIZE → y.length = SM_CODE_SIZE →
      (expand = .noExpandNe ∨ (byteAt x 0 = '2'.toUInt8 ↔ byteAt y 0 = '2'.toUInt8)) →
      calcSimilarity env x y expand = some (nttCodeMatchOne y x) := fun {x y} hx hy hxy => by
    have hmatch : nttCodeMatch env (simFlag .ntt expand) y x = some (nttCodeMatchOne y x) :=
      nttCodeMatch_same (hxy.imp_right Iff.symm)
    rw [calcSimilarity_code hth (Nat.succ_pos 11) hx hy]
    simp only [codeMatch, hmatch, Option.map_some, keepMax_zero (nttCodeMatchOne_le env y x).1]
    rfl
  obtain ⟨hnonneg, hle, hsame⟩ := nttCodeMatchOne_le env b a
  exact ⟨_, hval ha hb h, by rw [hval hb ha (h.imp_right Iff.symm), nttCodeMatchOne_comm],
    hnonneg, hle, fun heq => (hsame heq).symm⟩

/-- A code of a proper noun in the data is compared through its expansion. -/
theorem calcSimilarity_expanded (hth : env.thesaurus = some .ntt) (hexpand : expand ≠ .noExpandNe)
    (ha : a.length = SM_CODE_SIZE) (hb : b.length = SM_CODE_SIZE)
    (hb2 : byteAt b 0 ≠ '2'.toUInt8) {v : ℚ} (hv : calcSimilarity env a b expand = some v) :
    0 ≤ v ∧ v ≤ 1 ∧ (v = 1 → ∃ codes, expansion env a = some (some codes) ∧
      ∃ c ∈ codes, SameDigits env b c .ntt) := by
  rw [calcSimilarity_code hth (Nat.succ_pos 11) ha hb, simFlag, if_pos ⟨rfl, hexpand⟩] at hv
  obtain ⟨w, hw, rfl⟩ := Option.map_eq_some_iff.mp hv
  simp only [codeMatch, nttCodeMatch, if_neg hb2] at hw
  obtain ⟨r, hr, rfl⟩ := Option.map_eq_some_iff.mp hw
  rw [if_neg (by simp)]
  cases r with
  | none =>
      rw [keepMax_zero le_rfl]
      exact ⟨le_rfl, zero_le_one, fun h => absurd h zero_ne_one⟩
  | some codes =>
      obtain ⟨hnonneg, hval⟩ := foldl_keepMax (nttCodeMatchOne b) codes 0
      dsimp only
      rw [keepMax_zero hnonneg]
      rcases hval with hval | ⟨c, hc, hval⟩
      · rw [hval]
        exact ⟨le_rfl, zero_le_one, fun h => absurd h zero_ne_one⟩
      · obtain ⟨hnonneg, hle, hsame⟩ := nttCodeMatchOne_le env b c
        rw [hval]
        exact ⟨hnonneg, hle, fun h => ⟨codes, hr, c, hc, hsame h⟩⟩

/-- A pattern of a proper noun agrees with no other code. -/
theorem calcSimilarity_properPattern (hth : env.thesaurus = some .ntt)
    (hexpand : expand ≠ .noExpandNe) (ha : a.length = SM_CODE_SIZE) (hb : b.length = SM_CODE_SIZE)
    (ha2 : byteAt a 0 = '2'.toUInt8) (hb2 : byteAt b 0 ≠ '2'.toUInt8) :
    calcSimilarity env b a expand = some 0 := by
  rw [calcSimilarity_code hth (Nat.succ_pos 11) hb ha, simFlag, if_pos ⟨rfl, hexpand⟩]
  have hkind : nttCodeMatchOne a b = 0 := if_pos (.inl ⟨ha2, hb2⟩)
  simp only [codeMatch, nttCodeMatch, if_pos ha2, Option.map_some, hkind, keepMax_zero le_rfl]
  rfl

/-- A thesaurus of the configuration file gives a similarity that is the same either way. -/
theorem calcSimilarity_other (hth : env.thesaurus = some .other) (hpos : 0 < env.format.sum)
    (ha : a.length = env.format.sum) (hb : b.length = env.format.sum) :
    ∃ v, calcSimilarity env a b expand = some v ∧ calcSimilarity env b a expand = some v ∧
      0 ≤ v := by
  have hval : ∀ {x y : List UInt8}, x.length = env.format.sum → y.length = env.format.sum →
      calcSimilarity env x y expand = some (generalCodeMatch env.format y x) := by
    intro x y hx hy
    rw [calcSimilarity_code hth hpos hx hy]
    simp only [codeMatch, Option.map_some, keepMax_zero (generalCodeMatch_nonneg env.format)]
    rfl
  exact ⟨_, hval ha hb, by rw [hval hb ha, generalCodeMatch_comm], generalCodeMatch_nonneg _⟩

end Similarity

/-- `BGH` codes, and `NTT` codes of which none is expanded, have a similarity as it should be. -/
theorem calcSimilarity_ok {env : ThesaurusEnv} {th : ThesaurusUsed} {expand : SmExpand}
    {a b : List UInt8} (hth : env.thesaurus = some th) (hpos : 0 < env.codeSize th)
    (ha : a.length = env.codeSize th) (hb : b.length = env.codeSize th) :
    (th = .bgh → SimilarityOk env th expand a b) ∧
    (th = .ntt → expand = .noExpandNe ∨ (byteAt a 0 = '2'.toUInt8 ↔ byteAt b 0 = '2'.toUInt8) →
      SimilarityOk env th expand a b) ∧
    (th = .ntt → expand ≠ .noExpandNe → byteAt a 0 = '2'.toUInt8 → byteAt b 0 ≠ '2'.toUInt8 →
      calcSimilarity env b a expand = some 0 ∧
      ∀ v, calcSimilarity env a b expand = some v → 0 ≤ v ∧ v ≤ 1 ∧
        (v = 1 → ∃ codes, expansion env a = some (some codes) ∧
          ∃ c ∈ codes, SameDigits env b c .ntt)) ∧
    (th = .other → ∃ v, calcSimilarity env a b expand = some v ∧
      calcSimilarity env b a expand = some v ∧ 0 ≤ v) := by
  refine ⟨?_, ?_, ?_, ?_⟩
  · rintro rfl
    exact similarityOk_bgh hth ha hb
  · rintro rfl h
    exact similarityOk_ntt hth ha hb h
  · rintro rfl hexpand ha2 hb2
    exact ⟨calcSimilarity_properPattern hth hexpand ha hb ha2 hb2,
      fun v hv => calcSimilarity_expanded hth hexpand ha hb hb2 hv⟩
  · rintro rfl
    exact calcSimilarity_other hth hpos ha hb

/-- One proper noun, which stands for one common noun. -/
def nounEnv : ThesaurusEnv where
  thesaurus := some .ntt
  format := []
  sm := ⟨.ntt, true, fun _ => some (ascii "31**********"), false, fun _ => none⟩

/-- Three levels of one digit. -/
def levelsEnv : ThesaurusEnv := { nounEnv with thesaurus := some .other, format := [1, 1, 1] }

/-- The proper noun is expanded in the data and not in the pattern. Two codes that agree in the
first character have a similarity of 1, and more than that if they agree in the second. -/
theorem similarity_not_ok :
    ¬ SimilarityOk nounEnv .ntt .unset (ascii "21**********") (ascii "31**********") ∧
    ¬ SimilarityOk levelsEnv .other .unset (ascii "12*") (ascii "13*") ∧
    calcSimilarity levelsEnv (ascii "123") (ascii "12*") .unset = some (4 / 3) := by
  have hdata : calcSimilarity nounEnv (ascii "21**********") (ascii "31**********") .unset =
      some 1 := by decide +kernel
  have hpattern : calcSimilarity nounEnv (ascii "31**********") (ascii "21**********") .unset =
      some 0 := by decide +kernel
  have hlevels : calcSimilarity levelsEnv (ascii "12*") (ascii "13*") .unset = some 1 := by
    decide +kernel
  refine ⟨?_, ?_, by decide +kernel⟩
  · rintro ⟨v, hv, hsymm, -⟩
    rw [hdata] at hv
    rw [hpattern] at hsymm
    exact zero_ne_one (Option.some.inj (hsymm.trans hv.symm))
  · rintro ⟨v, hv, -, -, -, hsame⟩
    rw [hlevels] at hv
    obtain ⟨-, hagree⟩ := hsame (Option.some.inj hv).symm
    exact absurd (hagree 1 le_rfl (by decide)) (by decide)

theorem calcSimilarity_ok_noun :
    SimilarityOk nounEnv .ntt .noExpandNe (ascii "21**********") (ascii "31**********") := by
  have hth : nounEnv.thesaurus = some .ntt := rfl
  exact (calcSimilarity_ok hth (Nat.succ_pos 11) rfl rfl).2.1 rfl (.inl rfl)

end Knp
