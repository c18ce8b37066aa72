import Mathlib.Data.List.FinRange
import Mathlib.Logic.Function.Basic
import Knp.CfFrame
import Knp.EntityMention
import Knp.Loop
import Knp.StableRank

/-!
# The best results of zero anaphora (`anaphora.c`)

`preserve_ellipsis_result_ctm` puts a result in front of the first entry with a lower score.
The entries behind it move by one place, each copied field by field, and the last one is
given up.

> The array holds the best results from the highest score on, an earlier one in front of a
> later one of the same score, each with all its fields.

Scores are those of `double` without NaN, a linear order; an array of `CF_TAG_MGR` is a
function of its index.
-/

namespace Knp

def ENTITY_MAX : Nat := 4096

def ELLIPSIS_CASE_NUM : Nat := 4

def VOICE_S : Nat := 33

def VOICE_NUM : Nat := 5

def CLOSEST_APPEARANCE_S : Nat := VOICE_S + VOICE_NUM

def CLOSEST_APPEARANCE_NUM : Nat := 4

def PRED_DPND_TYPE_S : Nat := CLOSEST_APPEARANCE_NUM + CLOSEST_APPEARANCE_S

def PRED_DPND_TYPE_NUM : Nat := 3

def VERB_SITUATION_S : Nat := PRED_DPND_TYPE_S + PRED_DPND_TYPE_NUM

def VERB_SITUATION_NUM : Nat := 2

def NE_FEATURE_S : Nat := VERB_SITUATION_S + VERB_SITUATION_NUM

def NE_NUM : Nat := 8

def NE_FEATURE_NUM : Nat := NE_NUM

/-- 位置カテゴリ素性の開始位置 -/
def LOCATION_S : Nat := NE_FEATURE_S + NE_FEATURE_NUM

def LOCATION_NUM : Nat := 135

def SIMPLE_LOCATION_S : Nat := LOCATION_S + LOCATION_NUM * 3

def SIMPLE_LOCATION_NUM : Nat := 15

def UNNAMED_NUM_S : Nat := SIMPLE_LOCATION_S + SIMPLE_LOCATION_NUM * 3

def YOBIKAKE_S : Nat := UNNAMED_NUM_S + UNNAMED_ENTITY_NUM * ELLIPSIS_CASE_NUM

def MODALITY_S : Nat := YOBIKAKE_S + UNNAMED_ENTITY_NUM

def MODALITY_NUM : Nat := 11

def MODALITY_F_NUM : Nat := MODALITY_NUM * 2

def KEIGO_S : Nat := MODALITY_S + MODALITY_F_NUM

def KEIGO_NUM : Nat := 3

def KEIGO_F_NUM : Nat := KEIGO_NUM * 2

def TENSE_S : Nat := KEIGO_S + KEIGO_F_NUM

def TENSE_NUM : Nat := 4

def CONTEXT_S : Nat := TENSE_S + TENSE_NUM

def CONTEXT_FEATURE_NUM : Nat := 10

def EACH_FEARUTE_NUM : Nat := CONTEXT_S + CONTEXT_FEATURE_NUM

def O_FEATURE_NUM : Nat := 2 * (EACH_FEARUTE_NUM * (3 + UNNAMED_ENTITY_NUM))

/-- `CF_TAG_MGR`; pointers are numbers. -/
structure CfTagMgr (S : Type*) where
  score : S
  scoreDef : S
  caseAnalysisScore : S
  cfPtr : Nat
  filledElement : Fin CF_ELEMENT_MAX → Int
  filledEntity : Fin ENTITY_MAX → Int
  nonMatchElement : Fin CF_ELEMENT_MAX → Int
  resultNum : Int
  caseResultNum : Int
  annotatedResultNum : Int
  cfElementNum : Fin CF_ELEMENT_MAX → Int
  tcfElementNum : Fin CF_ELEMENT_MAX → Int
  tcfElementNumFunctional : Fin CF_ELEMENT_MAX → Int
  elemBPtr : Fin CF_ELEMENT_MAX → Nat
  entityNum : Fin CF_ELEMENT_MAX → Int
  type : Fin CF_ELEMENT_MAX → Char
  gaEntity : Int
  caseAnalysisGaEntity : Int
  overtArgumentsScore : S
  allArgumentsScore : S
  omitFeature : Fin ELLIPSIS_CASE_NUM → Fin O_FEATURE_NUM → S

/-- The loop that copies an array of `n` cells. -/
def copyCells {α : Type*} {n : Nat} (source target : Fin n → α) : Fin n → α :=
  (List.finRange n).foldl (fun t i => Function.update t i (source i)) target

/-- The two loops that copy an array of rows. -/
def copyRows {α : Type*} {m n : Nat} (source target : Fin m → Fin n → α) : Fin m → Fin n → α :=
  (List.finRange m).foldl (fun t i => Function.update t i (copyCells (source i) (t i))) target

section Array

variable {S : Type*}

/-- `copy_ctm`: what the target holds afterwards. -/
def copyCtm (source target : CfTagMgr S) : CfTagMgr S :=
  { target with
    score := source.score
    scoreDef := source.scoreDef
    caseAnalysisScore := source.caseAnalysisScore
    cfPtr := source.cfPtr
    resultNum := source.resultNum
    annotatedResultNum := source.annotatedResultNum
    gaEntity := source.gaEntity
    caseAnalysisGaEntity := source.caseAnalysisGaEntity
    caseResultNum := source.caseResultNum
    filledElement := copyCells source.filledElement target.filledElement
    nonMatchElement := copyCells source.nonMatchElement target.nonMatchElement
    cfElementNum := copyCells source.cfElementNum target.cfElementNum
    tcfElementNum := copyCells source.tcfElementNum target.tcfElementNum
    tcfElementNumFunctional :=
      copyCells source.tcfElementNumFunctional target.tcfElementNumFunctional
    entityNum := copyCells source.entityNum target.entityNum
    elemBPtr := copyCells source.elemBPtr target.elemBPtr
    type := copyCells source.type target.type
    filledEntity := copyCells source.filledEntity target.filledEntity
    overtArgumentsScore := source.overtArgumentsScore
    allArgumentsScore := source.allArgumentsScore
    omitFeature := copyRows source.omitFeature target.omitFeature }

variable [LinearOrder S] (INITIAL_SCORE : S)

/-- The entries from `i` to the last move by one place. -/
def shiftCtm (i stop : Nat) (r : Nat → CfTagMgr S) : Nat → CfTagMgr S :=
  Loop.down (i + 1) stop (fun j r =>
    if INITIAL_SCORE < (r (j - 1)).score then
      Function.update r j (copyCtm (r (j - 1)) (r j))
    else r) r

/-- The result is stored at `i`. -/
def storeCtm (ctm : CfTagMgr S) (i stop : Nat) (r : Nat → CfTagMgr S) : Nat → CfTagMgr S :=
  let r := shiftCtm INITIAL_SCORE i stop r
  Function.update r i (copyCtm ctm (r i))

def preserveEllipsisResultCtm (ctm : CfTagMgr S) (start num : Nat) (r : Nat → CfTagMgr S) :
    Bool × (Nat → CfTagMgr S) :=
  match (List.range' start num).find? fun i => (r i).score < ctm.score with
  | none => (false, r)
  | some i => (true, storeCtm INITIAL_SCORE ctm i (start + num) r)

/-- The first entries hold `l`, the others up to `n` nothing. -/
structure ResultsHeld (n : Nat) (r : Nat → CfTagMgr S) (l : List (CfTagMgr S)) : Prop where
  length_le : l.length ≤ n
  entry : ∀ i < l.length, l[i]? = some (r i)
  empty : ∀ i, l.length ≤ i → i < n → (r i).score = INITIAL_SCORE
  above : ∀ c ∈ l, INITIAL_SCORE < c.score

end Array

/-! ## Copies -/

theorem foldl_update_apply {α : Type*} {n : Nat} {f : Fin n → α → α} {j : Fin n} {t : Fin n → α}
    {l : List (Fin n)} (hl : l.Nodup) :
    l.foldl (fun t i => Function.update t i (f i (t i))) t j =
      if j ∈ l then f j (t j) else t j := by
  induction l generalizing t with
  | nil => rfl
  | cons i l ih =>
      obtain ⟨hi, hl⟩ := List.nodup_cons.mp hl
      rw [List.foldl_cons, ih hl]
      by_cases hj : j = i
      · subst hj
        rw [if_neg hi, Function.update_self, if_pos List.mem_cons_self]
      · rw [Function.update_of_ne hj]
        simp [hj]

theorem copyCells_eq {α : Type*} {n : Nat} (source target : Fin n → α) :
    copyCells source target = source := by
  funext j
  rw [copyCells, foldl_update_apply (f := fun i _ => source i) (List.nodup_finRange n),
    if_pos (List.mem_finRange j)]

theorem copyRows_eq {α : Type*} {m n : Nat} (source target : Fin m → Fin n → α) :
    copyRows source target = source := by
  funext j
  rw [copyRows, foldl_update_apply (f := fun i t => copyCells (source i) t)
    (List.nodup_finRange m), if_pos (List.mem_finRange j), copyCells_eq]

/-- No field is forgotten. -/
theorem copyCtm_eq {S : Type*} (source target : CfTagMgr S) : copyCtm source target = source := by
  simp only [copyCtm, copyCells_eq, copyRows_eq]

/-! ## One result -/

section Store

variable {S : Type*} [LinearOrder S] {INITIAL_SCORE : S} {ctm : CfTagMgr S} {i k n stop : Nat}
  {r : Nat → CfTagMgr S} {l : List (CfTagMgr S)}

theorem shiftCtm_apply (hi : i + 1 ≤ stop) (k : Nat) :
    shiftCtm INITIAL_SCORE i stop r k =
      if i + 1 ≤ k ∧ k < stop ∧ INITIAL_SCORE < (r (k - 1)).score then r (k - 1) else r k := by
  refine Loop.down_induction _ (fun j (s : Nat → CfTagMgr S) => ∀ k, s k =
    if j ≤ k ∧ k < stop ∧ INITIAL_SCORE < (r (k - 1)).score then r (k - 1) else r k) hi ?_ ?_ k
  · intro j s hj hstop hs k
    have hprev : s (j - 1) = r (j - 1) := by
      rw [hs, if_neg (by omega)]
    rw [hprev]
    by_cases hk : k = j
    · subst hk
      split
      next hlt => rw [Function.update_self, copyCtm_eq, if_pos ⟨Nat.le_refl k, hstop, hlt⟩]
      next hle => rw [hs, if_neg (by omega), if_neg (fun h => hle h.2.2)]
    · have hsame : (if INITIAL_SCORE < (r (j - 1)).score then
          Function.update s j (copyCtm (r (j - 1)) (s j)) else s) k = s k := by
        split
        · exact Function.update_of_ne hk _ _
        · rfl
      rw [hsame, hs]
      have hiff : (j + 1 ≤ k ∧ k < stop ∧ INITIAL_SCORE < (r (k - 1)).score) ↔
          (j ≤ k ∧ k < stop ∧ INITIAL_SCORE < (r (k - 1)).score) := by
        constructor
        · rintro ⟨hle, hrest⟩
          exact ⟨by omega, hrest⟩
        · rintro ⟨hle, hrest⟩
          exact ⟨by omega, hrest⟩
      simp only [hiff]
  · intro k
    rw [if_neg (by omega)]

theorem storeCtm_apply (hi : i < stop) (k : Nat) :
    storeCtm INITIAL_SCORE ctm i stop r k =
      if k = i then ctm
      else if i + 1 ≤ k ∧ k < stop ∧ INITIAL_SCORE < (r (k - 1)).score then r (k - 1) else r k := by
  rw [storeCtm]
  split
  next hk => rw [hk, Function.update_self, copyCtm_eq]
  next hk => rw [Function.update_of_ne hk, shiftCtm_apply hi]

/-- What the array holds after an entry has been put between the others. -/
theorem ResultsHeld.store {front back : List (CfTagMgr S)}
    (h : ResultsHeld INITIAL_SCORE n r (front ++ back)) (hn : front.length < n) (hctm : INITIAL_SCORE < ctm.score) :
    ResultsHeld INITIAL_SCORE n (storeCtm INITIAL_SCORE ctm front.length n r)
      ((front ++ ctm :: back).take n) where
  length_le := (List.length_take_le _ _)
  entry k hk := by
    rw [List.length_take, List.length_append, List.length_cons] at hk
    have hlen : (front ++ back).length = front.length + back.length := List.length_append
    rw [List.getElem?_take_of_lt (by omega), storeCtm_apply hn]
    rcases Nat.lt_trichotomy k front.length with hlt | rfl | hgt
    · have hentry := h.entry k (by omega)
      rw [if_neg (by omega), if_neg (by omega), ← hentry, List.getElem?_append_left hlt,
        List.getElem?_append_left hlt]
    · rw [if_pos rfl, List.getElem?_append_right (Nat.le_refl _), Nat.sub_self]
      rfl
    · obtain ⟨j, rfl⟩ : ∃ j, k = front.length + (j + 1) :=
        ⟨k - front.length - 1, by omega⟩
      have hentry := h.entry (front.length + j) (by omega)
      have hscore : INITIAL_SCORE < (r (front.length + j)).score :=
        h.above _ (List.mem_of_getElem? hentry)
      rw [if_neg (by omega), show front.length + (j + 1) - 1 = front.length + j by omega,
        if_pos ⟨by omega, by omega, hscore⟩, ← hentry,
        List.getElem?_append_right (Nat.le_add_right _ _),
        List.getElem?_append_right (Nat.le_add_right _ _), Nat.add_sub_cancel_left,
        Nat.add_sub_cancel_left, List.getElem?_cons_succ]
  empty k hk hkn := by
    rw [List.length_take, List.length_append, List.length_cons] at hk
    have hlen : (front ++ back).length = front.length + back.length := List.length_append
    have hprev : (r (k - 1)).score = INITIAL_SCORE := h.empty (k - 1) (by omega) (by omega)
    rw [storeCtm_apply hn, if_neg (by omega), if_neg (fun hc => lt_irrefl _ (hprev ▸ hc.2.2))]
    exact h.empty k (by omega) hkn
  above c hc := by
    rcases List.mem_append.mp (List.mem_of_mem_take hc) with hc | hc
    · exact h.above c (List.mem_append_left _ hc)
    · rcases List.mem_cons.mp hc with rfl | hc
      · exact hctm
      · exact h.above c (List.mem_append_right _ hc)

theorem storeCtm_of_le (hi : i < stop) (hk : stop ≤ k) :
    storeCtm INITIAL_SCORE ctm i stop r k = r k := by
  rw [storeCtm_apply hi, if_neg (by omega), if_neg (by omega)]

/-- Nothing but the entries of `front` is at least as high. -/
structure Front (INITIAL_SCORE : S) (n : Nat) (r : Nat → CfTagMgr S) (ctm : CfTagMgr S)
    (front back : List (CfTagMgr S)) : Prop where
  holds : ResultsHeld INITIAL_SCORE n r (front ++ back)
  high : ∀ c ∈ front, ctm.score ≤ c.score
  low : ∀ c ∈ back.head?, c.score < ctm.score
  above : INITIAL_SCORE < ctm.score

theorem ResultsHeld.front (h : ResultsHeld INITIAL_SCORE n r l) (hctm : INITIAL_SCORE < ctm.score) :
    ∃ front back, Front INITIAL_SCORE n r ctm front back ∧ l = front ++ back ∧
      StableRank.place CfTagMgr.score ctm l = front ++ ctm :: back := by
  obtain ⟨front, back, rfl, hplace, hhigh, hlow⟩ :=
    StableRank.place_eq_append CfTagMgr.score ctm l
  exact ⟨front, back, ⟨h, hhigh, hlow, hctm⟩, rfl, hplace⟩

section Front

variable {front back : List (CfTagMgr S)} (h : Front INITIAL_SCORE n r ctm front back)

include h

theorem Front.le_of_lt (hi : i < front.length) : ctm.score ≤ (r i).score := by
  have hentry := h.holds.entry i (by rw [List.length_append]; omega)
  rw [List.getElem?_append_left hi] at hentry
  exact h.high _ (List.mem_of_getElem? hentry)

theorem Front.length_le : front.length ≤ n := by
  have hle := h.holds.length_le
  rw [List.length_append] at hle
  omega

/-- The first entry with a lower score. -/
theorem Front.lt (hn : front.length < n) : (r front.length).score < ctm.score := by
  cases back with
  | nil =>
      rw [h.holds.empty front.length (by rw [List.append_nil]) hn]
      exact h.above
  | cons c back =>
      have hentry := h.holds.entry front.length
        (by rw [List.length_append, List.length_cons]; omega)
      rw [List.getElem?_append_right (Nat.le_refl _), Nat.sub_self] at hentry
      obtain rfl := Option.some.inj hentry
      exact h.low _ rfl

theorem Front.find : (List.range' 0 n).find? (fun i => decide ((r i).score < ctm.score)) =
    if front.length < n then some front.length else none := by
  split
  next hn =>
    refine List.find?_range'_eq_some.mpr ⟨decide_eq_true (h.lt hn), ?_, ?_⟩
    · exact List.mem_range'_1.mpr ⟨Nat.zero_le _, by omega⟩
    · intro j _ hj
      rw [decide_eq_false (not_lt.mpr (h.le_of_lt hj))]
      rfl
  next hn =>
    refine List.find?_eq_none.mpr ?_
    intro j hj hlt
    have hj' := List.mem_range'_1.mp hj
    exact not_lt.mpr (h.le_of_lt (by omega)) (of_decide_eq_true hlt)

/-- The array afterwards, also where every entry is at least as high. -/
theorem Front.preserve :
    ResultsHeld INITIAL_SCORE n (preserveEllipsisResultCtm INITIAL_SCORE ctm 0 n r).2
      ((front ++ ctm :: back).take n) ∧
    ∀ k, n ≤ k → (preserveEllipsisResultCtm INITIAL_SCORE ctm 0 n r).2 k = r k := by
  rw [preserveEllipsisResultCtm, h.find]
  split_ifs with hn
  · dsimp only
    rw [Nat.zero_add]
    exact ⟨h.holds.store hn h.above, fun k hk => storeCtm_of_le hn hk⟩
  · have hle := h.holds.length_le
    rw [List.length_append] at hle
    have hlen : front.length = n := Nat.le_antisymm h.length_le (by omega)
    have hback : back = [] := List.eq_nil_of_length_eq_zero (by omega)
    have hholds := h.holds
    rw [hback, List.append_nil] at hholds
    rw [List.take_append_of_le_length (by omega), List.take_of_length_le (by omega)]
    exact ⟨hholds, fun _ _ => rfl⟩

end Front

end Store

/-! ## All results -/

section Results

variable {S : Type*} [LinearOrder S] {INITIAL_SCORE : S} {n : Nat} {r₀ : Nat → CfTagMgr S}
  {cs : List (CfTagMgr S)}

/-- The results are stored one after the other. -/
def preserveAll (INITIAL_SCORE : S) (n : Nat) (r : Nat → CfTagMgr S) (cs : List (CfTagMgr S)) :
    Nat → CfTagMgr S :=
  cs.foldl (fun r c => (preserveEllipsisResultCtm INITIAL_SCORE c 0 n r).2) r

theorem preserveAll_holds (hempty : ∀ i < n, (r₀ i).score = INITIAL_SCORE)
    (hcs : ∀ c ∈ cs, INITIAL_SCORE < c.score) :
    ResultsHeld INITIAL_SCORE n (preserveAll INITIAL_SCORE n r₀ cs)
      ((StableRank.ranking CfTagMgr.score cs).take n) ∧
    ∀ k, n ≤ k → preserveAll INITIAL_SCORE n r₀ cs k = r₀ k := by
  induction cs using List.reverseRecOn with
  | nil =>
      refine ⟨⟨?_, ?_, ?_, ?_⟩, fun _ _ => rfl⟩
      · exact List.length_take_le _ _
      · intro i hi
        rw [StableRank.ranking, List.foldl_nil, List.take_nil] at hi
        exact absurd hi (Nat.not_lt_zero i)
      · intro i _ hi
        exact hempty i hi
      · intro c hc
        rw [StableRank.ranking, List.foldl_nil, List.take_nil] at hc
        cases hc
  | append_singleton cs c ih =>
      obtain ⟨hholds, hrest⟩ := ih fun c' hc' => hcs c' (List.mem_append_left _ hc')
      obtain ⟨front, back, hfront, -, hplace⟩ :=
        hholds.front (hcs c (List.mem_append_right _ (List.mem_singleton_self c)))
      obtain ⟨hnew, hsame⟩ := hfront.preserve
      rw [preserveAll, List.foldl_append]
      refine ⟨?_, fun k hk => (hsame k hk).trans (hrest k hk)⟩
      rw [StableRank.ranking_append, ← StableRank.take_place, hplace]
      exact hnew

/-- `preserve_ellipsis_result_ctm`, for any sequence of results: the first entries are the first
of the stable ranking, the others stay empty, and nothing behind the array is written. -/
theorem preserveAll_ranking (hempty : ∀ i < n, (r₀ i).score = INITIAL_SCORE)
    (hcs : ∀ c ∈ cs, INITIAL_SCORE < c.score) :
    ∃ ranked, StableRank.IsRanking CfTagMgr.score cs ranked ∧
      (List.range (min n cs.length)).map (preserveAll INITIAL_SCORE n r₀ cs) = ranked.take n ∧
      (∀ i, cs.length ≤ i → i < n → (preserveAll INITIAL_SCORE n r₀ cs i).score = INITIAL_SCORE) ∧
      ∀ i, n ≤ i → preserveAll INITIAL_SCORE n r₀ cs i = r₀ i := by
  obtain ⟨hholds, hrest⟩ := preserveAll_holds hempty hcs
  have hrank := StableRank.ranking_isRanking CfTagMgr.score cs
  have hlen : ((StableRank.ranking CfTagMgr.score cs).take n).length = min n cs.length := by
    rw [List.length_take, hrank.perm.length_eq]
  refine ⟨_, hrank, ?_, ?_, hrest⟩
  · refine List.ext_getElem? fun i => ?_
    rw [List.getElem?_map]
    by_cases hi : i < min n cs.length
    · rw [List.getElem?_range hi, hholds.entry i (hlen ▸ hi)]
      rfl
    · rw [List.getElem?_eq_none (by rw [List.length_range]; omega),
        List.getElem?_eq_none (by omega)]
      rfl
  · intro i hi hin
    exact hholds.empty i (by omega) hin

/-- A result without any entity. -/
def resultOf (score : Int) : CfTagMgr Int where
  score := score
  scoreDef := 0
  caseAnalysisScore := 0
  cfPtr := 0
  filledElement _ := 0
  filledEntity _ := 0
  nonMatchElement _ := 0
  resultNum := 0
  caseResultNum := 0
  annotatedResultNum := 0
  cfElementNum _ := 0
  tcfElementNum _ := 0
  tcfElementNumFunctional _ := 0
  elemBPtr _ := 0
  entityNum _ := 0
  type _ := 'S'
  gaEntity := -1
  caseAnalysisGaEntity := -1
  overtArgumentsScore := 0
  allArgumentsScore := 0
  omitFeature _ _ := 0

/-- Two results in an array of ten. -/
theorem preserveAll_two : ∃ ranked,
    StableRank.IsRanking CfTagMgr.score [resultOf 3, resultOf 5] ranked ∧
      (List.range 2).map (preserveAll (-10000) 10 (fun _ => resultOf (-10000))
        [resultOf 3, resultOf 5]) = ranked.take 10 := by
  obtain ⟨ranked, hranked, hheld, -⟩ := @preserveAll_ranking Int _ (-10000) 10
    (fun _ => resultOf (-10000)) [resultOf 3, resultOf 5] (fun _ _ => rfl) (fun c hc => by
      rcases List.mem_cons.mp hc with rfl | hc
      · exact (by decide : (-10000 : Int) < 3)
      · rw [List.mem_singleton.mp hc]
        exact (by decide : (-10000 : Int) < 5))
  exact ⟨ranked, hranked, hheld⟩

end Results

end Knp
