import Mathlib.Data.List.Nodup
import Mathlib.Data.List.Range
import Mathlib.Tactic.Common

/-!
# The flat search for an antecedent (`context.c`)

With `OPT_DISC_FLAT`, `EllipsisDetectForVerb` offers the tags around the predicate to
`EllipsisDetectOne`, one step farther on either side each time, and then the tags of the sentences
before, each from its end. It stops as soon as the best candidate passes `ScoreCheck`.

> The distance runs up to `max_n`, which is that of the farthest tag, and does not reach it.

So every tag of the sentence is offered but the ones that are `max_n` away from the predicate.
-/

namespace Knp

/-- A tag, and how many sentences before the one of the predicate it is. -/
structure Offer where
  back : Nat
  num : Nat
deriving DecidableEq

/-- What the search for one case of a predicate depends on; `σ` is what is known of the best
candidate so far. -/
structure FlatTask (σ : Type) where
  /-- `Tag_num` of `cs - back` -/
  tagNum : Nat → Nat
  /-- `cs - sentence_data` -/
  earlier : Nat
  prevSentenceLimit : Nat
  /-- `cpm_ptr->pred_b_ptr->num` -/
  predNum : Nat
  predNum_lt : predNum < tagNum 0
  /-- The first member of the coordination that a tag is the head of, or the tag. -/
  member : Offer → Offer
  checkAppropriateCandidate : Offer → Bool
  ellipsisDetectSubcontract : Offer → σ → σ
  scoreCheck : σ → Bool

/-- The best candidate, and what has been offered to `EllipsisDetectOne`. -/
structure FlatState (σ : Type) where
  best : σ
  offered : List Offer

namespace FlatTask

variable {σ : Type} (e : FlatTask σ)

/-- The score test inside is made again by the caller. -/
def ellipsisDetectOne (c : Offer) (best : σ) : σ :=
  if e.checkAppropriateCandidate (e.member c) then e.ellipsisDetectSubcontract (e.member c) best
  else best

def offer (c : Offer) (s : FlatState σ) : FlatState σ where
  best := e.ellipsisDetectOne c s.best
  offered := s.offered ++ [c]

/-- The tags at the distance `i`: one on the left and one on the right, if they are there. -/
def offerAround (i : Nat) (s : FlatState σ) : FlatState σ :=
  let s := if i ≤ e.predNum then e.offer ⟨0, e.predNum - i⟩ s else s
  if e.predNum + i < e.tagNum 0 then e.offer ⟨0, e.predNum + i⟩ s else s

def maxN : Nat :=
  let postN := e.tagNum 0 - e.predNum - 1
  let preN := e.predNum
  if postN > preN then postN else preN

/-- 対象文: the state at the end, and whether the search has gone to `EvalAntecedent`. -/
def currentLoop : List Nat → FlatState σ → FlatState σ × Bool
  | [], s => (s, false)
  | i :: is, s =>
      let s := e.offerAround i s
      if e.scoreCheck s.best then (s, true) else currentLoop is s

/-- One of the sentences before. -/
def sentenceLoop (j : Nat) : List Nat → FlatState σ → FlatState σ × Bool
  | [], s => (s, false)
  | i :: is, s =>
      let s := e.offer ⟨j, i⟩ s
      if e.scoreCheck s.best then (s, true) else sentenceLoop j is s

/-- 前文以前 -/
def previousLoop : List Nat → FlatState σ → FlatState σ × Bool
  | [], s => (s, false)
  | j :: js, s =>
      if e.earlier < j then (s, false)
      else match e.sentenceLoop j (List.range (e.tagNum j)).reverse s with
        | (s, true) => (s, true)
        | (s, false) => previousLoop js s

def flatSearch (best : σ) : FlatState σ × Bool :=
  match e.currentLoop (List.range' 1 (e.maxN - 1)) ⟨best, []⟩ with
  | (s, true) => (s, true)
  | (s, false) => e.previousLoop (List.range' 1 e.prevSentenceLimit) s

/-! ## What is to be offered -/

def distance (n : Nat) : Nat := if n ≤ e.predNum then e.predNum - n else n - e.predNum

/-- The tags of the sentences before, each from its end. -/
def previousOffers : List Offer :=
  (List.range' 1 (min e.prevSentenceLimit e.earlier)).flatMap fun j =>
    (List.range (e.tagNum j)).reverse.map fun i => ⟨j, i⟩

/-- Every tag of the sentence but the predicate once, the nearest first. -/
structure AroundOnce (current : List Nat) : Prop where
  nodup : current.Nodup
  mem_iff : ∀ n, n ∈ current ↔ n < e.tagNum 0 ∧ n ≠ e.predNum
  sorted : current.Pairwise fun m n => e.distance m ≤ e.distance n

def Exhausts (offered : List Offer) : Prop :=
  ∃ current, offered = current.map (Offer.mk 0) ++ e.previousOffers ∧ e.AroundOnce current

/-! ## The runs -/

/-- The tags at the distance `i`. -/
def around (i : Nat) : List Nat :=
  (if i ≤ e.predNum then [e.predNum - i] else []) ++
    if e.predNum + i < e.tagNum 0 then [e.predNum + i] else []

theorem offerAround_offered (i : Nat) (s : FlatState σ) :
    (e.offerAround i s).offered = s.offered ++ (e.around i).map (Offer.mk 0) := by
  unfold offerAround around
  by_cases hpre : i ≤ e.predNum
  · by_cases hpost : e.predNum + i < e.tagNum 0
    · simp [hpre, hpost, offer]
    · simp [hpre, hpost, offer]
  · by_cases hpost : e.predNum + i < e.tagNum 0
    · simp [hpre, hpost, offer]
    · simp [hpre, hpost]

theorem currentLoop_offered {is : List Nat} {s : FlatState σ} (h : (e.currentLoop is s).2 = false) :
    (e.currentLoop is s).1.offered =
      s.offered ++ (is.flatMap e.around).map (Offer.mk 0) := by
  induction is generalizing s with
  | nil => simp [currentLoop]
  | cons i is ih =>
      rw [currentLoop] at h ⊢
      cases hscore : e.scoreCheck (e.offerAround i s).best with
      | true => simp [hscore] at h
      | false =>
          simp only [hscore, Bool.false_eq_true, if_false] at h ⊢
          rw [ih h, offerAround_offered, List.flatMap_cons, List.map_append, List.append_assoc]

theorem sentenceLoop_offered {j : Nat} {is : List Nat} {s : FlatState σ}
    (h : (e.sentenceLoop j is s).2 = false) :
    (e.sentenceLoop j is s).1.offered = s.offered ++ is.map (Offer.mk j) := by
  induction is generalizing s with
  | nil => simp [sentenceLoop]
  | cons i is ih =>
      rw [sentenceLoop] at h ⊢
      cases hscore : e.scoreCheck (e.offer ⟨j, i⟩ s).best with
      | true => simp [hscore] at h
      | false =>
          simp only [hscore, Bool.false_eq_true, if_false] at h ⊢
          rw [ih h, offer, List.append_assoc]
          rfl

/-- The sentences from `j` on; behind the first one of the text there are none. -/
theorem previousLoop_offered {j n : Nat} {s : FlatState σ}
    (h : (e.previousLoop (List.range' j n) s).2 = false) :
    (e.previousLoop (List.range' j n) s).1.offered =
      s.offered ++ (List.range' j (min n (e.earlier + 1 - j))).flatMap fun j =>
        (List.range (e.tagNum j)).reverse.map (Offer.mk j) := by
  induction n generalizing j s with
  | zero => simp [previousLoop]
  | succ n ih =>
      rw [List.range'_succ] at h ⊢
      rw [previousLoop] at h ⊢
      by_cases hj : e.earlier < j
      · have hnone : e.earlier + 1 - j = 0 := by omega
        simp [hj, hnone]
      · have hcount : min (n + 1) (e.earlier + 1 - j) = min n (e.earlier + 1 - (j + 1)) + 1 := by
          omega
        rw [if_neg hj] at h ⊢
        rw [hcount, List.range'_succ, List.flatMap_cons]
        generalize hloop : e.sentenceLoop j (List.range (e.tagNum j)).reverse s = r at h ⊢
        obtain ⟨s', flag⟩ := r
        cases flag with
        | true => cases h
        | false =>
            have hs := e.sentenceLoop_offered (congrArg Prod.snd hloop)
            rw [hloop] at hs
            dsimp only at h hs ⊢
            rw [ih h, hs, List.append_assoc]

/-- **What is offered if no candidate passes the score test.** -/
theorem flatSearch_offered {best : σ} (h : (e.flatSearch best).2 = false) :
    (e.flatSearch best).1.offered =
      ((List.range' 1 (e.maxN - 1)).flatMap e.around).map (Offer.mk 0) ++ e.previousOffers := by
  unfold flatSearch at h ⊢
  generalize hloop : e.currentLoop (List.range' 1 (e.maxN - 1)) ⟨best, []⟩ = r at h ⊢
  obtain ⟨s, flag⟩ := r
  cases flag with
  | true => cases h
  | false =>
      have hs := e.currentLoop_offered (congrArg Prod.snd hloop)
      rw [hloop, List.nil_append] at hs
      dsimp only at h hs ⊢
      rw [e.previousLoop_offered h, hs, Nat.add_sub_cancel]
      rfl

/-! ## The sentence of the predicate -/

theorem mem_around {i n : Nat} (hi : 0 < i) :
    n ∈ e.around i ↔ n < e.tagNum 0 ∧ e.distance n = i := by
  have hpred := e.predNum_lt
  unfold around distance
  rw [List.mem_append]
  split
  next hpre =>
    split
    next hpost =>
      rw [List.mem_singleton, List.mem_singleton]
      split <;> omega
    next hpost =>
      rw [List.mem_singleton, or_iff_left List.not_mem_nil]
      split <;> omega
  next hpre =>
    split
    next hpost =>
      rw [List.mem_singleton, or_iff_right List.not_mem_nil]
      split <;> omega
    next hpost =>
      rw [or_iff_left List.not_mem_nil, iff_false_left List.not_mem_nil]
      split <;> omega

theorem around_nodup {i : Nat} (hi : 0 < i) : (e.around i).Nodup := by
  unfold around
  split
  next =>
    split
    next =>
      rw [List.singleton_append, List.nodup_cons, List.mem_singleton]
      exact ⟨by omega, List.nodup_singleton _⟩
    next => exact List.nodup_singleton _
  next =>
    split
    next => exact List.nodup_singleton _
    next => exact List.nodup_nil

/-- The tags at the distances `1, ..., n`. -/
theorem mem_flatMap_around {n k : Nat} :
    k ∈ (List.range' 1 n).flatMap e.around ↔
      k < e.tagNum 0 ∧ 0 < e.distance k ∧ e.distance k ≤ n := by
  rw [List.mem_flatMap]
  constructor
  · rintro ⟨i, hi, hk⟩
    rw [List.mem_range'_1] at hi
    obtain ⟨hlt, hdist⟩ := (e.mem_around hi.1).mp hk
    exact ⟨hlt, by omega, by omega⟩
  · rintro ⟨hlt, hpos, hle⟩
    exact ⟨e.distance k, List.mem_range'_1.mpr ⟨hpos, by omega⟩, (e.mem_around hpos).mpr ⟨hlt, rfl⟩⟩

theorem flatMap_around_nodup (n : Nat) : ((List.range' 1 n).flatMap e.around).Nodup := by
  rw [List.nodup_flatMap]
  refine ⟨fun i hi => e.around_nodup (List.mem_range'_1.mp hi).1, ?_⟩
  refine List.Pairwise.imp_of_mem ?_ List.nodup_range'
  intro i j hi hj hij k hki hkj
  have hki := ((e.mem_around (List.mem_range'_1.mp hi).1).mp hki).2
  have hkj := ((e.mem_around (List.mem_range'_1.mp hj).1).mp hkj).2
  exact hij (hki.symm.trans hkj)

theorem flatMap_around_sorted (n : Nat) :
    ((List.range' 1 n).flatMap e.around).Pairwise fun k l => e.distance k ≤ e.distance l := by
  rw [List.pairwise_flatMap]
  constructor
  · intro i hi
    have hpos := (List.mem_range'_1.mp hi).1
    refine List.pairwise_of_forall_mem_list ?_
    intro k hk l hl
    rw [((e.mem_around hpos).mp hk).2, ((e.mem_around hpos).mp hl).2]
  · refine List.Pairwise.imp_of_mem ?_ List.pairwise_lt_range'
    intro i j hi hj hij k hk l hl
    rw [((e.mem_around (List.mem_range'_1.mp hi).1).mp hk).2,
      ((e.mem_around (List.mem_range'_1.mp hj).1).mp hl).2]
    exact hij.le

theorem distance_pos {k : Nat} : 0 < e.distance k ↔ k ≠ e.predNum := by
  unfold distance
  split <;> omega

/-- Some tag is `maxN` away, and none is farther. -/
theorem exists_distance_maxN : ∃ k < e.tagNum 0, e.distance k = e.maxN := by
  have hpred := e.predNum_lt
  unfold distance maxN
  dsimp only
  split
  next h => exact ⟨e.tagNum 0 - 1, by omega, by rw [if_neg (by omega)]; omega⟩
  next h => exact ⟨0, by omega, by rw [if_pos (Nat.zero_le _)]; rfl⟩

theorem maxN_eq_zero : e.maxN = 0 ↔ e.tagNum 0 = 1 := by
  have hpred := e.predNum_lt
  unfold maxN
  dsimp only
  split <;> omega

/-- **When every tag is offered.** -/
theorem exhausts_iff {best : σ} (h : (e.flatSearch best).2 = false) :
    e.Exhausts (e.flatSearch best).1.offered ↔ e.tagNum 0 = 1 := by
  rw [e.flatSearch_offered h]
  constructor
  · rintro ⟨current, heq, hcurrent⟩
    have hinj : Function.Injective (Offer.mk 0) := fun m n hmn => (Offer.mk.inj hmn).2
    obtain rfl := hinj.list_map (List.append_cancel_right heq)
    by_contra hone
    -- the farthest tag is to be offered
    obtain ⟨k, hk, hdist⟩ := e.exists_distance_maxN
    have hmax : 0 < e.maxN := Nat.pos_of_ne_zero (mt e.maxN_eq_zero.mp hone)
    have hne : k ≠ e.predNum := e.distance_pos.mp (hdist.symm ▸ hmax)
    have hnear := (e.mem_flatMap_around.mp ((hcurrent.mem_iff k).mpr ⟨hk, hne⟩)).2.2
    omega
  · intro hone
    refine ⟨_, rfl, e.flatMap_around_nodup _, ?_, e.flatMap_around_sorted _⟩
    intro n
    have hpred := e.predNum_lt
    have hmax := e.maxN_eq_zero.mpr hone
    rw [mem_flatMap_around, distance_pos]
    omega

end FlatTask

/-- 「本を読む」: a predicate behind its only argument, at the beginning of a text, and no
candidate that is good enough. -/
def honTask : FlatTask Unit where
  tagNum _ := 2
  earlier := 0
  prevSentenceLimit := 2
  predNum := 1
  predNum_lt := by decide
  member := id
  checkAppropriateCandidate _ := true
  ellipsisDetectSubcontract _ := id
  scoreCheck _ := false

/-- 「本」 is not offered. -/
theorem honTask_misses : (honTask.flatSearch ()).2 = false ∧
    ¬honTask.Exhausts (honTask.flatSearch ()).1.offered := by
  refine ⟨rfl, ?_⟩
  rintro ⟨current, hoffered, hcurrent⟩
  have hnone : (honTask.flatSearch ()).1.offered = [] := rfl
  obtain ⟨hnil, -⟩ := List.append_eq_nil_iff.mp (hoffered.symm.trans hnone)
  obtain rfl := List.map_eq_nil_iff.mp hnil
  exact absurd ((hcurrent.mem_iff 0).mpr (by decide)) List.not_mem_nil

theorem honTask_exhausts_iff :
    honTask.Exhausts (honTask.flatSearch ()).1.offered ↔ honTask.tagNum 0 = 1 :=
  honTask.exhausts_iff rfl

end Knp
