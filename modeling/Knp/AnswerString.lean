import Mathlib.Data.List.Perm.Basic
import Knp.CcString
import Knp.InsertBefore
import Knp.ResultRank
import Knp.Scanf

/-!
# The answers of the system and of the corpus (`anaphora.c`)

`make_aresult_string` writes the entities that a result gives to the cases, and
`make_gresult_strings` those of the mentions of a tag. Both sort the entities of a case by
insertion, one of them without the place at the end.

> Both write the same text, with all entities in order, just if in each case the first entity of
> the result is greater than all others, but for those that are not written.

The buffers are taken to be long enough.
-/

namespace Knp

open InsertBefore Scanf

/-- The first four of `ELLIPSIS_CASE_LIST_VERB`. -/
def ellipsisCaseListVerb : List (List UInt8) := ["ガ", "ヲ", "ニ", "ガ２"].map utf8

/-- An argument of a result: its case, and the number of its entity. -/
structure ResultArg where
  pp : Int
  entity : Fin ENTITY_MAX

/-- A cell of `MENTION_MGR` from 1 on. -/
structure TagMention where
  type : Char
  cppString : List UInt8
  entity : Fin ENTITY_MAX

/-- `OptAnaphora` and `hypothetical_flag`. -/
structure AnswerEnv where
  optUnnamedEntity : Bool
  optTrain : Bool
  optGs : Bool
  hypotheticalFlag : Nat → Bool

/-- One entity comes to `entity_num`, where the cells in `scanned` are looked at. -/
def storeNum (scanned : List Nat) (n : Nat) (entityNum : List Nat) : List Nat :=
  if entityNum = [] then [n]
  else match scanned.findIdx? (n < ·) with
    | some i => entityNum.insertIdx i n
    | none => entityNum

/-- The loop of `make_aresult_string`: `i < mention_num`. -/
def aresultNums (ns : List Nat) : List Nat := ns.foldl (fun l n => storeNum l n l) []

/-- The loop of `make_gresult_strings`: `i <= mention_num`. -/
def gresultNums (ns : List Nat) : List Nat :=
  ns.foldl (fun l n => storeNum (l ++ [ENTITY_MAX]) n l) []

/-- `" %s:%d"` -/
def writeNum (c : List UInt8) (n : Nat) : List UInt8 := utf8 " " ++ c ++ utf8 ":" ++ putNat n

def writeNums (skip : Nat → Bool) (c : List UInt8) (l : List Nat) : List UInt8 :=
  ((l.takeWhile (· ≠ ENTITY_MAX)).filter (!skip ·)).flatMap (writeNum c)

/-- The entities of a case, in the order of the result. -/
def resultNums (result : List ResultArg) (c : List UInt8) : List Nat :=
  (result.filter fun a => ppCodeToKstr a.pp = some c).map (·.entity.val)

def mentionNums (mentions : List TagMention) (c : List UInt8) : List Nat :=
  (mentions.filter fun m =>
    (m.type = 'O' || m.type = 'E' || m.type = 'C') && m.cppString = c).map (·.entity.val)

namespace AnswerEnv

variable (env : AnswerEnv)

/-- The options leave hypothetical entities out. -/
def leavesOut : Bool := !env.optUnnamedEntity && (env.optTrain || env.optGs)

def makeAresultString (result : List ResultArg) : List UInt8 :=
  ellipsisCaseListVerb.flatMap fun c =>
    writeNums (fun n => env.leavesOut && env.hypotheticalFlag n) c
      (aresultNums (resultNums result c))

def makeGresultStrings (mentions : List TagMention) : List UInt8 :=
  ellipsisCaseListVerb.flatMap fun c =>
    writeNums (fun n => env.leavesOut && decide (n < UNNAMED_ENTITY_NUM)) c
      (gresultNums (mentionNums mentions c))

/-- All entities of the cases that the options do not leave out, in order. -/
def listing (result : List ResultArg) : List UInt8 :=
  ellipsisCaseListVerb.flatMap fun c =>
    (((resultNums result c).insertionSort (· ≤ ·)).filter fun n =>
      !(env.leavesOut && decide (n < UNNAMED_ENTITY_NUM))).flatMap (writeNum c)

structure AnswersAgree (result : List ResultArg) (mentions : List TagMention) : Prop where
  same : env.makeAresultString result = env.makeGresultStrings mentions
  listed : env.makeAresultString result = env.listing result

/-- The first number is greater than the others that are written. -/
def FirstGreatest : List Nat → Prop
  | [] => True
  | n :: ns => ∀ m ∈ ns, m < n ∨ env.leavesOut = true ∧ m < UNNAMED_ENTITY_NUM

instance : DecidablePred env.FirstGreatest
  | [] => isTrue trivial
  | n :: ns => inferInstanceAs
      (Decidable (∀ m ∈ ns, m < n ∨ env.leavesOut = true ∧ m < UNNAMED_ENTITY_NUM))

end AnswerEnv

/-- The mentions hold the pairs of the result, in any order. -/
structure SamePairs (result : List ResultArg) (mentions : List TagMention) : Prop where
  perm : (result.map fun a => (ppCodeToKstr a.pp, a.entity)).Perm
    (mentions.map fun m => (some m.cppString, m.entity))
  type : ∀ m ∈ mentions, m.type = 'C' ∨ m.type = 'O' ∨ m.type = 'E'

/-! ## Sorting -/

section Nums

variable {l ns : List Nat} {n : Nat} {result : List ResultArg} {mentions : List TagMention}
  {c : List UInt8}

theorem storeNum_self (hl : l ≠ []) : storeNum l n l = insertInside n l := by
  rw [storeNum, if_neg hl, insertInside]
  cases hidx : l.findIdx? (n < ·) with
  | none =>
      have hall := List.findIdx?_eq_none_iff.mp hidx
      rw [if_neg]
      rw [List.any_eq_true]
      rintro ⟨m, hm, hnm⟩
      exact absurd hnm (Bool.eq_false_iff.mp (hall m hm))
  | some i =>
      obtain ⟨hi, rfl⟩ := List.findIdx?_eq_some_iff_findIdx_eq.mp hidx
      rw [if_pos (List.any_eq_true.mpr ⟨_, List.getElem_mem hi, List.findIdx_getElem⟩)]
      rfl

theorem storeNum_sentinel (hn : n < ENTITY_MAX) :
    storeNum (l ++ [ENTITY_MAX]) n l = insertBefore n l := by
  have hidx : (l ++ [ENTITY_MAX]).findIdx (n < ·) = l.findIdx (n < ·) := by
    have hlast : [ENTITY_MAX].findIdx (n < ·) = 0 := by
      rw [List.findIdx_cons, decide_eq_true hn]
      rfl
    rw [List.findIdx_append, hlast]
    split_ifs with h
    · rfl
    · rw [Nat.zero_add]
      exact (Nat.le_antisymm List.findIdx_le_length (Nat.not_lt.mp h)).symm
  have hsome : (l ++ [ENTITY_MAX]).findIdx? (n < ·) = some (l.findIdx (n < ·)) := by
    refine List.findIdx?_eq_some_iff_findIdx_eq.mpr ⟨?_, hidx⟩
    rw [List.length_append, List.length_singleton]
    exact Nat.lt_succ_of_le List.findIdx_le_length
  rw [storeNum, hsome]
  split_ifs with hl
  · rw [hl]
    rfl
  · rfl

/-- Two sorted lists of the same elements. -/
theorem eq_insertionSort (hl : l.Pairwise (· ≤ ·)) (hperm : l.Perm ns) :
    l = ns.insertionSort (· ≤ ·) :=
  List.Perm.eq_of_pairwise' hl (List.pairwise_insertionSort _ ns)
    (hperm.trans (List.perm_insertionSort _ ns).symm)

theorem gresultNums_eq (hns : ∀ n ∈ ns, n < ENTITY_MAX) :
    gresultNums ns = ns.insertionSort (· ≤ ·) := by
  have hfold : ∀ (ns l : List Nat), (∀ n ∈ ns, n < ENTITY_MAX) →
      ns.foldl (fun l n => storeNum (l ++ [ENTITY_MAX]) n l) l =
        ns.foldl (fun l n => insertBefore n l) l := by
    intro ns
    induction ns with
    | nil => exact fun l _ => rfl
    | cons n ns ih =>
        intro l hns
        rw [List.foldl_cons, List.foldl_cons, storeNum_sentinel (hns n List.mem_cons_self),
          ih _ fun m hm => hns m (List.mem_cons_of_mem n hm)]
  obtain ⟨hsorted, hperm⟩ := foldl_insertBefore ns (l := []) List.Pairwise.nil
  rw [gresultNums, hfold ns [] hns]
  exact eq_insertionSort hsorted hperm

theorem insertInside_ne_nil (n : Nat) (hl : l ≠ []) : insertInside n l ≠ [] := by
  rw [insertInside]
  split_ifs
  · intro hnil
    have hlen := (insertBefore_perm n l).length_eq
    rw [hnil] at hlen
    cases hlen
  · exact hl

/-- Only those below the first number come in. -/
theorem aresultNums_cons (n : Nat) (ns : List Nat) :
    aresultNums (n :: ns) = (n :: ns.filter (· < n)).insertionSort (· ≤ ·) := by
  have hfold : ∀ (ns l : List Nat), l ≠ [] → ns.foldl (fun l n => storeNum l n l) l =
      ns.foldl (fun l n => insertInside n l) l := by
    intro ns
    induction ns with
    | nil => exact fun l _ => rfl
    | cons n ns ih =>
        intro l hl
        rw [List.foldl_cons, List.foldl_cons, storeNum_self hl, ih _ (insertInside_ne_nil n hl)]
  obtain ⟨hsorted, hperm⟩ := foldl_insertInside ns (List.pairwise_singleton (· ≤ ·) n)
    (List.mem_singleton_self n) fun k hk => (List.mem_singleton.mp hk).le
  have hstart : aresultNums (n :: ns) = ns.foldl (fun l n => storeNum l n l) [n] := rfl
  rw [hstart, hfold ns [n] (List.cons_ne_nil n [])]
  exact eq_insertionSort hsorted hperm

theorem lt_of_mem_resultNums (h : n ∈ resultNums result c) : n < ENTITY_MAX := by
  obtain ⟨a, -, rfl⟩ := List.mem_map.mp h
  exact a.entity.isLt

theorem lt_of_mem_mentionNums (h : n ∈ mentionNums mentions c) : n < ENTITY_MAX := by
  obtain ⟨m, -, rfl⟩ := List.mem_map.mp h
  exact m.entity.isLt

theorem nums_perm (h : SamePairs result mentions) (c : List UInt8) :
    (resultNums result c).Perm (mentionNums mentions c) := by
  have hperm := (h.perm.filter (fun q => q.1 = some c)).map (fun q => q.2.val)
  rw [List.filter_map, List.filter_map, List.map_map, List.map_map] at hperm
  have hmentions : mentions.filter (fun m =>
      (m.type = 'O' || m.type = 'E' || m.type = 'C') && m.cppString = c) =
      mentions.filter fun m => decide (some m.cppString = some c) := by
    refine List.filter_congr fun m hm => ?_
    have htype :
        (decide (m.type = 'O') || decide (m.type = 'E') || decide (m.type = 'C')) = true := by
      rcases h.type m hm with heq | heq | heq <;> rw [heq] <;> rfl
    rw [htype, Bool.true_and]
    exact decide_eq_decide.mpr Option.some_inj.symm
  rw [mentionNums, hmentions]
  exact hperm

/-- No entity has the number of the sentinel. -/
theorem writeNums_eq (skip : Nat → Bool) (c : List UInt8) (h : ∀ n ∈ l, n < ENTITY_MAX) :
    writeNums skip c l = (l.filter (!skip ·)).flatMap (writeNum c) := by
  rw [writeNums, List.takeWhile_eq_self_iff.mpr fun n hn => decide_eq_true (h n hn).ne]

end Nums

/-! ## Agreement -/

/-- The numbers that come in, and those that do not. -/
def keptNums : List Nat → List Nat
  | [] => []
  | n :: ns => n :: ns.filter (· < n)

def droppedNums : List Nat → List Nat
  | [] => []
  | n :: ns => ns.filter fun m => !decide (m < n)

namespace AnswerEnv

variable {env : AnswerEnv} {result : List ResultArg} {mentions : List TagMention} {c : List UInt8}
  {l l' : List Nat}

/-- What is written of some numbers. -/
def pieces (env : AnswerEnv) (c : List UInt8) (l : List Nat) : List UInt8 :=
  (l.filter fun n => !(env.leavesOut && decide (n < UNNAMED_ENTITY_NUM))).flatMap (writeNum c)

theorem length_pieces_of_perm (h : l.Perm l') :
    (env.pieces c l).length = (env.pieces c l').length :=
  ((h.filter _).flatMap_right _).length_eq

theorem perm_kept_dropped (l : List Nat) : l.Perm (keptNums l ++ droppedNums l) := by
  cases l with
  | nil => exact List.Perm.refl _
  | cons n ns => exact (List.filter_append_perm (fun m => decide (m < n)) ns).symm.cons n

theorem length_pieces (c : List UInt8) (l : List Nat) : (env.pieces c l).length =
    (env.pieces c (keptNums l)).length + (env.pieces c (droppedNums l)).length := by
  rw [length_pieces_of_perm (perm_kept_dropped l), pieces, List.filter_append, List.flatMap_append,
    List.length_append]
  rfl

theorem writeNum_ne_nil (c : List UInt8) (n : Nat) : writeNum c n ≠ [] := by
  have hspace : utf8 " " = [32] := rfl
  rw [writeNum, hspace, List.append_assoc, List.append_assoc]
  exact List.cons_ne_nil 32 _

theorem firstGreatest_iff (c : List UInt8) (l : List Nat) :
    env.FirstGreatest l ↔ env.pieces c (droppedNums l) = [] := by
  cases l with
  | nil => exact iff_of_true trivial rfl
  | cons n ns =>
      have hleft : ∀ m, (!(env.leavesOut && decide (m < UNNAMED_ENTITY_NUM))) = true ↔
          ¬(env.leavesOut = true ∧ m < UNNAMED_ENTITY_NUM) := by
        intro m
        rw [Bool.not_eq_true', Bool.and_eq_false_iff, not_and_or, Bool.not_eq_true,
          decide_eq_false_iff_not]
      rw [pieces, List.flatMap_eq_nil_iff]
      constructor
      · intro hfirst m hm
        obtain ⟨hm, hwritten⟩ := List.mem_filter.mp hm
        obtain ⟨hmem, hge⟩ := List.mem_filter.mp hm
        rw [Bool.not_eq_true', decide_eq_false_iff_not] at hge
        exact absurd ((hfirst m hmem).resolve_left hge) ((hleft m).mp hwritten)
      · intro hnone m hm
        by_contra hnot
        obtain ⟨hge, hwritten⟩ := not_or.mp hnot
        have hdropped : m ∈ droppedNums (n :: ns) :=
          List.mem_filter.mpr ⟨hm, by rw [decide_eq_false hge]; rfl⟩
        exact writeNum_ne_nil c m
          (hnone m (List.mem_filter.mpr ⟨hdropped, (hleft m).mpr hwritten⟩))

/-! ## The two texts -/

theorem aresultNums_eq (l : List Nat) :
    aresultNums l = (keptNums l).insertionSort (· ≤ ·) := by
  cases l with
  | nil => rfl
  | cons n ns => exact aresultNums_cons n ns

theorem pieces_insertionSort (c : List UInt8) (l : List Nat) :
    (env.pieces c (l.insertionSort (· ≤ ·))).length = (env.pieces c l).length :=
  length_pieces_of_perm (List.perm_insertionSort _ l)

theorem mem_keptNums {n : Nat} (h : n ∈ keptNums l) : n ∈ l := by
  cases l with
  | nil => exact h
  | cons m ns =>
      rcases List.mem_cons.mp h with rfl | h
      · exact List.mem_cons_self
      · exact List.mem_cons_of_mem m (List.mem_of_mem_filter h)

theorem writeNums_hypothetical
    (hhyp : ∀ n < ENTITY_MAX, env.hypotheticalFlag n = true ↔ n < UNNAMED_ENTITY_NUM)
    (h : ∀ n ∈ l, n < ENTITY_MAX) :
    writeNums (fun n => env.leavesOut && env.hypotheticalFlag n) c l = env.pieces c l := by
  rw [writeNums_eq _ _ h, pieces]
  refine congrArg (List.flatMap (writeNum c)) (List.filter_congr fun n hn => ?_)
  rw [Bool.eq_iff_iff.mpr ((hhyp n (h n hn)).trans decide_eq_true_iff.symm)]

theorem makeAresultString_eq
    (hhyp : ∀ n < ENTITY_MAX, env.hypotheticalFlag n = true ↔ n < UNNAMED_ENTITY_NUM)
    (result : List ResultArg) : env.makeAresultString result = ellipsisCaseListVerb.flatMap fun c =>
      env.pieces c ((keptNums (resultNums result c)).insertionSort (· ≤ ·)) := by
  refine List.flatMap_congr fun c _ => ?_
  rw [aresultNums_eq]
  exact writeNums_hypothetical hhyp fun n hn =>
    lt_of_mem_resultNums (mem_keptNums ((List.mem_insertionSort _).mp hn))

/-- The mentions are listed as they should be. -/
theorem makeGresultStrings_eq (h : SamePairs result mentions) :
    env.makeGresultStrings mentions = env.listing result := by
  refine List.flatMap_congr fun c _ => ?_
  have hsort : (mentionNums mentions c).insertionSort (· ≤ ·) =
      (resultNums result c).insertionSort (· ≤ ·) :=
    eq_insertionSort (List.pairwise_insertionSort _ _)
      ((List.perm_insertionSort _ _).trans (nums_perm h c).symm)
  rw [gresultNums_eq fun n => lt_of_mem_mentionNums, hsort]
  exact writeNums_eq _ _ fun n hn => lt_of_mem_resultNums ((List.mem_insertionSort _).mp hn)

theorem length_flatMap_le {α : Type*} {f g : α → List UInt8} {cs : List α}
    (hle : ∀ c ∈ cs, (f c).length ≤ (g c).length) :
    (cs.flatMap f).length ≤ (cs.flatMap g).length := by
  induction cs with
  | nil => exact le_rfl
  | cons c cs ih =>
      rw [List.flatMap_cons, List.flatMap_cons, List.length_append, List.length_append]
      exact Nat.add_le_add (hle c List.mem_cons_self)
        (ih fun d hd => hle d (List.mem_cons_of_mem c hd))

/-- Texts of the same length, made of parts none of which is longer in the first. -/
theorem length_eq_of_flatMap {α : Type*} {f g : α → List UInt8} {cs : List α}
    (hle : ∀ c ∈ cs, (f c).length ≤ (g c).length)
    (heq : (cs.flatMap f).length = (cs.flatMap g).length) :
    ∀ c ∈ cs, (f c).length = (g c).length := by
  induction cs with
  | nil => exact fun c hc => absurd hc List.not_mem_nil
  | cons c cs ih =>
      have hle' : ∀ d ∈ cs, (f d).length ≤ (g d).length :=
        fun d hd => hle d (List.mem_cons_of_mem c hd)
      have hc := hle c List.mem_cons_self
      have hcs := length_flatMap_le hle'
      rw [List.flatMap_cons, List.flatMap_cons, List.length_append, List.length_append] at heq
      intro d hd
      rcases List.mem_cons.mp hd with rfl | hd
      · omega
      · exact ih hle' (by omega) d hd

/-- Nothing that is written has been dropped. -/
theorem pieces_kept (h : env.pieces c (droppedNums l) = []) :
    env.pieces c ((keptNums l).insertionSort (· ≤ ·)) =
      env.pieces c (l.insertionSort (· ≤ ·)) := by
  have hdropped : (droppedNums l).filter
      (fun n => !(env.leavesOut && decide (n < UNNAMED_ENTITY_NUM))) = [] := by
    rw [List.eq_nil_iff_forall_not_mem]
    exact fun n hn => writeNum_ne_nil c n (List.flatMap_eq_nil_iff.mp h n hn)
  refine congrArg (List.flatMap (writeNum c)) ?_
  refine List.Perm.eq_of_pairwise' ((List.pairwise_insertionSort (· ≤ ·) _).filter _)
    ((List.pairwise_insertionSort (· ≤ ·) _).filter _) ?_
  have hperm := (perm_kept_dropped l).filter
    fun n => !(env.leavesOut && decide (n < UNNAMED_ENTITY_NUM))
  rw [List.filter_append, hdropped, List.append_nil] at hperm
  exact ((List.perm_insertionSort _ _).filter _).trans
    (hperm.symm.trans ((List.perm_insertionSort _ l).filter _).symm)

/-- The two texts agree just if the first entity of each case is the greatest. -/
theorem answersAgree_iff
    (hhyp : ∀ n < ENTITY_MAX, env.hypotheticalFlag n = true ↔ n < UNNAMED_ENTITY_NUM)
    (h : SamePairs result mentions) : env.AnswersAgree result mentions ↔
      ∀ c ∈ ellipsisCaseListVerb, env.FirstGreatest (resultNums result c) := by
  constructor
  · intro hagree c hc
    have hlength : ∀ c, (env.pieces c ((resultNums result c).insertionSort (· ≤ ·))).length =
        (env.pieces c ((keptNums (resultNums result c)).insertionSort (· ≤ ·))).length +
          (env.pieces c (droppedNums (resultNums result c))).length := fun c => by
      rw [pieces_insertionSort, pieces_insertionSort, length_pieces]
    have heq := congrArg List.length ((makeAresultString_eq hhyp result).symm.trans hagree.listed)
    have hcase := length_eq_of_flatMap (fun c _ => (hlength c).symm ▸ Nat.le_add_right _ _) heq c hc
    rw [firstGreatest_iff c, ← List.length_eq_zero_iff]
    have hsum := hlength c
    change _ = (env.pieces c ((resultNums result c).insertionSort (· ≤ ·))).length at hcase
    omega
  · intro hfirst
    have hlisted : env.makeAresultString result = env.listing result := by
      rw [makeAresultString_eq hhyp]
      exact List.flatMap_congr fun c hc => pieces_kept ((firstGreatest_iff c _).mp (hfirst c hc))
    exact ⟨hlisted.trans (makeGresultStrings_eq h).symm, hlisted⟩

end AnswerEnv

/-! ## Two entities for ガ -/

/-- The options of an analysis that writes all entities. -/
def plainAnswer : AnswerEnv := ⟨true, false, false, fun n => decide (n < UNNAMED_ENTITY_NUM)⟩

def sixthEntity : Fin ENTITY_MAX := ⟨6, by decide⟩

def seventhEntity : Fin ENTITY_MAX := ⟨7, by decide⟩

def gaArg (n : Fin ENTITY_MAX) : ResultArg := ⟨1, n⟩

def gaMention (type : Char) (n : Fin ENTITY_MAX) : TagMention := ⟨type, utf8 "ガ", n⟩

def risingArgs : List ResultArg := [gaArg sixthEntity, gaArg seventhEntity]

def gaMentions : List TagMention := [gaMention 'C' sixthEntity, gaMention 'O' seventhEntity]

theorem plainAnswer_agrees : plainAnswer.AnswersAgree risingArgs.reverse gaMentions :=
  (AnswerEnv.answersAgree_iff (fun _ _ => decide_eq_true_iff)
    ⟨by decide +kernel, by decide +kernel⟩).mpr (by decide +kernel)

/-- The second entity of the result is lost. -/
theorem plainAnswer_differs :
    plainAnswer.makeAresultString risingArgs = utf8 " ガ:6" ∧
      plainAnswer.makeGresultStrings gaMentions = utf8 " ガ:6 ガ:7" ∧
      SamePairs risingArgs gaMentions ∧ ¬plainAnswer.AnswersAgree risingArgs gaMentions := by
  have hsystem : plainAnswer.makeAresultString risingArgs = utf8 " ガ:6" := by
    decide +kernel
  have hcorpus : plainAnswer.makeGresultStrings gaMentions = utf8 " ガ:6 ガ:7" := by
    decide +kernel
  refine ⟨hsystem, hcorpus, ⟨by decide +kernel, by decide +kernel⟩, fun hagree => ?_⟩
  have hsame := hagree.same
  rw [hsystem, hcorpus] at hsame
  exact absurd hsame (by decide +kernel)

end Knp
