import Knp.Mask
import Mathlib.Data.List.Range
import Mathlib.Logic.Function.Basic

/-!
# Masks for base phrases (`base_phrase.c`)

`check_phrase` finds the NPs and PPs of a Chinese sentence by their tags and moves the ends
of the NPs to their last noun. `change_matrix_for_phrase` then takes the links away that
would enter a phrase elsewhere than at its head: the last noun of an NP, the first word
of a PP.

> Just the links that should be masked are set to zero, unless a PP has a link to its own
> last word.

The mask to the right of a PP begins at its last word, that of an NP behind it.
-/

namespace Knp

open Loop Mask

/-- The words and their features. -/
structure PhraseText where
  bnstNum : Nat
  checkFeature : Nat → String → Bool

namespace PhraseText

variable (sp : PhraseText)

/-! ## Finding the phrases -/

/-- `while (j < Bnst_num && ...) j++`, with `rest` words from `j` on. -/
def chunkStop (b o : String) : Nat → Nat → Nat
  | 0, j => j
  | rest + 1, j =>
      if !sp.checkFeature j b && !sp.checkFeature j o then chunkStop b o rest (j + 1) else j

/-- The loop over the words, which goes on behind a phrase that has been found. -/
def markChunks (b o : String) : Nat → Nat → (Nat → Option Nat) → (Nat → Option Nat)
  | 0, _, m => m
  | fuel + 1, i, m =>
      if i < sp.bnstNum then
        if sp.checkFeature i b then
          let j := sp.chunkStop b o (sp.bnstNum - (i + 1)) (i + 1)
          markChunks b o fuel j (Function.update m i (some (j - 1)))
        else markChunks b o fuel (i + 1) m
      else m

/-- if the last word of baseNP is not noun, then reduce baseNP scope -/
def reducedEnd (i e : Nat) : Nat :=
  ((List.range' i (e + 1 - i)).reverse.find? fun j =>
    sp.checkFeature j "NN" || sp.checkFeature j "NR" || sp.checkFeature j "NT").getD e

/-- fix baseNP scope error; the loop ends with the first NP that is deleted. -/
def fixScope : List Nat → (Nat → Option Nat) → (Nat → Option Nat)
  | [], np => np
  | i :: is, np =>
      match np i with
      | none => fixScope is np
      | some e =>
          let e := sp.reducedEnd i e
          if (sp.checkFeature i "PU" && !sp.checkFeature e "PU") ||
              (!sp.checkFeature i "PU" && sp.checkFeature e "PU") then Function.update np i none
          else fixScope is (Function.update np i (some e))

/-- `np_matrix` behind `check_phrase`; `none` is -1. -/
def npMatrix : Nat → Option Nat :=
  sp.fixScope (List.range sp.bnstNum)
    (sp.markChunks "NP_B" "NP_O" sp.bnstNum 0 fun _ => none)

def ppMatrix : Nat → Option Nat := sp.markChunks "PP_B" "PP_O" sp.bnstNum 0 fun _ => none

/-! ## Changing the matrix -/

def phraseHead (i e : Nat) : Nat :=
  ((List.range' i (e + 1 - i)).reverse.find? fun j =>
    sp.checkFeature j "NN" || sp.checkFeature j "NR").getD e

/-- mask upper dpnd, mask right dpnd, mask inside dpnd -/
def maskNp (i e : Nat) (m : Nat → Nat → Int) : Nat → Nat → Int :=
  let head := sp.phraseHead i e
  let m := upTo 0 i (fun j => upTo i (e + 1) fun k m => if k ≠ head then put j k 0 m else m) m
  let m := upTo i (e + 1)
    (fun j => upTo (e + 1) sp.bnstNum fun k m => if j ≠ head then put j k 0 m else m) m
  upTo i (e + 1) (fun j m =>
    if j ≠ head ∧ !sp.checkFeature j "JJ" then
      upTo (j + 1) (e + 1) (fun k m => if k ≠ head then put j k 0 m else m) m
    else m) m

/-- mask upper dpnd, mask right dpnd -/
def maskPp (i e : Nat) (m : Nat → Nat → Int) : Nat → Nat → Int :=
  let m := upTo 0 i (fun j => upTo (i + 1) (e + 1) fun k => put j k 0) m
  upTo (i + 1) (e + 1) (fun j => upTo e sp.bnstNum fun k => put j k 0) m

def maskPhrase (mask : Nat → Nat → (Nat → Nat → Int) → Nat → Nat → Int) (phrase : Nat → Option Nat)
    (i : Nat) (m : Nat → Nat → Int) : Nat → Nat → Int :=
  match phrase i with
  | none => m
  | some e => mask i e m

/-- `change_matrix_for_phrase` -/
def changeMatrixForPhrase (dpndMatrix : Nat → Nat → Int) : Nat → Nat → Int :=
  upTo 0 sp.bnstNum
    (fun i m => maskPhrase sp.maskPp sp.ppMatrix i (maskPhrase sp.maskNp sp.npMatrix i m)) dpndMatrix

/-! ## What should be masked -/

/-- A link of a word outside the phrase with one inside that is not its head. -/
structure EntersBeside (i e head j k : Nat) : Prop where
  inside : i ≤ k ∧ k ≤ e
  outside : j < i ∨ e < j
  beside : k ≠ head

/-- In a link with the head of the NP the head governs, in any other one the word behind. -/
def governor (head j k : Nat) : Nat := if j = head then j else k

def dependant (head j k : Nat) : Nat := if j = head then k else j

/-- A link within an NP that is not licensed. -/
structure Unlicensed (i e head j k : Nat) : Prop where
  first : i ≤ j ∧ j ≤ e
  second : i ≤ k ∧ k ≤ e
  noJj : sp.checkFeature (dependant head j k) "JJ" = false
  noHead : governor head j k ≠ head

def NpForbids (i e j k : Nat) : Prop :=
  EntersBeside i e (sp.phraseHead i e) j k ∨ EntersBeside i e (sp.phraseHead i e) k j ∨
    sp.Unlicensed i e (sp.phraseHead i e) j k

def PpForbids (i e j k : Nat) : Prop := EntersBeside i e i j k ∨ EntersBeside i e i k j

/-- The links that some phrase forbids. -/
def Forbidden (j k : Nat) : Prop :=
  (j < k ∧ k < sp.bnstNum) ∧
    ((∃ i e, sp.npMatrix i = some e ∧ sp.NpForbids i e j k) ∨
      ∃ i e, sp.ppMatrix i = some e ∧ PpForbids i e j k)

/-- The law: just the forbidden links are set to zero. -/
structure MasksForbidden (dpndMatrix : Nat → Nat → Int) : Prop where
  masked : ∀ j k, sp.Forbidden j k → sp.changeMatrixForPhrase dpndMatrix j k = 0
  frame : ∀ j k, ¬ sp.Forbidden j k → sp.changeMatrixForPhrase dpndMatrix j k = dpndMatrix j k

/-- No word of a PP behind the first has a link to the last one that nothing forbids. -/
def PpEndsFree (dpndMatrix : Nat → Nat → Int) : Prop :=
  ∀ i e, sp.ppMatrix i = some e → ∀ j, i < j → j ≤ e →
    dpndMatrix j e = 0 ∨ sp.Forbidden j e

/-! ## The phrases -/

section Phrases

variable {sp} {b o : String} {m np : Nat → Option Nat} {fuel i j k e rest : Nat} {is : List Nat}

theorem chunkStop_bounds : j ≤ sp.chunkStop b o rest j ∧ sp.chunkStop b o rest j ≤ j + rest := by
  induction rest generalizing j with
  | zero => exact ⟨Nat.le_refl j, Nat.le_refl j⟩
  | succ rest ih =>
      have hnext := @ih (j + 1)
      rw [chunkStop]
      split
      · omega
      · omega

/-- The phrases lie in the sentence. -/
def InSentence (sp : PhraseText) (m : Nat → Option Nat) : Prop :=
  ∀ i e, m i = some e → i ≤ e ∧ e < sp.bnstNum

theorem InSentence.update (h : InSentence sp m) (he : i ≤ e ∧ e < sp.bnstNum) :
    InSentence sp (Function.update m i (some e)) := by
  intro i' e' hsome
  by_cases hi : i' = i
  · subst hi
    rw [Function.update_self] at hsome
    cases hsome
    exact he
  · rw [Function.update_of_ne hi] at hsome
    exact h i' e' hsome

theorem InSentence.delete (h : InSentence sp m) : InSentence sp (Function.update m i none) := by
  intro i' e' hsome
  by_cases hi : i' = i
  · subst hi
    rw [Function.update_self] at hsome
    cases hsome
  · rw [Function.update_of_ne hi] at hsome
    exact h i' e' hsome

theorem inSentence_markChunks (h : InSentence sp m) :
    InSentence sp (sp.markChunks b o fuel i m) := by
  induction fuel generalizing i m with
  | zero => exact h
  | succ fuel ih =>
      rw [markChunks]
      split
      next hi =>
        split
        · have hstop := @chunkStop_bounds sp b o (i + 1) (sp.bnstNum - (i + 1))
          refine ih (h.update ?_)
          omega
        · exact ih h
      next => exact h

theorem reducedEnd_bounds (hie : i ≤ e) : i ≤ sp.reducedEnd i e ∧ sp.reducedEnd i e ≤ e := by
  rw [reducedEnd]
  cases hfind : (List.range' i (e + 1 - i)).reverse.find? _ with
  | none => exact ⟨hie, Nat.le_refl e⟩
  | some j =>
      have hmem := List.mem_range'_1.mp (List.mem_reverse.mp (List.mem_of_find?_eq_some hfind))
      rw [Option.getD_some]
      omega

theorem inSentence_fixScope (h : InSentence sp np) : InSentence sp (sp.fixScope is np) := by
  induction is generalizing np with
  | nil => exact h
  | cons i is ih =>
      rw [fixScope]
      split
      next => exact ih h
      next e hsome =>
        obtain ⟨hie, he⟩ := h i e hsome
        have hend := sp.reducedEnd_bounds hie
        dsimp only
        split
        · exact h.delete
        · exact ih (h.update ⟨hend.1, Nat.lt_of_le_of_lt hend.2 he⟩)

theorem inSentence_none : InSentence sp fun _ => none := by
  intro i e hsome
  cases hsome

theorem inSentence_npMatrix : InSentence sp sp.npMatrix :=
  inSentence_fixScope (inSentence_markChunks inSentence_none)

theorem inSentence_ppMatrix : InSentence sp sp.ppMatrix :=
  inSentence_markChunks inSentence_none

end Phrases

/-! ## The masks -/

section Masks

variable {sp} {i e : Nat}

/-- A rectangle in which a condition on the cell is tested. -/
theorem fills_rectangle_ite (a b c d : Nat) (p : Nat → Nat → Prop) [∀ j k, Decidable (p j k)] :
    Fills 0 (upTo a b fun j => upTo c d fun k m => if p j k then put j k (0 : Int) m else m)
      fun j k => (a ≤ j ∧ j < b) ∧ (c ≤ k ∧ k < d) ∧ p j k := by
  refine (fills_upTo fun j => fills_upTo fun k => (fills_put j k 0).ite).congr ?_
  intro x y
  constructor
  · rintro ⟨j, hj, k, hk, hp, rfl, rfl⟩
    exact ⟨hj, hk, hp⟩
  · rintro ⟨hj, hk, hp⟩
    exact ⟨x, hj, y, hk, hp, rfl, rfl⟩

theorem fills_maskNp (i e : Nat) :
    Fills 0 (sp.maskNp i e) fun j k =>
      (((0 ≤ j ∧ j < i) ∧ (i ≤ k ∧ k < e + 1) ∧ k ≠ sp.phraseHead i e) ∨
        (i ≤ j ∧ j < e + 1) ∧ (e + 1 ≤ k ∧ k < sp.bnstNum) ∧ j ≠ sp.phraseHead i e) ∨
      (i ≤ j ∧ j < e + 1) ∧ (j ≠ sp.phraseHead i e ∧ (!sp.checkFeature j "JJ") = true) ∧
        (j + 1 ≤ k ∧ k < e + 1) ∧ k ≠ sp.phraseHead i e := by
  have hinside : Fills 0
      (upTo i (e + 1) fun j m =>
        if j ≠ sp.phraseHead i e ∧ (!sp.checkFeature j "JJ") = true then
          upTo (j + 1) (e + 1)
            (fun k m => if k ≠ sp.phraseHead i e then put j k (0 : Int) m else m) m
        else m)
      fun j k => (i ≤ j ∧ j < e + 1) ∧
        (j ≠ sp.phraseHead i e ∧ (!sp.checkFeature j "JJ") = true) ∧
          (j + 1 ≤ k ∧ k < e + 1) ∧ k ≠ sp.phraseHead i e := by
    refine (fills_upTo fun j => (fills_upTo fun k => (fills_put j k 0).ite).ite).congr ?_
    intro x y
    constructor
    · rintro ⟨j, hj, hp, k, hk, hhead, rfl, rfl⟩
      exact ⟨hj, hp, hk, hhead⟩
    · rintro ⟨hj, hp, hk, hhead⟩
      exact ⟨x, hj, hp, y, hk, hhead, rfl, rfl⟩
  exact ((fills_rectangle_ite 0 i i (e + 1) fun _ k => k ≠ sp.phraseHead i e).comp
    (fills_rectangle_ite i (e + 1) (e + 1) sp.bnstNum fun j _ => j ≠ sp.phraseHead i e)).comp
    hinside

theorem fills_maskPp (i e : Nat) :
    Fills 0 (sp.maskPp i e) fun j k =>
      ((0 ≤ j ∧ j < i) ∧ i + 1 ≤ k ∧ k < e + 1) ∨
        (i + 1 ≤ j ∧ j < e + 1) ∧ e ≤ k ∧ k < sp.bnstNum :=
  (fills_rectangle 0 i (i + 1) (e + 1) 0).comp (fills_rectangle (i + 1) (e + 1) e sp.bnstNum 0)

theorem fills_maskPhrase {mask : Nat → Nat → (Nat → Nat → Int) → Nat → Nat → Int}
    {phrase : Nat → Option Nat} {c : Nat → Nat → Nat → Nat → Prop}
    (h : ∀ i e, Fills 0 (mask i e) (c i e)) (i : Nat) :
    Fills 0 (maskPhrase mask phrase i) fun j k => ∃ e, phrase i = some e ∧ c i e j k := by
  cases hphrase : phrase i with
  | none =>
      have heq : maskPhrase mask phrase i = fun m => m := by
        funext m
        rw [maskPhrase, hphrase]
      rw [heq]
      refine fills_self.congr ?_
      intro j k
      refine ⟨False.elim, ?_⟩
      rintro ⟨e, hnone, _⟩
      cases hnone
  | some e =>
      have heq : maskPhrase mask phrase i = mask i e := by
        funext m
        rw [maskPhrase, hphrase]
      rw [heq]
      refine (h i e).congr ?_
      intro j k
      constructor
      · intro hc
        exact ⟨e, rfl, hc⟩
      · rintro ⟨e', hsome, hc⟩
        cases hsome
        exact hc

/-- What an NP masks is what it forbids. -/
theorem npMask_iff {j k : Nat} (he : e < sp.bnstNum) :
    ((((0 ≤ j ∧ j < i) ∧ (i ≤ k ∧ k < e + 1) ∧ k ≠ sp.phraseHead i e) ∨
        (i ≤ j ∧ j < e + 1) ∧ (e + 1 ≤ k ∧ k < sp.bnstNum) ∧ j ≠ sp.phraseHead i e) ∨
      (i ≤ j ∧ j < e + 1) ∧ (j ≠ sp.phraseHead i e ∧ (!sp.checkFeature j "JJ") = true) ∧
        (j + 1 ≤ k ∧ k < e + 1) ∧ k ≠ sp.phraseHead i e) ↔
      (j < k ∧ k < sp.bnstNum) ∧ sp.NpForbids i e j k := by
  constructor
  · rintro ((⟨hj, hk, hhead⟩ | ⟨hj, hk, hhead⟩) | ⟨hj, ⟨hjhead, hjj⟩, hk, hkhead⟩)
    · exact ⟨by omega, .inl ⟨by omega, by omega, hhead⟩⟩
    · exact ⟨by omega, .inr (.inl ⟨by omega, by omega, hhead⟩)⟩
    · refine ⟨by omega, .inr (.inr ⟨by omega, by omega, ?_, ?_⟩)⟩
      · rw [dependant, if_neg hjhead]
        exact Bool.not_eq_true' _ ▸ hjj
      · rw [governor, if_neg hjhead]
        exact hkhead
  · rintro ⟨⟨hjk, hk⟩, hforbids | hforbids | hforbids⟩
    · have hin := hforbids.inside
      have hout := hforbids.outside
      exact .inl (.inl ⟨by omega, by omega, hforbids.beside⟩)
    · have hin := hforbids.inside
      have hout := hforbids.outside
      exact .inl (.inr ⟨by omega, by omega, hforbids.beside⟩)
    · have hfirst := hforbids.first
      have hsecond := hforbids.second
      have hjj := hforbids.noJj
      have hhead := hforbids.noHead
      by_cases hj : j = sp.phraseHead i e
      · rw [governor, if_pos hj] at hhead
        exact absurd hj hhead
      · rw [governor, if_neg hj] at hhead
        rw [dependant, if_neg hj] at hjj
        exact .inr ⟨by omega, ⟨hj, by rw [hjj]; rfl⟩, by omega, hhead⟩

/-- A PP masks what it forbids, and the links to its last word. -/
theorem ppMask_iff {j k : Nat} (he : e < sp.bnstNum) :
    (((0 ≤ j ∧ j < i) ∧ i + 1 ≤ k ∧ k < e + 1) ∨
        (i + 1 ≤ j ∧ j < e + 1) ∧ e ≤ k ∧ k < sp.bnstNum) ↔
      (j < k ∧ k < sp.bnstNum) ∧ PpForbids i e j k ∨ (i < j ∧ j ≤ e) ∧ k = e := by
  constructor
  · rintro (⟨hj, hk⟩ | ⟨hj, hk⟩)
    · exact .inl ⟨by omega, .inl ⟨by omega, by omega, by omega⟩⟩
    · rcases Nat.lt_or_eq_of_le hk.1 with hlt | heq
      · exact .inl ⟨by omega, .inr ⟨by omega, by omega, by omega⟩⟩
      · exact .inr ⟨by omega, heq.symm⟩
  · rintro (⟨⟨hjk, hk⟩, hforbids | hforbids⟩ | ⟨hj, hk⟩)
    · have hin := hforbids.inside
      have hout := hforbids.outside
      have hbeside := hforbids.beside
      exact .inl ⟨by omega, by omega⟩
    · have hin := hforbids.inside
      have hout := hforbids.outside
      have hbeside := hforbids.beside
      exact .inr ⟨by omega, by omega⟩
    · exact .inr ⟨by omega, by omega⟩

/-- The cells that are set to zero. -/
theorem fills_changeMatrixForPhrase :
    Fills 0 sp.changeMatrixForPhrase fun j k =>
      sp.Forbidden j k ∨ ∃ i e, sp.ppMatrix i = some e ∧ (i < j ∧ j ≤ e) ∧ k = e := by
  refine (fills_upTo fun i => (fills_maskPhrase (@fills_maskNp sp) i).comp
    (fills_maskPhrase (@fills_maskPp sp) i)).congr ?_
  intro j k
  constructor
  · rintro ⟨i, _, ⟨e, hnp, hcell⟩ | ⟨e, hpp, hcell⟩⟩
    · obtain ⟨hlink, hforbids⟩ := (npMask_iff (inSentence_npMatrix i e hnp).2).mp hcell
      exact .inl ⟨hlink, .inl ⟨i, e, hnp, hforbids⟩⟩
    · rcases (ppMask_iff (inSentence_ppMatrix i e hpp).2).mp hcell with ⟨hlink, hforbids⟩ | hend
      · exact .inl ⟨hlink, .inr ⟨i, e, hpp, hforbids⟩⟩
      · exact .inr ⟨i, e, hpp, hend⟩
  · rintro (⟨hlink, ⟨i, e, hnp, hforbids⟩ | ⟨i, e, hpp, hforbids⟩⟩ | ⟨i, e, hpp, hend⟩)
    · have hin := inSentence_npMatrix i e hnp
      exact ⟨i, by omega, .inl ⟨e, hnp, (npMask_iff hin.2).mpr ⟨hlink, hforbids⟩⟩⟩
    · have hin := inSentence_ppMatrix i e hpp
      exact ⟨i, by omega, .inr ⟨e, hpp, (ppMask_iff hin.2).mpr (.inl ⟨hlink, hforbids⟩)⟩⟩
    · have hin := inSentence_ppMatrix i e hpp
      exact ⟨i, by omega, .inr ⟨e, hpp, (ppMask_iff hin.2).mpr (.inr hend)⟩⟩

end Masks

/-- Just the forbidden links are set to zero if and only if nothing is lost at the ends of the
PPs. -/
theorem changeMatrixForPhrase_iff (sp : PhraseText) (dpndMatrix : Nat → Nat → Int) :
    sp.MasksForbidden dpndMatrix ↔ sp.PpEndsFree dpndMatrix := by
  have hfills := @fills_changeMatrixForPhrase sp dpndMatrix
  constructor
  · intro h i e hpp j hij hje
    by_cases hforbidden : sp.Forbidden j e
    · exact .inr hforbidden
    · rw [← h.frame j e hforbidden]
      exact .inl ((hfills j e).1 (.inr ⟨i, e, hpp, ⟨hij, hje⟩, rfl⟩))
  · intro h
    constructor
    · intro j k hforbidden
      exact (hfills j k).1 (.inl hforbidden)
    · intro j k hfree
      by_cases hend : ∃ i e, sp.ppMatrix i = some e ∧ (i < j ∧ j ≤ e) ∧ k = e
      · rw [(hfills j k).1 (.inr hend)]
        obtain ⟨i, e, hpp, ⟨hij, hje⟩, rfl⟩ := hend
        exact ((h i k hpp j hij hje).resolve_right hfree).symm
      · exact (hfills j k).2 (not_or.mpr ⟨hfree, hend⟩)

/-- A PP of three words. -/
def threeWordPp : PhraseText where
  bnstNum := 3
  checkFeature := fun j f => (j == 0 && f == "PP_B")

theorem threeWordPp_loses_link : ¬ threeWordPp.MasksForbidden fun _ _ => 82 := by
  intro h
  have hfree : ¬ threeWordPp.Forbidden 1 2 := by
    rintro ⟨_, ⟨i, e, hnp, _⟩ | ⟨i, e, hpp, hforbids⟩⟩
    · have hin := inSentence_npMatrix i e hnp
      have hi : i < 3 := Nat.lt_of_le_of_lt hin.1 hin.2
      have hnone : ∀ i < 3, threeWordPp.npMatrix i = none := by decide
      rw [hnone i hi] at hnp
      cases hnp
    · have hin := inSentence_ppMatrix i e hpp
      have hi : i < 3 := Nat.lt_of_le_of_lt hin.1 hin.2
      have hzero : ∀ i < 3, threeWordPp.ppMatrix i = if i = 0 then some 2 else none := by decide
      rw [hzero i hi] at hpp
      split at hpp
      · cases hpp
        rcases hforbids with hforbids | hforbids
        · exact absurd hforbids.outside (by omega)
        · exact absurd hforbids.outside (by omega)
      · cases hpp
  have hframe := h.frame 1 2 hfree
  revert hframe
  decide

end PhraseText

end Knp
