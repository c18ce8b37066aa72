import Knp.TagTree

/-!
# The choice of the governing tag

`dpnd_info_to_tag_raw` chooses the tag of the head for each modifier in its turn;
`find_head_tag_from_dpnd_bnst` reads it off the features that are there at the
end. 直前タグ受 is meant for the modifier that goes to a former tag, but it stands
on the head, where it holds for all modifiers, and タグ単位受 hides it.

> Both choose the same tag for a modifier that pays attention to the features
> exactly if it is not moved where タグ単位受 stands, and, where it does not, if
> it is moved itself or nothing is.
-/

namespace Knp

/-! ## Numbers in features -/

theorem digits_eq : ∀ {l : List Char} (n : Nat), (∀ c ∈ l, c.isDigit) →
    digits l n = Nat.ofDigitChars 10 l n
  | [], _, _ => rfl
  | c :: cs, n, h => by
      rw [digits, if_pos (h c List.mem_cons_self), Nat.ofDigitChars_cons]
      exact digits_eq _ fun d hd => h d (List.mem_cons_of_mem c hd)

theorem digits_repr (n : Nat) : digits n.repr.toList 0 = n := by
  rw [Nat.toList_repr, digits_eq 0 fun c hc => Nat.isDigit_of_mem_toDigits (by decide) le_rfl hc]
  exact Nat.ofDigitChars_ten_toDigits

/-- A digit ends the white space and is not a sign. -/
theorem digit_apart {c : Char} (hc : c.isDigit = true) :
    c.isWhitespace = false ∧ c ≠ '-' ∧ c ≠ '+' := by
  refine ⟨?_, ?_, ?_⟩
  · unfold Char.isWhitespace
    simp only [Bool.or_eq_false_iff, decide_eq_false_iff_not, and_assoc]
    refine ⟨?_, ?_, ?_, ?_⟩ <;>
    · rintro rfl
      exact absurd hc (by decide)
  · rintro rfl
    exact absurd hc (by decide)
  · rintro rfl
    exact absurd hc (by decide)

theorem atoi_toString (n : Int) : atoi (toString n) = n := by
  cases n with
  | ofNat n =>
      have hstring : (toString (Int.ofNat n)).toList = n.repr.toList := rfl
      have hdigit : ∀ c ∈ n.repr.toList, c.isDigit := by
        rw [Nat.toList_repr]
        exact fun c hc => Nat.isDigit_of_mem_toDigits (by decide) le_rfl hc
      have hvalue := digits_repr n
      unfold atoi
      rw [hstring]
      cases hl : n.repr.toList with
      | nil => exact absurd (Nat.toList_repr ▸ hl) Nat.toDigits_ne_nil
      | cons c cs =>
          rw [hl] at hdigit hvalue
          obtain ⟨hspace, hminus, hplus⟩ := digit_apart (hdigit c List.mem_cons_self)
          rw [List.dropWhile_cons_of_neg (by simp [hspace])]
          split
          · next heq => exact absurd (List.cons.inj heq).1 hminus
          · next heq => exact absurd (List.cons.inj heq).1 hplus
          · rw [hvalue]
            rfl
  | negSucc n =>
      have hstring : (toString (Int.negSucc n)).toList = '-' :: (n + 1).repr.toList := by
        show ("-" ++ (n + 1).repr).toList = _
        rw [String.toList_append]
        rfl
      unfold atoi
      rw [hstring, List.dropWhile_cons_of_neg (by decide)]
      show -((digits (n + 1).repr.toList 0 : Nat) : Int) = _
      rw [digits_repr]
      rfl

/-! ## Offsets -/

section Offsets

variable {cp : String} {n : Nat} {offset : Int}

/-- The offset of a feature that `dpnd_info_to_tag_raw` has assigned. -/
theorem tagOffset_lastTag (hlo : -(n : Int) < offset) (hhi : offset ≤ 0) :
    tagOffset n (lastTagFeature offset) = offset := by
  have hdrop : (lastTagFeature offset).toList.dropWhile (· != ':') =
      ':' :: (toString offset).toList := by
    unfold lastTagFeature
    rw [String.toList_append]
    rfl
  unfold tagOffset
  rw [hdrop]
  dsimp only
  rw [String.ofList_toList, atoi_toString]
  exact if_neg (by omega)

/-- `dpnd_info_to_tag_raw` reads the offset of タグ単位受 in the same way. -/
theorem tagOffset_rule (h : compFeature cp "タグ単位受" = true) : tagOffset n cp =
    (let offset := atoi (cp.drop "タグ単位受:".length).toString
      if 0 < offset ∨ (n : Int) ≤ -1 * offset then 0 else offset) := by
  have hlist : (cp.drop "タグ単位受:".length).toString.toList = cp.toList.drop 6 :=
    String.toList_copy_drop
  unfold compFeature at h
  rw [Bool.or_eq_true, decide_eq_true_eq] at h
  unfold tagOffset
  rcases h with rfl | hprefix
  · have hempty : ("タグ単位受".drop "タグ単位受:".length).toString = "" := by
      rw [← String.toList_inj, hlist]
      rfl
    rw [hempty]
    simp [atoi, digits]
  · obtain ⟨rest, hrest⟩ := List.isPrefixOf_iff_prefix.mp hprefix
    have hvalue : (cp.drop "タグ単位受:".length).toString = String.ofList rest := by
      rw [← String.toList_inj, hlist, ← hrest, String.toList_ofList (l := rest)]
      exact @List.drop_left' Char ("タグ単位受".toList ++ [':']) rest _ rfl
    rw [hvalue, ← hrest]
    rfl

theorem headTagOffset_rule {bp : BunsetsuData} (h : checkFeature bp.f "タグ単位受" = some cp) :
    headTagOffset bp = tagOffset bp.tagNum cp := by
  unfold headTagOffset
  rw [h]
  rfl

end Offsets

/-! ## The two choices -/

/-- The offset by 直前タグ受. -/
def lastOffset (bp : BunsetsuData) : Int :=
  match checkFeature bp.f "直前タグ受" with
  | some cp => tagOffset bp.tagNum cp
  | none => 0

/-- The offset in `find_head_tag_from_dpnd_bnst`. -/
def treeOffset (bp parent : BunsetsuData) : Int :=
  if hasFeature bp.f "タグ単位受無視" then 0 else headTagOffset parent

section Choice

variable (sp : SentenceData) (dp : Dpnd) (examples : Nat → Nat → Bool)

/-- The bunsetsu with the head `h`. -/
def modifiersOf (h : Nat) : Finset Nat :=
  (Finset.range sp.bnstNum).filter fun b => dp.head b = h

/-- The offset in `dpnd_info_to_tag_raw`. -/
def arrayOffset (b : Nat) : Int :=
  let h := (dp.head b).toNat
  lastTagUke sp examples (sp.lastTag b) b h (tagUke sp b h)

/-- Modifier `b` pays no attention to the features, or they say the same in both
places. -/
structure SameChoice (b : Nat) : Prop where
  byRule : hasFeature (sp.bnst b).f "タグ単位受無視" = false →
    hasFeature (sp.bnst (dp.head b).toNat).f "タグ単位受" = true → ¬ TakesFormer sp dp examples b
  byFormer : hasFeature (sp.bnst b).f "タグ単位受無視" = false →
    hasFeature (sp.bnst (dp.head b).toNat).f "タグ単位受" = false →
    TakesFormer sp dp examples b ∨
      (∀ c ∈ modifiersOf sp dp (dp.head b).toNat, ¬ TakesFormer sp dp examples c) ∧
        lastOffset (sp.bnst (dp.head b).toNat) = 0

end Choice

section Agree

variable {sp : SentenceData} {dp : Dpnd} {examples : Nat → Nat → Bool} {b h : Nat} {cp : String}

theorem headTagOffset_last {bp : BunsetsuData} (h : checkFeature bp.f "タグ単位受" = none) :
    headTagOffset bp = lastOffset bp := by
  unfold headTagOffset lastOffset
  rw [h]
  rfl

theorem tagUke_ignored (h' : hasFeature (sp.bnst b).f "タグ単位受無視" = true) :
    tagUke sp b h = 0 := if_pos h'

theorem tagUke_rule (h' : hasFeature (sp.bnst b).f "タグ単位受無視" = false)
    (hcp : checkFeature (sp.bnst h).f "タグ単位受" = some cp) :
    tagUke sp b h = tagOffset (sp.bnst h).tagNum cp := by
  have hcomp : compFeature cp "タグ単位受" = true :=
    List.find?_some (p := fun cp => compFeature cp "タグ単位受") hcp
  rw [tagOffset_rule hcomp]
  unfold tagUke
  rw [h', hcp, if_neg Bool.false_ne_true]

theorem tagUke_none (hcp : checkFeature (sp.bnst h).f "タグ単位受" = none) :
    tagUke sp b h = 0 := by
  unfold tagUke
  rw [hcp]
  exact ite_self 0

theorem TakesFormer.not_ignored (hb : TakesFormer sp dp examples b) :
    hasFeature (sp.bnst b).f "タグ単位受無視" = false := hb.1

theorem TakesFormer.next (hb : TakesFormer sp dp examples b) : (dp.head b).toNat = b + 1 := hb.2.2.1

/-- A modifier that is moved goes to a tag before the one by タグ単位受. -/
theorem TakesFormer.arrayOffset (hb : TakesFormer sp dp examples b) :
    ∃ j, formerTag sp examples (sp.lastTag b) b (dp.head b).toNat
        (tagUke sp b (dp.head b).toNat) = some j ∧
      Knp.arrayOffset sp dp examples b = j - ((sp.bnst (dp.head b).toNat).tagNum - 1) ∧
      Knp.arrayOffset sp dp examples b < tagUke sp b (dp.head b).toNat := by
  obtain ⟨j, hj⟩ := takesFormer_iff.mp hb
  have hlt := formerTag_lt hj
  have hoffset : Knp.arrayOffset sp dp examples b = j - ((sp.bnst (dp.head b).toNat).tagNum - 1) := by
    unfold Knp.arrayOffset
    dsimp only
    rw [lastTagUke_eq, hj]
  exact ⟨j, hj, hoffset, by omega⟩

theorem arrayOffset_of_not (hb : ¬ TakesFormer sp dp examples b) :
    arrayOffset sp dp examples b = tagUke sp b (dp.head b).toNat := by
  unfold arrayOffset
  dsimp only
  rw [lastTagUke_eq]
  cases hj : formerTag sp examples (sp.lastTag b) b (dp.head b).toNat
    (tagUke sp b (dp.head b).toNat) with
  | none => rfl
  | some j => exact absurd (takesFormer_iff.mpr ⟨j, hj⟩) hb

variable (hdiv : sp.Divided) (hdp : RightHeaded dp sp.bnstNum)
include hdiv hdp

omit hdp in
theorem marks_of_takesFormer (hb : b + 1 < sp.bnstNum) {j : Nat}
    (hj : formerTag sp examples (sp.lastTag b) b (dp.head b).toNat
      (tagUke sp b (dp.head b).toNat) = some j) :
    Marks sp dp examples (sp.lastTag b) (dp.head b).toNat j := by
  have hown := bnstOf_lastTag hdiv (Nat.lt_of_succ_lt hb)
  refine ⟨lastTag_succ_lt hdiv hb, inum_lastTag hdiv hb, by rw [hown], ?_⟩
  rw [hown]
  exact hj

/-- A tag that marks a bunsetsu is the last one of a modifier. -/
theorem takesFormer_of_marks {t j : Nat} (hm : Marks sp dp examples t h j) :
    sp.bnstOf t ∈ modifiersOf sp dp h ∧ TakesFormer sp dp examples (sp.bnstOf t) := by
  obtain ⟨ht, hinum, hhead, hj⟩ := hm
  have hb : sp.bnstOf t + 1 < sp.bnstNum := bnstOf_succ_lt hdiv ht hinum
  have hright := hdp.right _ hb
  refine ⟨?_, takesFormer_iff.mpr ⟨j, ?_⟩⟩
  · unfold modifiersOf
    rw [Finset.mem_filter, Finset.mem_range]
    exact ⟨by omega, by omega⟩
  · rw [hhead, ← eq_lastTag hdiv (Nat.lt_of_succ_lt ht) hinum]
    exact hj

/-- 直前タグ受 at the end, if a modifier has been moved. -/
theorem lastOffset_marked (hb : b + 1 < sp.bnstNum) (hmove : TakesFormer sp dp examples b) :
    lastOffset ((tagRawRun sp dp examples).bnst (dp.head b).toNat) = arrayOffset sp dp examples b := by
  obtain ⟨j, hj, hoffset, hlt⟩ := hmove.arrayOffset
  have hright := hdp.right b hb
  have hinv := tagRawRun_inv dp examples hdiv
  have hf := hinv.marked _ (lastTag_lt hdiv (Nat.lt_of_succ_lt hb)) _ j
    (marks_of_takesFormer hdiv hb hj)
  obtain ⟨hpos, -⟩ := hdiv.tag_num (dp.head b).toNat (by omega)
  have huke := (tagUke_bounds b hpos).2
  unfold lastOffset
  rw [hf, checkFeature_assign]
  dsimp only
  rw [hinv.same.num_eq, tagOffset_lastTag (by omega) (by omega), hoffset]

theorem lastOffset_unmarked (hnone : ∀ c ∈ modifiersOf sp dp h, ¬ TakesFormer sp dp examples c) :
    lastOffset ((tagRawRun sp dp examples).bnst h) = lastOffset (sp.bnst h) := by
  have hinv := tagRawRun_inv dp examples hdiv
  have hf := hinv.unmarked h fun t _ j hm => by
    obtain ⟨hmem, hmove⟩ := takesFormer_of_marks hdiv hdp hm
    exact hnone _ hmem hmove
  unfold lastOffset
  rw [hf, hinv.same.num_eq]

theorem treeOffset_eq_iff (hb : b + 1 < sp.bnstNum) :
    treeOffset ((tagRawRun sp dp examples).bnst b)
        ((tagRawRun sp dp examples).bnst (dp.head b).toNat) = arrayOffset sp dp examples b ↔
      SameChoice sp dp examples b := by
  have hsame := (tagRawRun_inv dp examples hdiv).same
  have hright := hdp.right b hb
  unfold treeOffset
  rw [hsame.ignores_eq]
  cases hignore : hasFeature (sp.bnst b).f "タグ単位受無視" with
  | true =>
      -- both take the last tag
      have hnot : ¬ TakesFormer sp dp examples b := fun hmove => by
        rw [hmove.not_ignored] at hignore
        cases hignore
      rw [arrayOffset_of_not hnot, tagUke_ignored hignore]
      refine iff_of_true rfl ⟨fun h => ?_, fun h => ?_⟩
      · rw [hignore] at h
        cases h
      · rw [hignore] at h
        cases h
  | false =>
      rw [if_neg Bool.false_ne_true]
      have hrule := (hsame.bnst_f (dp.head b).toNat).other "タグ単位受" (by decide) (by decide)
      cases hcp : checkFeature (sp.bnst (dp.head b).toNat).f "タグ単位受" with
      | some cp =>
          have hhas : hasFeature (sp.bnst (dp.head b).toNat).f "タグ単位受" = true := by
            unfold hasFeature
            rw [hcp]
            rfl
          rw [hcp] at hrule
          rw [headTagOffset_rule hrule, hsame.num_eq, ← tagUke_rule hignore hcp]
          by_cases hmove : TakesFormer sp dp examples b
          · obtain ⟨j, -, -, hlt⟩ := hmove.arrayOffset
            exact iff_of_false (by omega) fun hsame => hsame.byRule hignore hhas hmove
          · rw [arrayOffset_of_not hmove]
            refine iff_of_true rfl ⟨fun _ _ => hmove, fun _ hno => ?_⟩
            rw [hhas] at hno
            cases hno
      | none =>
          have hhas : hasFeature (sp.bnst (dp.head b).toNat).f "タグ単位受" = false := by
            unfold hasFeature
            rw [hcp]
            rfl
          rw [hcp] at hrule
          rw [headTagOffset_last hrule]
          have hiff : SameChoice sp dp examples b ↔ TakesFormer sp dp examples b ∨
              (∀ c ∈ modifiersOf sp dp (dp.head b).toNat, ¬ TakesFormer sp dp examples c) ∧
                lastOffset (sp.bnst (dp.head b).toNat) = 0 := by
            refine ⟨fun hc => hc.byFormer hignore hhas, fun hc => ⟨fun _ hyes => ?_, fun _ _ => hc⟩⟩
            rw [hhas] at hyes
            cases hyes
          rw [hiff]
          by_cases hmove : TakesFormer sp dp examples b
          · exact iff_of_true (lastOffset_marked hdiv hdp hb hmove) (Or.inl hmove)
          · rw [arrayOffset_of_not hmove, tagUke_none hcp, or_iff_right hmove]
            by_cases hother : ∀ c ∈ modifiersOf sp dp (dp.head b).toNat,
                ¬ TakesFormer sp dp examples c
            · rw [lastOffset_unmarked hdiv hdp hother, and_iff_right hother]
            · -- the feature of another modifier
              refine iff_of_false ?_ fun hc => hother hc.1
              push Not at hother
              obtain ⟨c, hc, hcmove⟩ := hother
              unfold modifiersOf at hc
              rw [Finset.mem_filter, Finset.mem_range] at hc
              have hclast : c + 1 < sp.bnstNum := by
                have := hcmove.next
                omega
              have hsameHead : (dp.head c).toNat = (dp.head b).toNat := by omega
              obtain ⟨j, -, -, hlt⟩ := hcmove.arrayOffset
              have hmarked := lastOffset_marked hdiv hdp hclast hcmove
              rw [hsameHead] at hmarked hlt
              rw [tagUke_none hcp] at hlt
              omega

end Agree

end Knp
