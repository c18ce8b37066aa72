import Knp.MrphTree
import Knp.OpenHeads

/-!
# Crossing links of tags (`dpnd_analysis.c`)

Non-crossing links of bunsetsu become links of tags that may cross in one case:
two dependants of a bunsetsu that has タグ単位受, the first linked to the tag
that is meant, the second to the last tag because it has タグ単位受無視.
-/

namespace Knp

section Tags

variable {sp : SentenceData} {dp : Dpnd} {examples : Nat → Nat → Bool} {t t₁ t₂ : Nat}

/-- The heads of the tags after `dpnd_info_to_tag_raw`. -/
def tagHead (sp : SentenceData) (dp : Dpnd) (examples : Nat → Nat → Bool) (t : Nat) : Int :=
  ((dpndInfoToTagRaw sp dp examples).tag t).dpndHead

theorem tagHead_eq (ht : t < sp.tagNum) :
    tagHead sp dp examples t = tagDpndHead sp dp examples t := by
  simp only [tagHead, dpndInfoToTagRaw]
  rw [if_pos ht]

theorem tagHead_of_inum (ht : t + 1 < sp.tagNum) (hinum : (sp.tag t).inum ≠ 0) :
    tagHead sp dp examples t = t + 1 := by
  rw [tagHead_eq (by omega)]
  unfold tagDpndHead
  dsimp only
  rw [if_neg (by omega), if_pos hinum]

/-- No tag of a bunsetsu follows its last one. -/
theorem le_of_bnstOf_le (h : sp.Divided) (ht₁ : t₁ < sp.tagNum) (hinum : (sp.tag t₂).inum = 0)
    (ht₂ : t₂ + 1 < sp.tagNum) (hle : sp.bnstOf t₁ ≤ sp.bnstOf t₂) : t₁ ≤ t₂ := by
  by_contra hlt
  have hnext := h.tag_inum t₂ ht₂
  rcases h.tag.step t₂ ht₂ with hneg | hnum
  · rw [if_pos hneg] at hnext
    omega
  · have hmono := h.tag.number_mono (by omega : t₂ + 1 ≤ t₁) ht₁
    rw [Segments.number_succ_of_eq hnum] at hmono
    change sp.bnstOf t₂ + 1 ≤ sp.bnstOf t₁ at hmono
    omega

/-- Where the last tag of a bunsetsu is linked to: a tag of the head of the bunsetsu. -/
theorem tagHead_of_last (examples : Nat → Nat → Bool) (h : sp.Divided) (hdp : RightHeaded dp sp.bnstNum)
    (ht : t + 1 < sp.tagNum) (hinum : (sp.tag t).inum = 0) :
    ∃ b : Nat, dp.head (sp.bnstOf t) = b ∧ sp.bnstOf t < b ∧ b < sp.bnstNum ∧
      ∃ g : Nat, tagHead sp dp examples t = g ∧ g < sp.tagNum ∧ sp.bnstOf g = b ∧
        (g : Int) = (sp.bnst b).tagPtr + (sp.bnst b).tagNum - 1 +
          lastTagUke sp examples t (sp.bnstOf t) b (tagUke sp (sp.bnstOf t) b) := by
  obtain ⟨hlt, hle⟩ := hdp.right _ (bnstOf_succ_lt h ht hinum)
  obtain ⟨b, hb⟩ : ∃ b : Nat, dp.head (sp.bnstOf t) = b :=
    ⟨_, (Int.toNat_of_nonneg (by omega)).symm⟩
  obtain ⟨hpos, hfit⟩ := h.tag_num b (by omega)
  obtain ⟨hlo, hhi⟩ := tagUke_bounds (sp.bnstOf t) hpos
  obtain ⟨hlo', hhi'⟩ := lastTagUke_bounds examples t (sp.bnstOf t) hlo hhi
  obtain ⟨g, hg⟩ : ∃ g : Nat, (g : Int) = (sp.bnst b).tagPtr + (sp.bnst b).tagNum - 1 +
      lastTagUke sp examples t (sp.bnstOf t) b (tagUke sp (sp.bnstOf t) b) :=
    ⟨_, Int.toNat_of_nonneg (by omega)⟩
  refine ⟨b, hb, by omega, by omega, g, ?_, by omega,
    (h.tag_ptr b (by omega) g (by omega)).mpr (by omega), hg⟩
  rw [tagHead_eq (by omega), tagDpndHead, hg]
  dsimp only
  rw [if_neg (by omega), if_neg (by omega), hb, if_neg (by omega), Int.toNat_natCast]

/-- ＡのＢＣ: a link is only moved to the left, and only that of the bunsetsu in front. -/
theorem lastTagUke_le (sp : SentenceData) (examples : Nat → Nat → Bool) (t b h : Nat) (offset : Int) :
    lastTagUke sp examples t b h offset ≤ offset := by
  unfold lastTagUke
  dsimp only
  split
  · split
    · rename_i j hfind
      have := List.mem_range.mp (List.mem_of_find?_eq_some hfind)
      omega
    · exact le_rfl
  · exact le_rfl

theorem lastTagUke_of_ne {b h : Nat} (hne : h ≠ b + 1) (offset : Int) :
    lastTagUke sp examples t b h offset = offset := by
  simp [lastTagUke, hne]

theorem lastTagUke_of_ignores {b : Nat} (hb : hasFeature (sp.bnst b).f "タグ単位受無視" = true)
    (h : Nat) (offset : Int) : lastTagUke sp examples t b h offset = offset := by
  simp [lastTagUke, hb]

theorem tagUke_of_ignores {b : Nat} (hb : hasFeature (sp.bnst b).f "タグ単位受無視" = true)
    (h : Nat) : tagUke sp b h = 0 := by
  simp [tagUke, hb]

/-- Without タグ単位受無視 the offset is the one of the head. -/
theorem tagUke_eq_of_not_ignores {b b' : Nat}
    (hb : hasFeature (sp.bnst b).f "タグ単位受無視" = false)
    (hb' : hasFeature (sp.bnst b').f "タグ単位受無視" = false) (h : Nat) :
    tagUke sp b h = tagUke sp b' h := by
  simp [tagUke, hb, hb']

/-- Two dependants of one bunsetsu: the first is linked to the tag that タグ単位受 means, the second
to the last tag. -/
structure IgnoredUke (sp : SentenceData) (dp : Dpnd) (t₁ t₂ : Nat) : Prop where
  lt : t₁ < t₂
  inum : (sp.tag t₁).inum = 0 ∧ (sp.tag t₂).inum = 0
  head : dp.head (sp.bnstOf t₁) = dp.head (sp.bnstOf t₂)
  uke : tagUke sp (sp.bnstOf t₁) (dp.head (sp.bnstOf t₁)).toNat < 0
  ignores : hasFeature (sp.bnst (sp.bnstOf t₂)).f "タグ単位受無視" = true

/-- Of two links to one bunsetsu, the later goes further just if it ignores タグ単位受. -/
theorem lastTagUke_lt_iff (examples : Nat → Nat → Bool) (t₁ t₂ : Nat) {b₁ b₂ b : Nat}
    (h12 : b₁ < b₂) (h2 : b₂ < b) (hpos : 0 < (sp.bnst b).tagNum) :
    lastTagUke sp examples t₁ b₁ b (tagUke sp b₁ b) <
        lastTagUke sp examples t₂ b₂ b (tagUke sp b₂ b) ↔
      tagUke sp b₁ b < 0 ∧ hasFeature (sp.bnst b₂).f "タグ単位受無視" = true := by
  rw [lastTagUke_of_ne (by omega) (tagUke sp b₁ b)]
  cases hb₂ : hasFeature (sp.bnst b₂).f "タグ単位受無視" with
  | true =>
      rw [lastTagUke_of_ignores hb₂, tagUke_of_ignores hb₂]
      simp
  | false =>
      have hle := lastTagUke_le sp examples t₂ b₂ b (tagUke sp b₂ b)
      have hge : tagUke sp b₂ b ≤ tagUke sp b₁ b := by
        cases hb₁ : hasFeature (sp.bnst b₁).f "タグ単位受無視" with
        | true =>
            rw [tagUke_of_ignores hb₁]
            exact (tagUke_bounds b₂ hpos).2
        | false => rw [tagUke_eq_of_not_ignores hb₁ hb₂]
      constructor
      · intro hlt
        omega
      · rintro ⟨-, hfalse⟩
        cases hfalse

/-- Links of tags cross only where links to one bunsetsu differ by タグ単位受無視. -/
theorem tagHead_crosses_iff (h : sp.Divided) (hdp : RightHeaded dp sp.bnstNum)
    (hnc : ∀ a b, b + 1 < sp.bnstNum → ¬ OpenHeads.Crosses dp.head a b) (ht₂ : t₂ + 1 < sp.tagNum) :
    OpenHeads.Crosses (tagHead sp dp examples) t₁ t₂ ↔ IgnoredUke sp dp t₁ t₂ := by
  -- the last tags of two bunsetsu are in the order of these
  have hbnst : t₁ < t₂ → (sp.tag t₁).inum = 0 → sp.bnstOf t₁ < sp.bnstOf t₂ := fun hlt hinum => by
    by_contra hle
    have := le_of_bnstOf_le h (by omega : t₂ < sp.tagNum) hinum (by omega) (not_lt.mp hle)
    omega
  constructor
  · rintro ⟨hlt, hin, hout⟩
    have hinum₁ : (sp.tag t₁).inum = 0 := by
      by_contra hne
      rw [tagHead_of_inum (by omega) hne] at hin
      omega
    have hinum₂ : (sp.tag t₂).inum = 0 := by
      by_contra hne
      rw [tagHead_of_inum ht₂ hne] at hout
      omega
    obtain ⟨b₁, hb₁, -, hb₁', g₁, hg₁, hlt₁, hg₁', heq₁⟩ :=
      tagHead_of_last examples h hdp (by omega : t₁ + 1 < sp.tagNum) hinum₁
    obtain ⟨b₂, hb₂, hb₂', hb₂'', g₂, hg₂, hlt₂, hg₂', heq₂⟩ :=
      tagHead_of_last examples h hdp ht₂ hinum₂
    rw [hg₁] at hin hout
    rw [hg₂] at hout
    have h12 := hbnst hlt hinum₁
    have h2 : sp.bnstOf t₂ < b₁ := by
      by_contra hle
      have := le_of_bnstOf_le h hlt₁ hinum₂ ht₂ (by omega)
      omega
    have hmono : b₁ ≤ b₂ := hg₁' ▸ hg₂' ▸ h.tag.number_mono (by omega) hlt₂
    obtain rfl : b₁ = b₂ := by
      by_contra hne
      exact hnc (sp.bnstOf t₁) (sp.bnstOf t₂) (bnstOf_succ_lt h ht₂ hinum₂)
        ⟨h12, by omega, by omega⟩
    obtain ⟨huke, hignores⟩ :=
      (lastTagUke_lt_iff examples t₁ t₂ h12 h2 (h.tag_num b₁ hb₁').1).mp (by omega)
    exact ⟨hlt, ⟨hinum₁, hinum₂⟩, hb₁.trans hb₂.symm, by rwa [hb₁, Int.toNat_natCast], hignores⟩
  · intro hu
    obtain ⟨b₁, hb₁, -, hb₁', g₁, hg₁, hlt₁, hg₁', heq₁⟩ :=
      tagHead_of_last examples h hdp (by have := hu.lt; omega) hu.inum.1
    obtain ⟨b₂, hb₂, hb₂', hb₂'', g₂, hg₂, hlt₂, hg₂', heq₂⟩ :=
      tagHead_of_last examples h hdp ht₂ hu.inum.2
    have huke := hu.uke
    have hhead := hu.head
    rw [hb₁, Int.toNat_natCast] at huke
    rw [hb₁, hb₂] at hhead
    obtain rfl : b₁ = b₂ := by exact_mod_cast hhead
    have h12 := hbnst hu.lt hu.inum.1
    have hlt := (lastTagUke_lt_iff examples t₁ t₂ h12 hb₂' (h.tag_num b₁ hb₁').1).mpr
      ⟨huke, hu.ignores⟩
    have hin : t₂ < g₁ := h.tag.lt_of_number_lt (by omega) (by
      change sp.bnstOf t₂ < sp.bnstOf g₁
      omega)
    refine ⟨hu.lt, ?_, ?_⟩
    · rw [hg₁]
      exact_mod_cast hin
    · rw [hg₁, hg₂]
      omega

/-- The heads of the tags, for non-crossing bunsetsu: to the right, in the head of the bunsetsu,
and crossing in one case only. -/
theorem dpndInfoToTagRaw_heads (sp : SentenceData) (dp : Dpnd) (examples : Nat → Nat → Bool)
    (h : sp.Divided) (hdp : RightHeaded dp sp.bnstNum)
    (hnc : ∀ a b, b + 1 < sp.bnstNum → ¬ OpenHeads.Crosses dp.head a b) :
    TagHeads (dpndInfoToTagRaw sp dp examples) ∧
      (∀ t, t + 1 < sp.tagNum → (sp.tag t).inum = 0 → ∃ g : Nat,
        tagHead sp dp examples t = g ∧ dp.head (sp.bnstOf t) = sp.bnstOf g) ∧
      ∀ t₁ t₂, t₂ + 1 < sp.tagNum →
        (OpenHeads.Crosses (tagHead sp dp examples) t₁ t₂ ↔ IgnoredUke sp dp t₁ t₂) := by
  refine ⟨dpndInfoToTagRaw_tagHeads examples h hdp, fun t ht hinum => ?_, fun t₁ t₂ ht₂ =>
    tagHead_crosses_iff h hdp hnc ht₂⟩
  obtain ⟨b, hb, -, -, g, hg, -, hgb, -⟩ := tagHead_of_last examples h hdp ht hinum
  exact ⟨g, hg, by rw [hb, hgb]⟩

end Tags

/-- In 本を読む。 the tag of 本を is linked to that of 読む, and nothing crosses. -/
theorem hon_tagHeads : TagHeads (dpndInfoToTagRaw hon honDpnd fun _ _ => false) ∧
    (∀ t, t + 1 < hon.tagNum → (hon.tag t).inum = 0 → ∃ g : Nat,
      tagHead hon honDpnd (fun _ _ => false) t = g ∧ honDpnd.head (hon.bnstOf t) = hon.bnstOf g) ∧
    ∀ t₁ t₂, t₂ + 1 < hon.tagNum →
      (OpenHeads.Crosses (tagHead hon honDpnd fun _ _ => false) t₁ t₂ ↔
        IgnoredUke hon honDpnd t₁ t₂) := by
  refine dpndInfoToTagRaw_heads hon honDpnd (fun _ _ => false) hon_divided honDpnd_rightHeaded ?_
  intro a b hb hcross
  obtain rfl : b = 0 := Nat.lt_one_iff.mp (Nat.lt_of_succ_lt_succ hb)
  exact absurd hcross.1 (Nat.not_lt_zero a)

/-! ## Links that cross -/

/-- Two bunsetsu and a third of two tags, the first of which is meant by タグ単位受. The second
bunsetsu has タグ単位受無視. -/
def twoUke : SentenceData :=
  { plainSentence
      [morpheme "名詞" "普通名詞" [] 0 0, morpheme "名詞" "普通名詞" [] 1 0,
        morpheme "名詞" "普通名詞" [] 2 0, morpheme "名詞" "普通名詞" [] 3 0] [] with
    tagNum := 4
    tag := fun t => ⟨t, 1, t, [], if t = 3 then -1 else t, if t = 2 then 1 else 0, 0, 'D'⟩
    bnstNum := 3
    bnst := fun b => match b with
      | 0 => ⟨0, 1, []⟩
      | 1 => ⟨1, 1, ["タグ単位受無視"]⟩
      | _ => ⟨2, 2, ["タグ単位受:-1"]⟩ }

def twoUkeDpnd : Dpnd := ⟨fun b => if b < 2 then 2 else -1, fun _ => 'D'⟩

theorem twoUke_divided : twoUke.Divided := by decide +kernel

theorem twoUkeDpnd_rightHeaded : RightHeaded twoUkeDpnd twoUke.bnstNum where
  right := by
    intro b hb
    have hlt : b < 2 := Nat.lt_of_succ_lt_succ hb
    interval_cases b <;> decide
  last := by decide

/-- Both bunsetsu depend on the third; of its tags the first is the head of tag 0, the last
that of tag 1. -/
theorem twoUke_crosses : twoUke.Divided ∧ RightHeaded twoUkeDpnd twoUke.bnstNum ∧
    (∀ a b, b + 1 < twoUke.bnstNum → ¬ OpenHeads.Crosses twoUkeDpnd.head a b) ∧
    OpenHeads.Crosses (tagHead twoUke twoUkeDpnd fun _ _ => false) 0 1 := by
  refine ⟨twoUke_divided, twoUkeDpnd_rightHeaded, ?_, ?_⟩
  · rintro a b hb ⟨hab, -, hout⟩
    have hlt : b < 2 := Nat.lt_of_succ_lt_succ hb
    have ha : twoUkeDpnd.head a = 2 := if_pos (hab.trans hlt)
    have hb' : twoUkeDpnd.head b = 2 := if_pos hlt
    omega
  · refine ⟨by decide, ?_, ?_⟩ <;> decide +kernel

end Knp
