import Knp.CkyHeads
import Knp.TagCross
import Knp.TagDivision

/-!
# From the chart to the morphemes (`cky.c`, `read_data.c`, `dpnd_analysis.c`)

A parse of the chart gives the bunsetsu their heads. `dpnd_info_to_tag_raw` carries these over to
the tags that `make_tag_units` has made, and `dpnd_info_to_mrph` those of the tags to the morphemes.

> Whatever parse is taken and wherever tags start, the tags have heads to the right, which follow
> the bunsetsu, and the morphemes are a tree if their links back are sound.
-/

namespace Knp

variable {env : CkyEnv} {c : Cky}

theorem afterCky_rightHeaded (hja : JapaneseRules env) (hfix : env.optParaFix = true)
    (hc : c ∈ (cky env).matrix 0 (env.bnstNum - 1)) (d : Dpnd) :
    RightHeaded (afterCky env c d) env.bnstNum := by
  have hbuilt := cky_allBuilt env _ _ c hc
  have hp := convertToDpnd_open hja hbuilt (hbuilt.agrees_of_optParaFix hfix)
    { d with head := Function.update d.head c.bPtr (-1) }
  obtain ⟨hf, hlast⟩ := followHeads_filled hp
  refine ⟨fun b hb => hf.right hp hb, hlast.trans ?_⟩
  rw [hbuilt.convertToDpnd_of_le hja _ (Nat.le_refl _)]
  dsimp only
  rw [hbuilt.bPtr_eq hja.right, Function.update_self]

/-- The heads of the tags and morphemes are those of a parse. -/
theorem parse_heads (hja : JapaneseRules env) (hfix : env.optParaFix = true)
    (hc : c ∈ (cky env).matrix 0 (env.bnstNum - 1)) (d : Dpnd) (examples : Nat → Nat → Bool)
    (mrphNum : Nat) (mrph : Nat → MorphemeData) {bnst : Nat → TagUnits.Bnst}
    (tag : Nat → TagUnits.Tag) (hchunked : TagUnits.Chunked mrphNum env.bnstNum bnst)
    (hpos : 0 < mrphNum) :
    ∃ s sp, TagUnits.makeTagUnits mrphNum env.bnstNum mrph tag bnst = some s ∧
      sp = dpndInfoToTagRaw (s.sentence mrphNum env.bnstNum) (afterCky env c d) examples ∧
      TagHeads sp ∧
      (∀ t, t + 1 < sp.tagNum → (sp.tag t).inum = 0 → ∃ g : Nat, (sp.tag t).dpndHead = g ∧
        (afterCky env c d).head (sp.bnstOf t) = sp.bnstOf g) ∧
      ∀ opt lastContentM link, Attachable sp opt →
        MrphHeadsTree sp (dpndInfoToMrph sp opt lastContentM link) := by
  obtain ⟨s, hs, hdiv⟩ := @TagUnits.makeTagUnits_sentence _ _ mrph _ tag hchunked hpos
  have hdp : RightHeaded (afterCky env c d) (s.sentence mrphNum env.bnstNum).bnstNum :=
    afterCky_rightHeaded hja hfix hc d
  have hheads := dpndInfoToTagRaw_tagHeads examples hdiv hdp
  refine ⟨s, _, hs, rfl, hheads, fun t ht hinum => ?_, fun opt lastContentM link ha => ?_⟩
  · rw [dpndInfoToTagRaw_inum] at hinum
    obtain ⟨b, hb, -, -, g, hg, -, hgb, -⟩ := tagHead_of_last examples hdiv hdp ht hinum
    refine ⟨g, hg, ?_⟩
    simp only [SentenceData.bnstOf, dpndInfoToTagRaw_bnum] at hb hgb ⊢
    rw [hb, hgb]
  · have hdiv' := dpndInfoToTagRaw_divided _ (afterCky env c d) examples hdiv
    obtain ⟨root, htree, htag⟩ := dpndInfoToMrph_tagTree hdiv' hheads ha lastContentM link
    have hlast := hdiv'.tag.last
    rw [← htag, Nat.add_sub_cancel] at hlast
    exact ⟨root, htree, hlast⟩

/-- 大統領は 三日 到着 した with one morpheme for each bunsetsu. -/
theorem follow_tagHeads : ∃ s, TagUnits.makeTagUnits 3 3
    (fun _ => ⟨"名詞", "普通名詞", [], 0, 0⟩) (fun _ => TagUnits.newTag 0 0)
    (fun b => ⟨⟨0, 0, []⟩, b, b, 1⟩) = some s ∧ TagHeads (dpndInfoToTagRaw (s.sentence 3 3)
      (afterCky followEnv followParse ⟨fun _ => -1, fun _ => 'D'⟩) fun _ _ => false) := by
  have hchunked : TagUnits.Chunked 3 3 fun b => ⟨⟨0, 0, []⟩, b, b, 1⟩ :=
    ⟨⟨fun _ _ _ => Nat.one_pos, fun _ => rfl, fun _ _ _ => rfl, fun b _ hb => hb, nofun⟩,
      fun _ _ => rfl⟩
  obtain ⟨s, _, hs, rfl, hheads, -⟩ := parse_heads (plainSentenceEnv_rules (by decide)) rfl
    (by decide +kernel : followParse ∈ (cky followEnv).matrix 0 2) ⟨fun _ => -1, fun _ => 'D'⟩
    (fun _ _ => false) 3 (fun _ => ⟨"名詞", "普通名詞", [], 0, 0⟩)
    (fun _ => TagUnits.newTag 0 0) hchunked (by decide)
  exact ⟨s, hs, hheads⟩

end Knp
