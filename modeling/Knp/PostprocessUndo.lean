import Knp.PostprocessNumbers

/-!
# After the merge and back (`dpnd_analysis.c`)

> `tag_bnst_postprocess` numbers the runs of merged tags and bunsetsu consistently, with
> their morphemes and heads, and `undo_tag_bnst_postprocess` restores all units, just where
> the first tag is not merged and the bytes that are added agree with the lengths.
-/

namespace Knp.Postprocess

open Loop Runs

variable {π : Type}

def morphemes (v : UnitData π) : List Nat := List.range' v.mrphPtr v.mrphNum

/-- The unit that is left of the run from `a` to `l`. -/
structure RunRenumbered (u : Nat → UnitData π) (absorbed : Nat → Bool) (a l : Nat)
    (u' : Nat → UnitData π) : Prop where
  root : (u l).dpndHead = -1 → (u' a).dpndHead = -1
  head : ∀ h : Nat, (u l).dpndHead = h → ∃ s, TakesIn absorbed s h ∧
    (u' a).dpndHead = (u' s).num ∧ (u' a).num < (u' a).dpndHead
  mrphs : morphemes (u' a) = (List.range' a (l + 1 - a)).flatMap fun k => morphemes (u k)
  length : (u' a).length = ((List.range' a (l + 1 - a)).map fun k => (u k).length).sum

/-- What is left is numbered in its order. -/
structure Renumbered (u : Nat → UnitData π) (absorbed : Nat → Bool) (n : Nat)
    (u' : Nat → UnitData π) : Prop where
  merged : ∀ k < n, absorbed k = true → (u' k).num = -1
  left : ∀ a < n, absorbed a = false → (u' a).num = leftBelow absorbed a
  run : ∀ a l, Run absorbed n a l → RunRenumbered u absorbed a l u'

/-- The bytes that are added for the merged units of each run are as many as their lengths. -/
def LengthsAgree (u : Nat → UnitData π) (absorbed : Nat → Bool) (n : Nat) (bytes : Nat → Nat) :
    Prop :=
  ∀ a l, Run absorbed n a l → ((List.range' (a + 1) (l - a)).map bytes).sum =
    ((List.range' (a + 1) (l - a)).map fun k => (u k).length).sum

/-- The units as they were. -/
def SameNumbers (n : Nat) (u u' : Nat → UnitData π) : Prop :=
  ∀ k < n, (u' k).num = (u k).num ∧ (u' k).mrphNum = (u k).mrphNum ∧ (u' k).length = (u k).length

structure Restored (sp sp' : SentenceData π) : Prop where
  tag : SameNumbers sp.tagNum sp.tag sp'.tag
  bnst : SameNumbers sp.bnstNum sp.bnst sp'.bnst
  bnum : ∀ i < sp.tagNum, 0 ≤ sp.bnum i → sp'.bnum i = sp.bnum i

section Numbers

variable {goi2 : Nat → String} {u u₁ : Nat → UnitData π} {absorbed : Nat → Bool}
  {bytes : Nat → Nat} {table : Nat → Int} {n a l k : Nat}

/-- The units after the last loop. -/
def renumbered (table : Nat → Int) (n : Nat) (u : Nat → UnitData π) : Nat → UnitData π :=
  fun k => if k < n then renumberUnit table k (u k) else u k

theorem Units.morphemes_run (h : Units goi2 n u) (hal : a ≤ l) (hl : l < n) :
    (List.range' a (l + 1 - a)).flatMap (fun k => morphemes (u k)) =
      List.range' (u a).mrphPtr ((List.range' a (l + 1 - a)).map fun k => (u k).mrphNum).sum ∧
    (u l).mrphPtr + (u l).mrphNum =
      (u a).mrphPtr + ((List.range' a (l + 1 - a)).map fun k => (u k).mrphNum).sum := by
  obtain ⟨d, rfl⟩ := Nat.exists_eq_add_of_le hal
  rw [show a + d + 1 - a = d + 1 by omega]
  clear hal
  induction d with
  | zero => simp [morphemes]
  | succ d ih =>
      obtain ⟨hflat, hend⟩ := ih (by omega)
      have hptr := h.contiguous (a + d) (by omega)
      rw [List.range'_1_concat, List.flatMap_append, List.map_append, List.sum_append, hflat]
      simp only [List.flatMap_singleton, List.map_singleton, List.sum_singleton, morphemes]
      rw [← Nat.add_assoc a d 1] at *
      rw [hptr, hend, List.range'_append_1]
      exact ⟨rfl, Nat.add_assoc ..⟩

theorem Merged.renumbered_num (h : Merged u absorbed bytes n u₁) (hu : Units goi2 n u)
    (htable : ∀ k < n, table k = rank absorbed k) (hk : k < n) :
    (renumbered table n u₁ k).num = if absorbed k then -1 else rank absorbed k := by
  have hnum := h.num k
  unfold renumbered renumberUnit
  rw [if_pos hk]
  cases hab : absorbed k with
  | true =>
      rw [if_pos ⟨hk, hab⟩] at hnum
      rw [if_neg (not_not.mpr hnum), hnum]
      rfl
  | false =>
      rw [if_neg (by simp [hab]), hu.num k hk] at hnum
      rw [if_pos (by omega)]
      exact htable k hk

theorem Merged.renumbered_run (h : Merged u absorbed bytes n u₁) (hu : Units goi2 n u)
    (hrun : Run absorbed n a l) : renumbered table n u₁ a = { u₁ a with
      num := table a
      dpndHead := if (u l).dpndHead ≠ -1 then table (u l).dpndHead.toNat else -1 } := by
  have ha : a < n := hrun.takesIn.le.trans_lt hrun.lt
  have hnum := h.num a
  rw [if_neg (by simp [hrun.takesIn.left]), hu.num a ha] at hnum
  unfold renumbered renumberUnit
  rw [if_pos ha, if_pos (by omega), (h.run a l hrun).dpndHead]
  split_ifs with hroot
  · rfl
  · rw [not_not.mp hroot]

/-- All but the length of a run. -/
theorem Merged.runRenumbered (h : Merged u absorbed bytes n u₁) (hu : Units goi2 n u)
    (htable : ∀ k < n, table k = rank absorbed k) (hzero : absorbed 0 = false)
    (hrun : Run absorbed n a l) :
    RunRenumbered u absorbed a l (renumbered table n u₁) ↔
      ((List.range' (a + 1) (l - a)).map bytes).sum =
        ((List.range' (a + 1) (l - a)).map fun k => (u k).length).sum := by
  have hal := hrun.takesIn.le
  have ha : a < n := hal.trans_lt hrun.lt
  have hunit : renumbered table n u₁ a = _ := h.renumbered_run hu hrun
  have hlength : (renumbered table n u₁ a).length =
      ((List.range' a (l + 1 - a)).map fun k => (u k).length).sum ↔
      ((List.range' (a + 1) (l - a)).map bytes).sum =
        ((List.range' (a + 1) (l - a)).map fun k => (u k).length).sum := by
    rw [hunit, Nat.sub_add_comm hal, List.range'_succ, List.map_cons, List.sum_cons]
    dsimp only
    rw [(h.run a l hrun).length, Nat.add_left_cancel_iff]
  refine ⟨fun hall => hlength.mp hall.length, fun hagree =>
    ⟨fun hroot => ?_, fun hd hhead => ?_, ?_, hlength.mpr hagree⟩⟩
  · rw [hunit, hroot]
    rfl
  · obtain ⟨hd', heq, hlt, hn⟩ := (hu.head l hrun.lt).resolve_left (by omega)
    obtain rfl : hd = hd' := by omega
    obtain ⟨s, hs⟩ := exists_takesIn hzero hd
    have hls := hrun.lt_of_lt hlt hn hs
    have hsn : s < n := hs.le.trans_lt hn
    have hnum := h.renumbered_num hu htable hsn
    rw [hs.left] at hnum
    have hnew : (renumbered table n u₁ a).dpndHead = rank absorbed s := by
      rw [hunit, hhead]
      dsimp only
      rw [if_pos (by omega), Int.toNat_natCast, htable hd hn, hs.rank_eq]
    refine ⟨s, hs, hnew.trans hnum.symm, ?_⟩
    rw [hnew, h.renumbered_num hu htable ha, hrun.takesIn.left]
    exact rank_lt (by omega) hs.left
  · rw [(hu.morphemes_run hal hrun.lt).1, hunit, morphemes]
    dsimp only
    rw [h.ptr, (h.run a l hrun).mrphNum]

theorem Merged.renumbered_iff (h : Merged u absorbed bytes n u₁) (hu : Units goi2 n u)
    (htable : ∀ k < n, table k = rank absorbed k) (hzero : absorbed 0 = false) :
    Renumbered u absorbed n (renumbered table n u₁) ↔ LengthsAgree u absorbed n bytes := by
  constructor
  · exact fun hall a l hrun => (h.runRenumbered hu htable hzero hrun).mp (hall.run a l hrun)
  · intro hagree
    refine ⟨fun k hk hab => ?_, fun a ha hab => ?_,
      fun a l hrun => (h.runRenumbered hu htable hzero hrun).mpr (hagree a l hrun)⟩
    · rw [h.renumbered_num hu htable hk, hab]
      rfl
    · rw [h.renumbered_num hu htable ha, hab]
      exact rank_left hab

theorem bTable_spec (hnum : ∀ b < n, (u b).num ≠ -1 ↔ absorbed b = false) :
    ∀ b < n, (bTable u n).2 b = rank absorbed b := by
  have hrun : (bTable u n).1 = leftBelow absorbed n - 1 ∧
      ∀ b < n, (bTable u n).2 b = rank absorbed b := by
    refine upTo_induction _ (fun i (s : Int × (Nat → Int)) => s.1 = leftBelow absorbed i - 1 ∧
      ∀ b < i, s.2 b = rank absorbed b) (Nat.zero_le n) (fun i s _ hi hs => ?_)
      ⟨by simp [leftBelow], fun b hb => absurd hb (Nat.not_lt_zero b)⟩
    obtain ⟨hcount, htable⟩ := hs
    have hnext : (if (u i).num ≠ -1 then s.1 + 1 else s.1) = leftBelow absorbed (i + 1) - 1 := by
      rw [leftBelow_succ, hcount]
      cases hab : absorbed i with
      | true =>
          rw [if_neg fun h => by rw [(hnum i hi).mp h] at hab; cases hab]
          simp
      | false =>
          rw [if_pos ((hnum i hi).mpr hab)]
          simp
    refine ⟨hnext, fun b hb => ?_⟩
    dsimp only
    by_cases hbi : b = i
    · subst hbi
      rw [Function.update_self, hnext, rank]
    · rw [Function.update_of_ne hbi, htable b (by omega)]
  exact hrun.2

theorem renumberTag_eq (sp : SentenceData π) (tTable bTable : Nat → Int) (i : Nat) :
    renumberTag tTable bTable i sp = { sp with
      tag := Function.update sp.tag i (renumberUnit tTable i (sp.tag i))
      bnum := if 0 ≤ sp.bnum i then Function.update sp.bnum i (bTable (sp.bnum i).toNat)
        else sp.bnum } := by
  unfold renumberTag
  dsimp only
  split_ifs <;> rfl

/-- The numbers of the bunsetsu that the tags begin, after the last loops. -/
def renumberedBnum (bTable : Nat → Int) (n : Nat) (bnum : Nat → Int) : Nat → Int :=
  fun i => if i < n ∧ 0 ≤ bnum i then bTable (bnum i).toNat else bnum i

theorem renumberTag_loop (sp : SentenceData π) (tTable bTable : Nat → Int) (n : Nat) :
    upTo 0 n (renumberTag tTable bTable) sp = { sp with
      tag := renumbered tTable n sp.tag
      bnum := renumberedBnum bTable n sp.bnum } := by
  refine upTo_induction _ (fun n sp' => sp' = { sp with
      tag := renumbered tTable n sp.tag
      bnum := renumberedBnum bTable n sp.bnum }) (Nat.zero_le n) ?_ ?_
  · rintro i sp' - - rfl
    have htag : Function.update (renumbered tTable i sp.tag) i
        (renumberUnit tTable i (renumbered tTable i sp.tag i)) = renumbered tTable (i + 1) sp.tag := by
      funext k
      unfold renumbered
      by_cases hk : k = i
      · subst hk
        simp
      · rw [Function.update_of_ne hk]
        exact if_congr (by omega) rfl rfl
    have hself : renumberedBnum bTable i sp.bnum i = sp.bnum i := if_neg fun h => lt_irrefl i h.1
    have hbnum : (if 0 ≤ sp.bnum i then Function.update (renumberedBnum bTable i sp.bnum) i
        (bTable (sp.bnum i).toNat) else renumberedBnum bTable i sp.bnum) =
        renumberedBnum bTable (i + 1) sp.bnum := by
      funext k
      by_cases hk : k = i
      · subst hk
        rw [renumberedBnum]
        split_ifs with hpos hand hand
        · exact Function.update_self ..
        · exact absurd ⟨Nat.lt_succ_self k, hpos⟩ hand
        · exact absurd hand.2 hpos
        · exact hself
      · have hlt : k < i ∧ 0 ≤ sp.bnum k ↔ k < i + 1 ∧ 0 ≤ sp.bnum k :=
          and_congr_left fun _ => by omega
        have hkeep : (if 0 ≤ sp.bnum i then Function.update (renumberedBnum bTable i sp.bnum) i
            (bTable (sp.bnum i).toNat) else renumberedBnum bTable i sp.bnum) k =
            renumberedBnum bTable i sp.bnum k := by
          split_ifs
          · exact Function.update_of_ne hk ..
          · rfl
        rw [hkeep]
        exact if_congr hlt rfl rfl
    rw [renumberTag_eq]
    dsimp only
    simp only [htag, hself, hbnum]
  · have hbnum : renumberedBnum bTable 0 sp.bnum = sp.bnum :=
      funext fun i => if_neg fun h => Nat.not_lt_zero i h.1
    have htag : renumbered tTable 0 sp.tag = sp.tag := funext fun k => if_neg (Nat.not_lt_zero k)
    rw [hbnum, htag]

end Numbers

/-! ## The whole pass -/

section Pass

variable {rules : (Nat → List String) → Nat → List String} {sp : SentenceData π}
  {first : Nat → Nat} {tag bnst : Nat → UnitData π} {count : Int} {tTable : Nat → Int}

/-- The result with the numbers of the runs. -/
def passed (sp : SentenceData π) (tTable bTable : Nat → Int) (tag bnst : Nat → UnitData π) :
    SentenceData π :=
  { sp with
    tag := renumbered tTable sp.tagNum tag
    bnum := renumberedBnum bTable sp.tagNum sp.bnum
    bnst := renumbered bTable sp.bnstNum bnst }

theorem tagBnstPostprocess_pass (hsp : Sound sp first) (hzero : marks rules sp 0 = false) :
    ∃ tag bnst count tTable, tagBnstPostprocess rules sp 1 =
        some (passed sp tTable (bTable bnst sp.bnstNum).2 tag bnst) ∧
      Turned sp first (marks rules sp) sp.tagNum sp.bnstNum tag bnst count tTable := by
  obtain ⟨tag, bnst, count, tTable, hrun, h⟩ := Turned.run hsp
    (u := fun i => { sp.tag i with f := rules (fun k => (sp.tag k).f) i })
    (fun k => ⟨rfl, rfl, rfl, rfl, rfl, rfl⟩) (fun k => rfl) hzero
  refine ⟨tag, bnst, count, tTable, ?_, h⟩
  rw [tagBnstPostprocess]
  dsimp only
  rw [hrun]
  simp only [Option.bind_eq_bind, Option.bind_some, renumberTag_loop, upTo_update]
  rfl

theorem tagBnstPostprocess_first (hnum : 0 < sp.tagNum) (hmark : marks rules sp 0 = true) :
    tagBnstPostprocess rules sp 1 = none := by
  have hrun := run_first sp (u := fun i => { sp.tag i with f := rules (fun k => (sp.tag k).f) i })
    (-1) (fun _ => 0) hnum hmark
  rw [tagBnstPostprocess]
  dsimp only
  rw [hrun]
  rfl

/-- The units after `n` turns of `undo_tag_bnst_postprocess`. -/
def restored (goi2 : Nat → String) (n : Nat) (u : Nat → UnitData π) : Nat → UnitData π :=
  fun k => if k < n then restoreUnit goi2 k (u k) else u k

theorem restored_succ (goi2 : Nat → String) (n : Nat) (u : Nat → UnitData π) :
    Function.update (restored goi2 n u) n (restoreUnit goi2 n (restored goi2 n u n)) =
      restored goi2 (n + 1) u := by
  funext k
  unfold restored
  by_cases hk : k = n
  · subst hk
    simp
  · rw [Function.update_of_ne hk]
    exact if_congr (by omega) rfl rfl

/-- Whatever has been done to the units, as long as the tags begin the same bunsetsu. -/
theorem undo_run (hsp : Sound sp first) (sp' : SentenceData π) (hgoi2 : sp'.goi2 = sp.goi2)
    (htagNum : sp'.tagNum = sp.tagNum) (hbPtr : sp'.bPtr = sp.bPtr)
    (hbnum : ∀ i < sp.tagNum, 0 ≤ sp'.bnum i ↔ 0 ≤ sp.bnum i) :
    (undoTagBnstPostprocess sp').tag = restored sp.goi2 sp.tagNum sp'.tag ∧
      (undoTagBnstPostprocess sp').bnst = restored sp.goi2 sp.bnstNum sp'.bnst ∧
      ∀ i < sp.tagNum, 0 ≤ sp.bnum i → (undoTagBnstPostprocess sp').bnum i = sp.bnum i := by
  obtain ⟨m, bnum, hs, hbegun, hle, -, hdone⟩ := upTo_induction (s := (sp', 0)) undoTurn
    (fun i (s : SentenceData π × Int) => ∃ (m : Nat) (bnum : Nat → Int),
      s = ({ sp' with
        tag := restored sp.goi2 i sp'.tag
        bnum := bnum
        bnst := restored sp.goi2 m sp'.bnst }, (m : Int)) ∧
      (∀ b < sp.bnstNum, first b < i ↔ b < m) ∧ m ≤ sp.bnstNum ∧
      (∀ k, i ≤ k → bnum k = sp'.bnum k) ∧
      ∀ k < i, 0 ≤ sp.bnum k → bnum k = sp.bnum k) (Nat.zero_le sp.tagNum)
    (fun i s _ hi hs => by
      obtain ⟨m, bnum, rfl, hbegun, hle, hlater, hdone⟩ := hs
      have hnow := hlater i le_rfl
      unfold undoTurn
      dsimp only
      rw [hgoi2, hbPtr, restored_succ]
      rcases hsp.next hbegun hi with ⟨hb, hptr, hfirst, hm, hbegun'⟩ | ⟨hb, hbegun'⟩
      · rw [if_pos (hnow ▸ (hbnum i hi).mpr hb), hptr, restored_succ]
        refine ⟨m + 1, Function.update bnum i m, by push_cast; rfl, hbegun', hm, fun k hk => ?_,
          fun k hk hkb => ?_⟩
        · rw [Function.update_of_ne (by omega), hlater k (by omega)]
        · by_cases hki : k = i
          · subst hki
            rw [Function.update_self, ← hfirst, (hsp.begins m hm).1]
          · rw [Function.update_of_ne hki, hdone k (by omega) hkb]
      · have hneg : ¬0 ≤ bnum i := by rw [hnow, hbnum i hi]; omega
        rw [if_neg hneg]
        refine ⟨m, bnum, rfl, hbegun', hle, fun k hk => hlater k (by omega), fun k hk hkb => ?_⟩
        have hki : k ≠ i := fun heq => by rw [heq] at hkb; omega
        exact hdone k (by omega) hkb)
    ⟨0, sp'.bnum, rfl, fun b _ => ⟨fun h => absurd h (Nat.not_lt_zero _),
      fun h => absurd h (Nat.not_lt_zero _)⟩, Nat.zero_le _, fun k _ => rfl,
      fun k hk => absurd hk (Nat.not_lt_zero k)⟩
  obtain rfl : m = sp.bnstNum := by
    refine le_antisymm hle ?_
    by_contra hlt
    have hm : m < sp.bnstNum := by omega
    exact absurd ((hbegun m hm).mp (hsp.first_lt m hm)) (lt_irrefl m)
  rw [undoTagBnstPostprocess, htagNum, hs]
  exact ⟨rfl, rfl, hdone⟩

theorem restored_same {goi2 : Nat → String} {n : Nat} {u u₁ : Nat → UnitData π}
    {absorbed : Nat → Bool} {bytes : Nat → Nat} {table : Nat → Int} (hu : Units goi2 n u)
    (h : Merged u absorbed bytes n u₁) :
    SameNumbers n u (restored goi2 n (renumbered table n u₁)) := by
  intro k hk
  have hkeep : (renumbered table n u₁ k).preserveMrphNum = (u k).mrphNum ∧
      (renumbered table n u₁ k).mrphPtr = (u k).mrphPtr := by
    rw [← h.saved k hk, ← h.ptr k]
    unfold renumbered renumberUnit
    rw [if_pos hk]
    split_ifs <;> exact ⟨rfl, rfl⟩
  unfold restored
  rw [if_pos hk]
  refine ⟨(hu.num k hk).symm, hkeep.1, ?_⟩
  rw [hu.length k hk]
  simp only [restoreUnit, calcBnstLength, hkeep]

/-- The numbers stay those of tags that begin bunsetsu. -/
theorem passed_bnum (hsp : Sound sp first) {table : Nat → Int}
    (htable : ∀ b < sp.bnstNum, 0 ≤ table b) (i : Nat) (hi : i < sp.tagNum) :
    0 ≤ renumberedBnum table sp.tagNum sp.bnum i ↔ 0 ≤ sp.bnum i := by
  unfold renumberedBnum
  by_cases hb : ∃ b < sp.bnstNum, first b = i
  · obtain ⟨b, hb, rfl⟩ := hb
    obtain ⟨hbnum, -⟩ := hsp.begins b hb
    rw [if_pos ⟨hi, by omega⟩, hbnum, Int.toNat_natCast]
    exact iff_of_true (htable b hb) (Int.natCast_nonneg b)
  · have := hsp.inside i hi fun b hb' heq => hb ⟨b, hb', heq⟩
    rw [if_neg (by omega)]

end Pass

/-- What the pass and its undoing are for. -/
def PassOk (rules : (Nat → List String) → Nat → List String) (sp : SentenceData π)
    (first : Nat → Nat) : Prop :=
  ∃ sp', tagBnstPostprocess rules sp 1 = some sp' ∧
    Renumbered sp.tag (marks rules sp) sp.tagNum sp'.tag ∧
    Renumbered sp.bnst (fun b => marks rules sp (first b)) sp.bnstNum sp'.bnst ∧
    Restored sp (undoTagBnstPostprocess sp')

/-- The pass does what it should just where the first tag is left and the bytes agree with the
lengths. -/
theorem passOk_iff {rules : (Nat → List String) → Nat → List String} {sp : SentenceData π}
    {first : Nat → Nat} (hsp : Sound sp first) (hnum : 0 < sp.tagNum) :
    PassOk rules sp first ↔ marks rules sp 0 = false ∧
      LengthsAgree sp.tag (marks rules sp) sp.tagNum (tagBytes sp) ∧
      LengthsAgree sp.bnst (fun b => marks rules sp (first b)) sp.bnstNum
        (bnstBytes sp first) := by
  cases hzero : marks rules sp 0 with
  | true =>
      refine iff_of_false ?_ (fun h => absurd h.1 (by decide))
      rintro ⟨sp', hsp', -⟩
      rw [tagBnstPostprocess_first hnum hzero] at hsp'
      cases hsp'
  | false =>
      obtain ⟨tag, bnst, count, tTable, heq, h⟩ := tagBnstPostprocess_pass hsp hzero
      have hzeroB : marks rules sp (first 0) = false := by rw [hsp.first_zero, hzero]
      have hbTable : ∀ b < sp.bnstNum, (bTable bnst sp.bnstNum).2 b =
          rank (fun b => marks rules sp (first b)) b := bTable_spec fun b hb => by
        rw [h.bnst.num, hsp.bnsts.num b hb]
        cases marks rules sp (first b) <;> simp [hb]
      have htags := h.tag.renumbered_iff hsp.tags h.table hzero
      have hbnsts := h.bnst.renumbered_iff hsp.bnsts hbTable hzeroB
      have hrestored : Restored sp (undoTagBnstPostprocess
          (passed sp tTable (bTable bnst sp.bnstNum).2 tag bnst)) := by
        have hbnum := passed_bnum hsp fun b hb => (rank_nonneg hzeroB b).trans_eq (hbTable b hb).symm
        obtain ⟨htag, hbnst, hbnum⟩ := undo_run hsp
          (passed sp tTable (bTable bnst sp.bnstNum).2 tag bnst) rfl rfl rfl hbnum
        exact ⟨htag ▸ restored_same hsp.tags h.tag, hbnst ▸ restored_same hsp.bnsts h.bnst, hbnum⟩
      constructor
      · rintro ⟨sp', hsp', htag, hbnst, -⟩
        obtain rfl := Option.some.inj (heq.symm.trans hsp')
        exact ⟨rfl, htags.mp htag, hbnsts.mp hbnst⟩
      · rintro ⟨-, htag, hbnst⟩
        exact ⟨_, heq, htags.mpr htag, hbnsts.mpr hbnst, hrestored⟩

/-- One bunsetsu of two tags, the second of which is to be merged. -/
def twoTags (first second : String) : SentenceData Unit where
  goi2 i := if i = 0 then first else second
  tagNum := 2
  tag i :=
    if i = 0 then ⟨0, 0, 1, 0, 1, 'D', first.length * 2, [], ()⟩
    else ⟨i, 1, 1, 0, -1, 'D', second.length * 2, ["Ｔマージ←"], ()⟩
  bnum i := if i = 0 then 0 else -1
  bPtr _ := 0
  bnstNum := 1
  bnst i := ⟨i, 0, 2, 0, -1, 'D', first.length * 2 + second.length * 2, [], ()⟩

/-- Three bytes for each letter, and a length of two. -/
theorem twoTags_not_ok : ¬PassOk id (twoTags "読んで" "いる") id := by
  rintro ⟨sp', hsp', htag, -⟩
  have hrun : Run (marks id (twoTags "読んで" "いる")) 2 0 1 := by
    refine ⟨⟨Nat.zero_le 1, by decide, fun j hj hj1 => ?_⟩, Nat.one_lt_two, fun h => by omega⟩
    obtain rfl : j = 1 := by omega
    decide
  have hlength := (htag.run 0 1 hrun).length
  have hvalue : (tagBnstPostprocess id (twoTags "読んで" "いる") 1).map (fun sp => (sp.tag 0).length) =
      some 12 := by decide
  rw [hsp'] at hvalue
  exact absurd (hlength.symm.trans (Option.some.inj hvalue)) (by decide)

theorem twoTags_sound {first second : String} (h : first.length * 2 + second.length * 2 < 256) :
    Sound (twoTags first second) id where
  tags :=
    { num := fun k hk => by
        have hk : k < 2 := hk
        interval_cases k <;> rfl
      head := fun k hk => by
        have hk : k < 2 := hk
        interval_cases k
        · exact .inr ⟨1, rfl, Nat.one_pos, Nat.one_lt_two⟩
        · exact .inl rfl
      contiguous := fun k hk => by
        obtain rfl : k = 0 := by
          have hk : k + 1 < 2 := hk
          omega
        rfl
      length := fun k hk => by
        have hk : k < 2 := hk
        interval_cases k <;> simp [twoTags, calcBnstLength, lengthFrom, BNST_LENGTH_MAX] <;> omega }
  bnsts :=
    { num := fun k hk => by
        obtain rfl : k = 0 := Nat.lt_one_iff.mp hk
        rfl
      head := fun k hk => .inl rfl
      contiguous := fun k hk => absurd hk (by simp [twoTags])
      length := fun k hk => by
        have hfirst : ¬256 ≤ first.length * 2 := by omega
        have hboth : ¬256 ≤ first.length * 2 + second.length * 2 := by omega
        simp [twoTags, calcBnstLength, lengthFrom, BNST_LENGTH_MAX, hfirst, hboth] }
  nonempty := fun _ => Nat.one_pos
  first_zero := rfl
  first_lt := fun b hb => by
    have hb : b < 1 := hb
    exact Nat.lt_succ_of_lt hb
  mono := fun b c hbc _ => hbc
  begins := fun b hb => by
    obtain rfl : b = 0 := Nat.lt_one_iff.mp hb
    exact ⟨rfl, rfl⟩
  inside := fun i hi hno => by
    have hi : i < 2 := hi
    have := hno 0 Nat.one_pos
    interval_cases i
    · exact absurd rfl this
    · exact Int.negSucc_lt_zero 0

/-- Two bytes for each letter. -/
theorem twoTags_ok : PassOk id (twoTags "読んで" "××") id := by
  refine (passOk_iff (twoTags_sound (by decide)) Nat.two_pos).mpr
    ⟨by decide, fun a l hrun => ?_, fun a l hrun => ?_⟩
  · have hl : l < 2 := hrun.lt
    have hal := hrun.takesIn.le
    interval_cases l <;> interval_cases a <;> decide
  · have hl : l < 1 := hrun.lt
    obtain ⟨rfl, rfl⟩ : l = 0 ∧ a = 0 := by have := hrun.takesIn.le; omega
    rfl

end Knp.Postprocess
