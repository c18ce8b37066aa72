import Knp.PostprocessRuns

/-!
# The numbers after the merge (`dpnd_analysis.c`)

The loop of `tag_bnst_postprocess` keeps for the tags and for the bunsetsu what has become of
their runs; the tables then give each unit the number of its run.

> Numbers, heads and morphemes are right and are restored whatever is merged, unless the first
> tag is. The lengths are right just where the bytes agree with the lengths.
-/

namespace Knp.Postprocess

open Loop Runs

variable {π : Type}

/-- Units one behind the other, with their heads to the right. -/
structure Units (goi2 : Nat → String) (n : Nat) (u : Nat → UnitData π) : Prop where
  num : ∀ k < n, (u k).num = k
  head : ∀ k < n, (u k).dpndHead = -1 ∨ ∃ h : Nat, (u k).dpndHead = h ∧ k < h ∧ h < n
  contiguous : ∀ k, k + 1 < n → (u (k + 1)).mrphPtr = (u k).mrphPtr + (u k).mrphNum
  length : ∀ k < n, (u k).length = calcBnstLength goi2 (u k)

/-- `first` gives the first tag of each bunsetsu. -/
structure Sound (sp : SentenceData π) (first : Nat → Nat) : Prop where
  tags : Units sp.goi2 sp.tagNum sp.tag
  bnsts : Units sp.goi2 sp.bnstNum sp.bnst
  nonempty : 0 < sp.tagNum → 0 < sp.bnstNum
  first_zero : first 0 = 0
  first_lt : ∀ b < sp.bnstNum, first b < sp.tagNum
  mono : ∀ b c, b < c → c < sp.bnstNum → first b < first c
  begins : ∀ b < sp.bnstNum, sp.bnum (first b) = b ∧ sp.bPtr (first b) = b
  inside : ∀ i < sp.tagNum, (∀ b < sp.bnstNum, first b ≠ i) → sp.bnum i < 0

/-- The bytes that are added for a tag. -/
def tagBytes (sp : SentenceData π) (i : Nat) : Nat :=
  bytesFrom sp.goi2 (sp.tag i).mrphPtr (sp.tag i).mrphNum

/-- The bytes that are added for a bunsetsu. -/
def bnstBytes (sp : SentenceData π) (first : Nat → Nat) (b : Nat) : Nat :=
  bytesFrom sp.goi2 (sp.bnst b).mrphPtr (sp.tag (first b)).mrphNum

/-- Tag `i` is to be merged. -/
def marks (rules : (Nat → List String) → Nat → List String) (sp : SentenceData π) (i : Nat) :
    Bool :=
  hasFeature (rules (fun k => (sp.tag k).f) i) "Ｔマージ←"

/-- The units in front of tag `i`, where `m` bunsetsu have begun. -/
structure Turned (sp : SentenceData π) (first : Nat → Nat) (absorbed : Nat → Bool) (i m : Nat)
    (tag bnst : Nat → UnitData π) (count : Int) (tTable : Nat → Int) : Prop where
  marks : ∀ k, i ≤ k → hasFeature (tag k).f "Ｔマージ←" = absorbed k
  tag : Merged sp.tag absorbed (tagBytes sp) i tag
  bnst : Merged sp.bnst (fun b => absorbed (first b)) (bnstBytes sp first) m bnst
  begun : ∀ b < sp.bnstNum, first b < i ↔ b < m
  begun_le : m ≤ sp.bnstNum
  count : count = leftBelow absorbed i - 1
  table : ∀ k < i, tTable k = rank absorbed k

section Turn

variable {sp : SentenceData π} {first : Nat → Nat} {absorbed : Nat → Bool} {i m : Nat}
  {tag bnst u u' : Nat → UnitData π} {count : Int} {tTable : Nat → Int} {bytes : Nat → Nat}
  {n a k : Nat}

theorem sameUnits_mergeUnit (h : SameUnits u u') (b : Nat) :
    SameUnits (mergeUnit a k b u) (mergeUnit a k b u') := by
  intro j
  obtain ⟨hnum, hptr, hsave, hmrph, hhead, hlen⟩ := h j
  have hmrph' : ∀ j, (u' j).mrphNum = (u j).mrphNum := fun j => (h j).2.2.2.1
  have hhead' : ∀ j, (u' j).dpndHead = (u j).dpndHead := fun j => (h j).2.2.2.2.1
  unfold mergeUnit
  by_cases hja : j = a
  · subst hja
    by_cases hjk : j = k
    · subst hjk
      simp [hptr, hsave, hmrph, hhead, hlen]
    · simp [hjk, hnum, hptr, hsave, hmrph, hlen, hmrph' k, hhead' k]
  · by_cases hjk : j = k
    · subst hjk
      simp [hja, hptr, hsave, hmrph, hhead, hlen]
    · simp [hja, hjk, hnum, hptr, hsave, hmrph, hhead, hlen]

/-- The search for the unit that takes in the next one. -/
theorem Merged.mergeTo_eq (h : Merged u absorbed bytes n u') (hnum : ∀ k < n, (u k).num = k)
    (hn : absorbed n = true) (ha : TakesIn absorbed a n) :
    mergeTo (saveMrphNum n u') n = some a := by
  refine Postprocess.mergeTo_eq (fun j hj => ?_) hn ha
  rw [saveMrphNum_num, h.num, hnum j hj]
  cases hab : absorbed j <;> simp [hj]

theorem saveUnits_eq (i : Nat) (tag bnst : Nat → UnitData π) :
    saveUnits i { sp with tag := tag, bnst := bnst } = { sp with
      tag := saveMrphNum i tag
      bnst := if 0 ≤ sp.bnum i then saveMrphNum (sp.bPtr i) bnst else bnst } := by
  unfold saveUnits
  dsimp only
  split_ifs <;> rfl

theorem mergeUnits_eq {c : Nat} (ha : mergeTo tag i = some a)
    (hc : 0 ≤ sp.bnum i → mergeTo bnst (sp.bPtr i) = some c) (hai : a ≠ i) :
    mergeUnits i { sp with tag := tag, bnst := bnst } = some { sp with
      tag := assignFeature a "後処理-基本句マージ"
        (mergeUnit a i (bytesFrom sp.goi2 (tag i).mrphPtr (tag i).mrphNum) tag)
      bnst := if 0 ≤ sp.bnum i then mergeUnit c (sp.bPtr i)
          (bytesFrom sp.goi2 (bnst (sp.bPtr i)).mrphPtr (tag i).mrphNum)
          (copyParaInfo c (sp.bPtr i) bnst)
        else bnst } := by
  have hmrph : ∀ bytes, (assignFeature a "後処理-基本句マージ" (mergeUnit a i bytes tag) i).mrphNum =
      (tag i).mrphNum := by
    intro bytes
    unfold assignFeature mergeUnit
    rw [Function.update_of_ne hai.symm, Function.update_of_ne hai.symm, Function.update_self]
  unfold mergeUnits mergeTag
  dsimp only
  rw [ha, Option.map_some, Option.bind_some]
  split_ifs with hb
  · unfold mergeBnst
    dsimp only
    rw [hc hb, Option.map_some, hmrph]
  · rfl

/-- A tag begins the next bunsetsu or none. -/
theorem Sound.next (hsp : Sound sp first) (hbegun : ∀ b < sp.bnstNum, first b < i ↔ b < m)
    (hi : i < sp.tagNum) :
    (0 ≤ sp.bnum i ∧ sp.bPtr i = m ∧ first m = i ∧ m < sp.bnstNum ∧
      ∀ b < sp.bnstNum, first b < i + 1 ↔ b < m + 1) ∨
    (sp.bnum i < 0 ∧ ∀ b < sp.bnstNum, first b < i + 1 ↔ b < m) := by
  by_cases hb : ∃ b < sp.bnstNum, first b = i
  · obtain ⟨b, hb, rfl⟩ := hb
    have hle : m ≤ b := by
      by_contra hlt
      exact absurd ((hbegun b hb).mpr (by omega)) (lt_irrefl _)
    obtain rfl : m = b := by
      by_contra hne
      have hm : m < b := by omega
      exact absurd ((hbegun m (by omega)).mp (hsp.mono m b hm hb)) (lt_irrefl _)
    obtain ⟨hbnum, hptr⟩ := hsp.begins m hb
    refine .inl ⟨by omega, hptr, rfl, hb, fun c hc => ?_⟩
    rcases Nat.lt_trichotomy c m with hlt | rfl | hgt
    · have := hsp.mono c m hlt hb
      omega
    · omega
    · have := hsp.mono m c hgt hc
      omega
  · have hno : ∀ b < sp.bnstNum, first b ≠ i := fun b hb' heq => hb ⟨b, hb', heq⟩
    refine .inr ⟨hsp.inside i hi hno, fun b hb' => ?_⟩
    rw [← hbegun b hb']
    have := hno b hb'
    omega

theorem Turned.advance (h : Turned sp first absorbed i m tag bnst count tTable) {m' : Nat}
    {count' : Int} (hmarks : ∀ k, i + 1 ≤ k → (u k).f = (tag k).f)
    (htag : Merged sp.tag absorbed (tagBytes sp) (i + 1) u)
    (hbnst : Merged sp.bnst (fun b => absorbed (first b)) (bnstBytes sp first) m' u')
    (hbegun : ∀ b < sp.bnstNum, first b < i + 1 ↔ b < m') (hle : m' ≤ sp.bnstNum)
    (hcount : count' = leftBelow absorbed (i + 1) - 1) :
    Turned sp first absorbed (i + 1) m' u u' count' (Function.update tTable i count') := by
  refine ⟨fun k hk => ?_, htag, hbnst, hbegun, hle, hcount, fun k hk => ?_⟩
  · rw [hmarks k hk, h.marks k (by omega)]
  · by_cases hki : k = i
    · subst hki
      rw [Function.update_self, hcount, rank]
    · rw [Function.update_of_ne hki, h.table k (by omega)]

/-- A tag that is left. -/
theorem Turned.keep (h : Turned sp first absorbed i m tag bnst count tTable) (hsp : Sound sp first)
    (hi : i < sp.tagNum) (hmark : absorbed i = false) : ∃ m' tag' bnst' count' tTable',
      postTurn i ⟨{ sp with tag := tag, bnst := bnst }, count, tTable⟩ =
        some ⟨{ sp with tag := tag', bnst := bnst' }, count', tTable'⟩ ∧
      Turned sp first absorbed (i + 1) m' tag' bnst' count' tTable' := by
  have hmarks : ∀ k, i + 1 ≤ k → (saveMrphNum i tag k).f = (tag k).f := fun _ _ => saveMrphNum_f
  have hcount : count + 1 = leftBelow absorbed (i + 1) - 1 := by
    rw [leftBelow_succ, hmark, h.count]
    simp
  have hunmarked : hasFeature (saveMrphNum i tag i).f "Ｔマージ←" = false := by
    rw [saveMrphNum_f, ← hmark, ← h.marks i le_rfl]
  have hturn : postTurn i ⟨{ sp with tag := tag, bnst := bnst }, count, tTable⟩ =
      some ⟨{ sp with
        tag := saveMrphNum i tag
        bnst := if 0 ≤ sp.bnum i then saveMrphNum (sp.bPtr i) bnst else bnst }, count + 1,
        Function.update tTable i (count + 1)⟩ := by
    rw [postTurn]
    dsimp only
    rw [saveUnits_eq, marked, hunmarked]
    rfl
  rcases hsp.next h.begun hi with ⟨hb, hptr, hfirst, hm, hbegun⟩ | ⟨hb, hbegun⟩
  · refine ⟨m + 1, _, _, _, _, hturn, ?_⟩
    rw [if_pos hb, hptr]
    exact h.advance hmarks (h.tag.keep hmark) (h.bnst.keep (by rw [hfirst, hmark])) hbegun hm hcount
  · refine ⟨m, _, _, _, _, hturn, ?_⟩
    rw [if_neg (by omega)]
    exact h.advance hmarks (h.tag.keep hmark) h.bnst hbegun h.begun_le hcount

/-- A tag that is merged, with its bunsetsu if it begins one. -/
theorem Turned.take (h : Turned sp first absorbed i m tag bnst count tTable) (hsp : Sound sp first)
    (hi : i < sp.tagNum) (hzero : absorbed 0 = false) (hmark : absorbed i = true) :
    ∃ m' tag' bnst' count' tTable',
      postTurn i ⟨{ sp with tag := tag, bnst := bnst }, count, tTable⟩ =
        some ⟨{ sp with tag := tag', bnst := bnst' }, count', tTable'⟩ ∧
      Turned sp first absorbed (i + 1) m' tag' bnst' count' tTable' := by
  obtain ⟨a, ha⟩ := exists_takesIn hzero i
  have hai : a ≠ i := fun heq => by
    have := ha.left
    rw [heq, hmark] at this
    cases this
  have hto := h.tag.mergeTo_eq (fun k hk => hsp.tags.num k (by omega)) hmark ha
  have hcount : count = leftBelow absorbed (i + 1) - 1 := by
    rw [leftBelow_succ, hmark, h.count]
    simp
  have hmarked : hasFeature (saveMrphNum i tag i).f "Ｔマージ←" = true := by
    rw [saveMrphNum_f, ← hmark, ← h.marks i le_rfl]
  have hptr : (saveMrphNum i tag i).mrphPtr = (sp.tag i).mrphPtr := by
    rw [saveMrphNum_mrphPtr, h.tag.ptr]
  have hmrph : (saveMrphNum i tag i).mrphNum = (sp.tag i).mrphNum := by
    rw [saveMrphNum_mrphNum, (h.tag.rest i le_rfl).1]
  have hmarks : ∀ k, i + 1 ≤ k → (assignFeature a "後処理-基本句マージ"
      (mergeUnit a i (tagBytes sp i) (saveMrphNum i tag)) k).f = (tag k).f := by
    intro k hk
    have hka : k ≠ a := by have := ha.le; omega
    rw [assignFeature, Function.update_of_ne hka, mergeUnit, Function.update_of_ne hka,
      Function.update_of_ne (by omega), saveMrphNum_f]
  have htag := (h.tag.take hmark ha).congr (sameUnits_assignFeature a "後処理-基本句マージ")
  have hturn : ∀ c, (0 ≤ sp.bnum i → mergeTo (saveMrphNum (sp.bPtr i) bnst) (sp.bPtr i) = some c) →
      postTurn i ⟨{ sp with tag := tag, bnst := bnst }, count, tTable⟩ = some ⟨{ sp with
        tag := assignFeature a "後処理-基本句マージ"
          (mergeUnit a i (tagBytes sp i) (saveMrphNum i tag))
        bnst := if 0 ≤ sp.bnum i then mergeUnit c (sp.bPtr i)
            (bytesFrom sp.goi2 (bnst (sp.bPtr i)).mrphPtr (sp.tag i).mrphNum)
            (copyParaInfo c (sp.bPtr i) (saveMrphNum (sp.bPtr i) bnst))
          else bnst }, count, Function.update tTable i count⟩ := by
    intro c hc
    rw [postTurn]
    dsimp only
    rw [saveUnits_eq, marked, if_pos hmarked, mergeUnits_eq hto
      (fun hb => by rw [if_pos hb]; exact hc hb) hai, hptr, hmrph, Option.map_some]
    split_ifs
    · rw [saveMrphNum_mrphPtr]
      rfl
    · rfl
  rcases hsp.next h.begun hi with ⟨hb, hbptr, hfirst, hm, hbegun⟩ | ⟨hb, hbegun⟩
  · have hmB : absorbed (first m) = true := by rw [hfirst, hmark]
    have hzeroB : absorbed (first 0) = false := by rw [hsp.first_zero, hzero]
    obtain ⟨c, hc⟩ : ∃ c, TakesIn (fun b => absorbed (first b)) c m := exists_takesIn hzeroB m
    have htoB := h.bnst.mergeTo_eq (fun k hk => hsp.bnsts.num k (by omega)) hmB hc
    have hbytes : bytesFrom sp.goi2 (bnst m).mrphPtr (sp.tag i).mrphNum = bnstBytes sp first m := by
      rw [bnstBytes, h.bnst.ptr, hfirst]
    have hbnst := (h.bnst.take hmB hc).congr
      (sameUnits_mergeUnit (sameUnits_copyParaInfo c m) (bnstBytes sp first m))
    refine ⟨m + 1, _, _, _, _, hturn c fun _ => by rw [hbptr]; exact htoB, ?_⟩
    rw [if_pos hb, hbptr, hbytes]
    exact h.advance hmarks htag hbnst hbegun hm hcount
  · refine ⟨m, _, _, _, _, hturn 0 fun hb' => absurd hb' (by omega), ?_⟩
    rw [if_neg (by omega)]
    exact h.advance hmarks htag h.bnst hbegun h.begun_le hcount

theorem turned_start (hsame : SameUnits sp.tag tag)
    (hmarks : ∀ k, hasFeature (tag k).f "Ｔマージ←" = absorbed k) :
    Turned sp first absorbed 0 0 tag sp.bnst (-1) fun _ => 0 :=
  ⟨fun k _ => hmarks k, merged_zero.congr hsame, merged_zero,
    fun b _ => ⟨fun h => absurd h (Nat.not_lt_zero _), fun h => absurd h (Nat.not_lt_zero _)⟩,
    Nat.zero_le _, by simp [leftBelow], fun k hk => absurd hk (Nat.not_lt_zero k)⟩

/-- The whole loop. -/
theorem Turned.run (hsp : Sound sp first) (hsame : SameUnits sp.tag u)
    (hmarks : ∀ k, hasFeature (u k).f "Ｔマージ←" = absorbed k) (hzero : absorbed 0 = false) :
    ∃ tag bnst count tTable, upTo? 0 sp.tagNum postTurn ⟨{ sp with tag := u }, -1, fun _ => 0⟩ =
        some ⟨{ sp with tag := tag, bnst := bnst }, count, tTable⟩ ∧
      Turned sp first absorbed sp.tagNum sp.bnstNum tag bnst count tTable := by
  obtain ⟨s', hs', m, tag, bnst, count, tTable, rfl, h⟩ := upTo?_total postTurn
    (fun i s => ∃ m tag bnst count tTable,
      s = ⟨{ sp with tag := tag, bnst := bnst }, count, tTable⟩ ∧
      Turned sp first absorbed i m tag bnst count tTable) (Nat.zero_le sp.tagNum)
    (by
      rintro i s - hi ⟨m, tag, bnst, count, tTable, rfl, h⟩
      cases hmark : absorbed i with
      | false =>
          obtain ⟨m', tag', bnst', count', tTable', hturn, h'⟩ := h.keep hsp hi hmark
          exact ⟨_, hturn, m', tag', bnst', count', tTable', rfl, h'⟩
      | true =>
          obtain ⟨m', tag', bnst', count', tTable', hturn, h'⟩ := h.take hsp hi hzero hmark
          exact ⟨_, hturn, m', tag', bnst', count', tTable', rfl, h'⟩)
    ⟨0, u, sp.bnst, -1, fun _ => 0, rfl, turned_start hsame hmarks⟩
  obtain rfl : m = sp.bnstNum := by
    refine le_antisymm h.begun_le ?_
    by_contra hlt
    have hm : m < sp.bnstNum := by omega
    exact absurd ((h.begun m hm).mp (hsp.first_lt m hm)) (lt_irrefl m)
  exact ⟨tag, bnst, count, tTable, hs', h⟩

/-- The first tag has nothing in front of it to be merged into. -/
theorem run_first (sp : SentenceData π) (count : Int) (tTable : Nat → Int) (hnum : 0 < n)
    (hmark : hasFeature (u 0).f "Ｔマージ←" = true) :
    upTo? 0 n postTurn ⟨{ sp with tag := u }, count, tTable⟩ = none := by
  obtain ⟨n, rfl⟩ : ∃ k, n = k + 1 := ⟨n - 1, by omega⟩
  have hmarked : hasFeature (saveMrphNum 0 u 0).f "Ｔマージ←" = true := by rwa [saveMrphNum_f]
  have hturn : postTurn 0 ⟨{ sp with tag := u }, count, tTable⟩ = none := by
    rw [postTurn]
    dsimp only
    rw [saveUnits_eq, marked, if_pos hmarked, mergeUnits, mergeTag]
    rfl
  rw [upTo?, Nat.sub_zero, List.range'_succ, List.foldlM_cons, hturn]
  rfl

end Turn

end Knp.Postprocess
