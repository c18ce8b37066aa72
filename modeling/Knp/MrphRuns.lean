import Knp.MrphMerge

/-!
# The runs that the loop merges

The loop over the morphemes closes a run when it meets the next boundary or the end. What it
does is to close the maximal runs one after the other.
-/

namespace Knp.MrphMerge

open FeatureBytes

/-! ## Runs -/

section Runs

variable {l : List MrphSlot} {a b m : MrphSlot} {run : List MrphSlot} {t : List UInt8}

theorem sameMark_iff : sameMark a b = true ↔ ∃ t, markOf a = some t ∧ markOf b = some t := by
  unfold sameMark
  rw [Bool.and_eq_true, decide_eq_true_eq, Option.isSome_iff_exists]
  constructor
  · rintro ⟨⟨t, ht⟩, heq⟩
    exact ⟨t, ht, heq ▸ ht⟩
  · rintro ⟨t, ha, hb⟩
    exact ⟨⟨t, ha⟩, ha.trans hb.symm⟩

theorem runs_nil : runs [] = [] := rfl

/-- A run without a mark is one morpheme, the morphemes of another all have its mark. -/
theorem mem_runs (h : run ∈ runs l) :
    (∃ m, run = [m] ∧ markOf m = none) ∨ ∃ t, run ≠ [] ∧ ∀ m ∈ run, markOf m = some t := by
  have hne := List.ne_nil_of_mem_splitBy h
  have hchain := List.isChain_of_mem_splitBy h
  obtain ⟨m, rest, rfl⟩ := List.exists_cons_of_ne_nil hne
  cases hm : markOf m with
  | none =>
      refine .inl ⟨m, ?_, hm⟩
      cases rest with
      | nil => rfl
      | cons b rest =>
          obtain ⟨t, ht, -⟩ := sameMark_iff.mp hchain.rel
          rw [hm] at ht
          cases ht
  | some t =>
      refine .inr ⟨t, hne, ?_⟩
      clear h hne
      induction rest generalizing m with
      | nil => simpa using hm
      | cons b rest ih =>
          obtain ⟨t', ht, hb⟩ := sameMark_iff.mp hchain.rel
          obtain rfl : t = t' := Option.some.inj (hm.symm.trans ht)
          exact List.forall_mem_cons.mpr ⟨hm, ih b hchain.tail hb⟩

/-- A run up to a morpheme without its mark. -/
theorem runs_append (hne : run ≠ []) (hrun : ∀ m ∈ run, markOf m = some t)
    (hl : ∀ m ∈ l.head?, markOf m ≠ some t) : runs (run ++ l) = run :: runs l := by
  have hsplit : runs (run ++ l) = runs run ++ runs l := by
    refine List.splitBy_append fun x hx y hy => ?_
    rw [← Bool.not_eq_true, sameMark_iff]
    rintro ⟨t', hx', hy'⟩
    have hxt := hrun x (List.mem_of_mem_getLast? hx)
    exact hl y hy (hy'.trans (hx'.symm.trans hxt))
  have hone : runs run = [run] := by
    refine List.splitBy_of_isChain hne (List.Pairwise.isChain ?_)
    exact List.pairwise_of_forall_mem_list fun a ha b hb =>
      sameMark_iff.mpr ⟨t, hrun a ha, hrun b hb⟩
  rw [hsplit, hone, List.singleton_append]

theorem runs_unmarked (hm : markOf m = none) : runs (m :: l) = [m] :: runs l := by
  have hsplit : runs ([m] ++ l) = runs [m] ++ runs l := by
    refine List.splitBy_append fun x hx y _ => ?_
    obtain rfl : m = x := by simpa using hx
    rw [← Bool.not_eq_true, sameMark_iff]
    rintro ⟨t, ht, -⟩
    rw [hm] at ht
    cases ht
  exact hsplit

/-- The first run begins with the first morpheme. -/
theorem runs_cons : ∃ rest l', runs (m :: l) = (m :: rest) :: l' := by
  have hne : runs (m :: l) ≠ [] := List.splitBy_ne_nil.mpr (List.cons_ne_nil m l)
  obtain ⟨run, l', hruns⟩ := List.exists_cons_of_ne_nil hne
  have hrun : run ≠ [] := List.ne_nil_of_mem_splitBy
    (show run ∈ runs (m :: l) from hruns ▸ List.mem_cons_self)
  obtain ⟨b, rest, rfl⟩ := List.exists_cons_of_ne_nil hrun
  have hflat : (runs (m :: l)).flatten = m :: l := List.flatten_splitBy _ _
  rw [hruns, List.flatten_cons, List.cons_append, List.cons.injEq] at hflat
  exact ⟨rest, l', by rw [hruns, hflat.1]⟩

end Runs

/-! ## A merge -/

/-- The places from `s` on. -/
def segment (sp : MrphSentence) (s len : Nat) : List MrphSlot := (List.range' s len).map sp.mrph

/-- What is left of a morpheme that was merged into another. -/
def emptied (m : MrphSlot) : MrphSlot :=
  { m with fields := { m.fields with goi := [] }, f := .null }

section Merge

variable {sp sp' sp'' : MrphSentence} {s k len : Nat} {word : MrphFields → List UInt8}

theorem segment_succ : segment sp s (len + 1) = segment sp s len ++ [sp.mrph (s + len)] := by
  simp [segment, List.range'_concat]

theorem segment_cons : segment sp s (len + 1) = sp.mrph s :: segment sp (s + 1) len := rfl

theorem segment_length : (segment sp s len).length = len := by
  simp [segment]

theorem joined_append {l l' : List MrphSlot} :
    joined word (l ++ l') = joined word l ++ joined word l' :=
  List.flatMap_append

theorem joined_singleton {m : MrphSlot} : joined word [m] = word m.fields := by
  simp [joined]

theorem wordLength_eq : wordLength word sp s len = (joined word (segment sp s len)).length := by
  unfold wordLength joined segment
  rw [List.length_flatMap, List.map_map, List.range'_eq_map_range, List.map_map]
  rfl

/-- After `k` turns: the first place has the words of `k + 1`, and `k` places are empty. -/
structure Merging (sp : MrphSentence) (s k : Nat) (sp' : MrphSentence) : Prop where
  num : sp'.mrphNum = sp.mrphNum
  goi : (sp'.mrph s).fields.goi = joined MrphFields.goi (segment sp s (k + 1))
  yomi : (sp'.mrph s).fields.yomi = joined MrphFields.yomi (segment sp s (k + 1))
  goi2 : (sp'.mrph s).fields.goi2 = joined MrphFields.goi2 (segment sp s (k + 1))
  length : (sp'.mrph s).length = (sp.mrph s).length
  f : (sp'.mrph s).f = (sp.mrph s).f
  empty : segment sp' (s + 1) k = (segment sp (s + 1) k).map emptied
  outside : ∀ j, j < s ∨ s + k < j → sp'.mrph j = sp.mrph j
  freed : sp'.freed = sp.freed ++ (segment sp (s + 1) k).map (·.f.home)

theorem Merging.refl : Merging sp s 0 sp where
  num := rfl
  goi := by simp [segment, joined_singleton]
  yomi := by simp [segment, joined_singleton]
  goi2 := by simp [segment, joined_singleton]
  length := rfl
  f := rfl
  empty := rfl
  outside _ _ := rfl
  freed := (List.append_nil _).symm

theorem mergeTurn_eq_some (h : mergeTurn s sp (k + 1) = some sp') : ∃ imi, sp' = { sp with
    mrph := Function.update (Function.update sp.mrph s { sp.mrph s with
      fields := { (sp.mrph s).fields with
        goi := (sp.mrph s).fields.goi ++ (sp.mrph (s + (k + 1))).fields.goi
        yomi := (sp.mrph s).fields.yomi ++ (sp.mrph (s + (k + 1))).fields.yomi
        goi2 := (sp.mrph s).fields.goi2 ++ (sp.mrph (s + (k + 1))).fields.goi2
        imi := imi } }) (s + (k + 1)) (emptied (sp.mrph (s + (k + 1))))
    freed := sp.freed ++ [(sp.mrph (s + (k + 1))).f.home] } := by
  obtain ⟨imi, -, h⟩ := Option.bind_eq_some_iff.mp h
  refine ⟨imi, (Option.some.inj h).symm.trans ?_⟩
  simp [clearFeature, emptied]

theorem segment_congr (h : ∀ j, s ≤ j → j < s + len → sp'.mrph j = sp.mrph j) :
    segment sp' s len = segment sp s len := by
  refine List.map_congr_left fun j hj => ?_
  obtain ⟨hlo, hhi⟩ := List.mem_range'_1.mp hj
  exact h j hlo hhi

theorem Merging.turn (h : Merging sp s k sp') (hturn : mergeTurn s sp' (k + 1) = some sp'') :
    Merging sp s (k + 1) sp'' := by
  obtain ⟨imi, rfl⟩ := mergeTurn_eq_some hturn
  have hsrc : sp'.mrph (s + (k + 1)) = sp.mrph (s + (k + 1)) := h.outside _ (.inr (by omega))
  have hne : s ≠ s + (k + 1) := by omega
  have hempty : segment sp (s + 1) (k + 1) =
      segment sp (s + 1) k ++ [sp.mrph (s + (k + 1))] := by
    rw [segment_succ, Nat.add_assoc, Nat.add_comm 1 k]
  constructor
  · exact h.num
  · dsimp only
    rw [Function.update_of_ne hne, Function.update_self, segment_succ, joined_append,
      joined_singleton, ← h.goi, hsrc]
  · dsimp only
    rw [Function.update_of_ne hne, Function.update_self, segment_succ, joined_append,
      joined_singleton, ← h.yomi, hsrc]
  · dsimp only
    rw [Function.update_of_ne hne, Function.update_self, segment_succ, joined_append,
      joined_singleton, ← h.goi2, hsrc]
  · dsimp only
    rw [Function.update_of_ne hne, Function.update_self]
    exact h.length
  · dsimp only
    rw [Function.update_of_ne hne, Function.update_self]
    exact h.f
  · rw [segment_succ, hempty, List.map_append, ← h.empty]
    congr 1
    · refine segment_congr fun j hlo hhi => ?_
      dsimp only
      rw [Function.update_of_ne (by omega), Function.update_of_ne (by omega)]
    · dsimp only
      rw [show s + 1 + k = s + (k + 1) by omega, Function.update_self, hsrc]
      rfl
  · intro j hj
    dsimp only
    rw [Function.update_of_ne (by omega), Function.update_of_ne (by omega)]
    exact h.outside j (by omega)
  · dsimp only
    rw [h.freed, hempty, List.map_append, List.append_assoc, hsrc]
    rfl

theorem Merging.loop (h : (List.range' 1 k).foldlM (mergeTurn s) sp = some sp') :
    Merging sp s k sp' := by
  induction k generalizing sp' with
  | zero =>
      obtain rfl := Option.some.inj h
      exact .refl
  | succ k ih =>
      rw [List.range'_concat, List.foldlM_append] at h
      obtain ⟨sp₁, h₁, h₂⟩ := Option.bind_eq_some_iff.mp h
      refine (ih h₁).turn ?_
      simpa [Nat.add_comm] using h₂

/-! ## What a run leaves -/

/-- The end of the representation is found. -/
def RepEnds (m : MrphSlot) : Prop :=
  ∀ cp, strstr m.fields.imi (utf8 "代表表記:") = some cp → 32 ∈ cp ∨ 34 ∈ cp

theorem repLength_isSome {cp : List UInt8} : (repLength cp).isSome ↔ 32 ∈ cp ∨ 34 ∈ cp := by
  unfold repLength
  split_ifs <;> simp [*]

/-- Only the texts of the features change. -/
theorem assignRepFFromImi_eq_some {m m' : MrphSlot} (h : assignRepFFromImi m = some m') :
    RepEnds m ∧ m'.fields = m.fields ∧ m'.length = m.length ∧ m'.f.home = m.f.home := by
  unfold assignRepFFromImi at h
  unfold RepEnds
  cases hcp : strstr m.fields.imi (utf8 "代表表記:") with
  | none =>
      rw [hcp] at h
      obtain rfl := Option.some.inj h
      exact ⟨by simp, rfl, rfl, rfl⟩
  | some cp =>
      rw [hcp] at h
      obtain ⟨len, hlen, rfl⟩ := Option.map_eq_some_iff.mp h
      refine ⟨?_, rfl, rfl, rfl⟩
      rintro cp' hcp'
      obtain rfl := Option.some.inj hcp'
      exact repLength_isSome.mp (hlen ▸ rfl)

theorem assignRepFFromImi_total {m : MrphSlot} (h : RepEnds m) :
    ∃ m', assignRepFFromImi m = some m' := by
  unfold assignRepFFromImi
  cases hcp : strstr m.fields.imi (utf8 "代表表記:") with
  | none => exact ⟨m, rfl⟩
  | some cp =>
      obtain ⟨len, hlen⟩ := Option.isSome_iff_exists.mp (repLength_isSome.mpr (h cp hcp))
      exact ⟨_, congrArg (Option.map _) hlen⟩

/-- A run, what is then in its places, and the lists that are freed. -/
inductive Settled : List MrphSlot → List MrphSlot → List (Option Nat) → Prop
  | unmarked {m : MrphSlot} (hmark : markOf m = none) : Settled [m] [m] []
  | merged {m m' : MrphSlot} {rest : List MrphSlot} (hmark : (markOf m).isSome)
      (hfits : Fits (m :: rest)) (hgoi : m'.fields.goi = joined MrphFields.goi (m :: rest))
      (hyomi : m'.fields.yomi = joined MrphFields.yomi (m :: rest))
      (hgoi2 : m'.fields.goi2 = joined MrphFields.goi2 (m :: rest))
      (hlength : m'.length = m.length) (hhome : m'.f.home = m.f.home)
      (hends : rest = [] → RepEnds m) :
      Settled (m :: rest) (m' :: rest.map emptied) (rest.map (·.f.home))
  | rejected {m : MrphSlot} {rest : List MrphSlot} (hmark : (markOf m).isSome)
      (hfits : ¬Fits (m :: rest)) : Settled (m :: rest) ((m :: rest).map unmark) []

/-- The run from `s` on is settled, and nothing else is touched. -/
structure Settles (sp : MrphSentence) (s : Nat) (run : List MrphSlot) (sp' : MrphSentence) :
    Prop where
  num : sp'.mrphNum = sp.mrphNum
  settled : ∃ freed, Settled run (segment sp' s run.length) freed ∧ sp'.freed = sp.freed ++ freed
  outside : ∀ j, j < s ∨ s + run.length ≤ j → sp'.mrph j = sp.mrph j

theorem fits_iff : Fits (segment sp s len) ↔
    ¬(wordLength MrphFields.goi sp s len > WORD_LEN_MAX ∨
      wordLength MrphFields.yomi sp s len > WORD_LEN_MAX ∨
      wordLength MrphFields.goi2 sp s len > WORD_LEN_MAX) := by
  unfold Fits
  rw [wordLength_eq, wordLength_eq, wordLength_eq]
  omega

theorem mergeMrph_of_not_fits (h : ¬Fits (segment sp s len)) :
    mergeMrph sp s len = some (false, sp) := by
  rw [fits_iff, not_not] at h
  unfold mergeMrph
  rw [if_pos h]
  rfl

/-- A run that fits. -/
theorem mergeMrph_settles {run : List MrphSlot} (hrun : segment sp s run.length = run)
    (hne : run ≠ []) (hmark : ∀ m ∈ run, (markOf m).isSome) (hfits : Fits run) {ok : Bool}
    (h : mergeMrph sp s run.length = some (ok, sp')) : ok = true ∧ Settles sp s run sp' := by
  obtain ⟨m, rest, rfl⟩ := List.exists_cons_of_ne_nil hne
  rw [← hrun, fits_iff] at hfits
  unfold mergeMrph at h
  rw [if_neg hfits] at h
  obtain ⟨sp₁, hloop, h⟩ := Option.bind_eq_some_iff.mp h
  obtain ⟨m', hrep, h⟩ := Option.bind_eq_some_iff.mp h
  obtain ⟨rfl, rfl⟩ := Prod.mk.inj (Option.some.inj h)
  have hlen : (m :: rest).length - 1 = rest.length := rfl
  rw [hlen] at hloop
  have hmerging := Merging.loop hloop
  obtain ⟨hends, hfields, hlength, hhome⟩ := assignRepFFromImi_eq_some hrep
  rw [List.length_cons, segment_cons] at hrun
  obtain ⟨hhead, hrest⟩ := List.cons.inj hrun
  have hseg : segment sp s (rest.length + 1) = m :: rest := by rw [segment_cons, hhead, hrest]
  refine ⟨rfl, hmerging.num, ⟨rest.map (·.f.home), ?_, ?_⟩, fun j hj => ?_⟩
  · rw [List.length_cons, segment_cons]
    have htail : ∀ m', segment ⟨Function.update sp₁.mrph s m', sp₁.mrphNum, sp₁.freed⟩ (s + 1)
        rest.length = rest.map emptied := by
      intro m'
      rw [← hrest, segment_length, ← hmerging.empty]
      refine segment_congr fun j hlo _ => ?_
      dsimp only
      rw [Function.update_of_ne (by omega)]
    rw [htail]
    dsimp only
    rw [Function.update_self]
    refine .merged (hmark m List.mem_cons_self) (hseg ▸ fits_iff.mpr hfits) ?_ ?_ ?_
      (hlength.trans (hmerging.length.trans (congrArg MrphSlot.length hhead)))
      (hhome.trans ((congrArg FeatureList.home hmerging.f).trans (hhead ▸ rfl))) ?_
    · rw [← hseg, hfields]
      exact hmerging.goi
    · rw [← hseg, hfields]
      exact hmerging.yomi
    · rw [← hseg, hfields]
      exact hmerging.goi2
    · rintro rfl
      obtain rfl := Option.some.inj hloop
      rw [← hhead]
      exact hends
  · rw [← hrest]
    exact hmerging.freed
  · dsimp only
    rw [List.length_cons] at hj
    rw [Function.update_of_ne (by omega)]
    exact hmerging.outside j (by omega)

/-- What `comp_feature` finds with a mark is a mark. -/
theorem isPrefixOf_of_comp {mark t cp : List UInt8} (ht : mark.isPrefixOf t = true)
    (h : comp cp t = true) : mark.isPrefixOf cp = true := by
  rw [List.isPrefixOf_iff_prefix] at ht ⊢
  unfold comp at h
  rw [Bool.or_eq_true, decide_eq_true_eq, List.isPrefixOf_iff_prefix] at h
  rcases h with rfl | h
  · exact ht
  · exact ht.trans ((List.prefix_append t [58]).trans h)

theorem comp_self {t : List UInt8} : comp t t = true := by
  simp [comp]

/-- The only mark is deleted. -/
theorem deleteCfeature_mark {mark t : List UInt8} {cps : List (List UInt8)}
    (hmark : cps.find? mark.isPrefixOf = some t) (hone : (cps.filter mark.isPrefixOf).length ≤ 1) :
    deleteCfeature cps t = cps.filter (!mark.isPrefixOf ·) := by
  have ht : mark.isPrefixOf t = true := List.find?_some hmark
  unfold deleteCfeature
  induction cps with
  | nil => rfl
  | cons cp cps ih =>
      cases hcp : mark.isPrefixOf cp with
      | true =>
          rw [List.find?_cons_of_pos hcp] at hmark
          obtain rfl := Option.some.inj hmark
          rw [List.filter_cons_of_pos hcp, List.length_cons] at hone
          have hnone : cps.filter mark.isPrefixOf = [] := List.length_eq_zero_iff.mp (by omega)
          rw [List.eraseP_cons_of_pos (p := (comp · cp)) comp_self,
            List.filter_cons_of_neg (by simp [hcp])]
          refine (List.filter_eq_self.mpr fun c hc => ?_).symm
          rw [Bool.not_eq_true', ← Bool.not_eq_true]
          exact List.filter_eq_nil_iff.mp hnone c hc
      | false =>
          rw [List.find?_cons_of_neg (by simp [hcp])] at hmark
          rw [List.filter_cons_of_neg (by simp [hcp])] at hone
          have hcomp : ¬comp cp t = true := fun h => by
            rw [isPrefixOf_of_comp ht h] at hcp
            cases hcp
          rw [List.eraseP_cons_of_neg (p := (comp · t)) hcomp,
            List.filter_cons_of_pos (by simp [hcp]), ih hmark hone]

/-- A run that does not fit. -/
theorem deleteCfeatureFromMrphs_settles {run : List MrphSlot} {t : List UInt8}
    (hrun : segment sp s run.length = run) (hne : run ≠ [])
    (hmark : ∀ m ∈ run, markOf m = some t)
    (hone : ∀ m ∈ run, (m.f.cps.filter (utf8 "形態素連結-").isPrefixOf).length ≤ 1)
    (hfits : ¬Fits run) : Settles sp s run (deleteCfeatureFromMrphs sp s run.length t) := by
  obtain ⟨m, rest, rfl⟩ := List.exists_cons_of_ne_nil hne
  refine ⟨rfl, ⟨[], ?_, (List.append_nil _).symm⟩, fun j hj => ?_⟩
  · have hseg : segment (deleteCfeatureFromMrphs sp s (m :: rest).length t) s (m :: rest).length =
        (segment sp s (m :: rest).length).map unmark := by
      unfold segment
      rw [List.map_map]
      refine List.map_congr_left fun j hj => ?_
      have hmem : sp.mrph j ∈ m :: rest := hrun ▸ List.mem_map_of_mem hj
      unfold deleteCfeatureFromMrphs
      dsimp only [Function.comp]
      rw [if_pos (List.mem_range'_1.mp hj), deleteCfeature_mark (hmark _ hmem) (hone _ hmem)]
      rfl
    rw [hseg, hrun]
    exact .rejected (by rw [hmark m List.mem_cons_self]; rfl) hfits
  · exact if_neg (by omega)

theorem closeRun_cases {run : List MrphSlot} {t : List UInt8}
    (hrun : segment sp s run.length = run) (hne : run ≠ []) (hmark : ∀ m ∈ run, markOf m = some t)
    (h : closeRun sp s run.length t = some sp') :
    Settles sp s run sp' ∨ ¬Fits run ∧ sp' = deleteCfeatureFromMrphs sp s run.length t := by
  unfold closeRun at h
  obtain ⟨⟨ok, sp₁⟩, hmerge, h⟩ := Option.bind_eq_some_iff.mp h
  obtain rfl := Option.some.inj h
  by_cases hfits : Fits run
  · obtain ⟨rfl, hsettles⟩ := mergeMrph_settles hrun hne
      (fun m hm => by rw [hmark m hm]; rfl) hfits hmerge
    exact .inl hsettles
  · rw [mergeMrph_of_not_fits (hrun.symm ▸ hfits)] at hmerge
    obtain ⟨rfl, rfl⟩ := Prod.mk.inj (Option.some.inj hmerge)
    exact .inr ⟨hfits, rfl⟩

theorem closeRun_outside {run : List MrphSlot} {t : List UInt8}
    (hrun : segment sp s run.length = run) (hne : run ≠ []) (hmark : ∀ m ∈ run, markOf m = some t)
    (h : closeRun sp s run.length t = some sp') {j : Nat} (hj : s + run.length ≤ j) :
    sp'.mrph j = sp.mrph j := by
  rcases closeRun_cases hrun hne hmark h with hsettles | ⟨-, rfl⟩
  · exact hsettles.outside j (.inr hj)
  · exact if_neg (by omega)

/-- **Closing a run.** -/
theorem closeRun_settles {run : List MrphSlot} {t : List UInt8}
    (hrun : segment sp s run.length = run) (hne : run ≠ []) (hmark : ∀ m ∈ run, markOf m = some t)
    (hone : ∀ m ∈ run, (m.f.cps.filter (utf8 "形態素連結-").isPrefixOf).length ≤ 1)
    (h : closeRun sp s run.length t = some sp') : Settles sp s run sp' := by
  rcases closeRun_cases hrun hne hmark h with hsettles | ⟨hfits, rfl⟩
  · exact hsettles
  · exact deleteCfeatureFromMrphs_settles hrun hne hmark hone hfits

end Merge

/-! ## The loop -/

/-- One maximal run, from `startNum` on. -/
def closeBlock (sp : MrphSentence) (startNum : Nat) (run : List MrphSlot) : Option MrphSentence :=
  match run.head?.bind markOf with
  | none => some sp
  | some cp => do
      let mergeType ← copyType cp
      closeRun sp startNum run.length mergeType

def closeAll : MrphSentence → Nat → List (List MrphSlot) → Option MrphSentence
  | sp, _, [] => some sp
  | sp, startNum, run :: runs => do
      let sp ← closeBlock sp startNum run
      closeAll sp (startNum + run.length) runs

/-- The end of the loop, at `n`. -/
def closeLast (n : Nat) (st : MergeLoop) : Option MrphSentence :=
  if st.mergeType ≠ [] then closeRun st.sp st.startNum (n - st.startNum) st.mergeType
  else some st.sp

section Loop

variable {sp : MrphSentence} {o : Nat → MrphSlot} {i d n s len startNum : Nat} {cp t : List UInt8}
  {st : MergeLoop} {run : List MrphSlot}

theorem markOf_ne_nil {m : MrphSlot} (h : markOf m = some cp) : cp ≠ [] := by
  rintro rfl
  have hpre : (utf8 "形態素連結-").isPrefixOf [] = true := List.find?_some h
  exact absurd hpre (by decide +kernel)

theorem copyType_eq_some : copyType cp = some t ↔ cp = t ∧ t.length < SMALL_DATA_LEN := by
  unfold copyType
  split_ifs with h
  · rw [Option.some.injEq]
    exact ⟨fun heq => ⟨heq, heq ▸ h⟩, fun h' => h'.1⟩
  · exact iff_of_false (by simp) fun h' => h (h'.1 ▸ h'.2)

theorem closeBlock_unmarked {m : MrphSlot} (hm : markOf m = none) :
    closeBlock sp startNum [m] = some sp := by
  simp [closeBlock, hm]

theorem closeBlock_marked (hne : run ≠ []) (hrun : ∀ m ∈ run, markOf m = some t) :
    closeBlock sp startNum run = (copyType t).bind fun t => closeRun sp startNum run.length t := by
  obtain ⟨m, rest, rfl⟩ := List.exists_cons_of_ne_nil hne
  have hm := hrun m List.mem_cons_self
  simp only [closeBlock, List.head?_cons, Option.bind_some, hm]
  rfl

/-- The places from `s` on are as at the start. -/
def Untouched (o : Nat → MrphSlot) (s : Nat) (sp : MrphSentence) : Prop :=
  ∀ j, s ≤ j → sp.mrph j = o j

theorem Untouched.segment (h : Untouched o s sp) :
    segment sp s len = (List.range' s len).map o :=
  List.map_congr_left fun j hj => h j (List.mem_range'_1.mp hj).1

/-- The loop from `i` on for `d` morphemes, and its end. -/
def loopFrom (i d : Nat) (st : MergeLoop) : Option MrphSentence :=
  ((List.range' i d).foldlM preprocessTurn st).bind (closeLast (i + d))

theorem loopFrom_succ : loopFrom i (d + 1) st =
    (preprocessTurn st i).bind (loopFrom (i + 1) d) := by
  unfold loopFrom
  rw [List.range'_succ, List.foldlM_cons, Nat.add_right_comm, Nat.add_assoc]
  exact Option.bind_assoc _ _ _

/-- A mark that does not go on with the run closes it, and then it is as without a run. -/
theorem preprocessTurn_close (hne : t ≠ []) (hother : markOf (sp.mrph i) ≠ some t)
    (hkept : ∀ sp', closeRun sp s (i - s) t = some sp' → sp'.mrph i = sp.mrph i) :
    (preprocessTurn ⟨sp, t, s⟩ i).bind (loopFrom (i + 1) d) =
      (closeRun sp s (i - s) t).bind fun sp' =>
        (preprocessTurn ⟨sp', [], s⟩ i).bind (loopFrom (i + 1) d) := by
  unfold preprocessTurn
  dsimp only
  cases hclose : closeRun sp s (i - s) t with
  | none =>
      cases hmark : markOf (sp.mrph i) with
      | none =>
          dsimp only
          rw [if_pos hne]
          rfl
      | some cp =>
          dsimp only
          rw [if_neg hne, if_pos fun h => hother (by rw [hmark, h])]
          rfl
  | some sp' =>
      dsimp only [Option.bind_some]
      rw [hkept sp' hclose]
      cases hmark : markOf (sp.mrph i) with
      | none =>
          dsimp only
          rw [if_pos hne, if_neg (not_not.mpr rfl)]
          rfl
      | some cp =>
          dsimp only
          rw [if_neg hne, if_pos fun h => hother (by rw [hmark, h]), if_pos rfl]
          rfl

theorem closeAll_singleton : closeAll sp s [run] = closeBlock sp s run :=
  bind_pure (closeBlock sp s run)

/-- The loop and its end close the maximal runs one after the other. -/
theorem loopFrom_eq :
    (∀ i sp s, Untouched o i sp →
      loopFrom i d ⟨sp, [], s⟩ = closeAll sp i (runs ((List.range' i d).map o))) ∧
    ∀ i sp s run t, Untouched o s sp → run ≠ [] → segment sp s run.length = run →
      s + run.length = i → (∀ m ∈ run, markOf m = some t) → t.length < SMALL_DATA_LEN →
      loopFrom i d ⟨sp, t, s⟩ = closeAll sp s (runs (run ++ (List.range' i d).map o)) := by
  induction d with
  | zero =>
      refine ⟨fun i sp s _ => rfl, ?_⟩
      rintro _ sp s run t - hne hrun rfl hmark hshort
      obtain ⟨m, rest, hcons⟩ := List.exists_cons_of_ne_nil hne
      have ht : t ≠ [] := markOf_ne_nil (hmark m (hcons ▸ List.mem_cons_self))
      have hlast : loopFrom (s + run.length) 0 ⟨sp, t, s⟩ = closeRun sp s run.length t := by
        show closeLast (s + run.length) ⟨sp, t, s⟩ = _
        rw [closeLast, if_pos ht, Nat.add_sub_cancel_left]
      rw [hlast, List.range'_zero, List.map_nil, runs_append hne hmark (by simp), runs_nil,
        closeAll_singleton, closeBlock_marked hne hmark, copyType_eq_some.mpr ⟨rfl, hshort⟩]
      rfl
  | succ d ih =>
      obtain ⟨ihA, ihB⟩ := ih
      have hA : ∀ i sp s, Untouched o i sp → loopFrom i (d + 1) ⟨sp, [], s⟩ =
          closeAll sp i (runs ((List.range' i (d + 1)).map o)) := by
        intro i sp s hu
        have hnext : Untouched o (i + 1) sp := fun j hj => hu j (by omega)
        rw [loopFrom_succ, List.range'_succ, List.map_cons]
        unfold preprocessTurn
        dsimp only
        rw [hu i (Nat.le_refl i)]
        cases hmark : markOf (o i) with
        | none =>
            dsimp only
            rw [if_neg (not_not.mpr rfl), runs_unmarked hmark, closeAll,
              closeBlock_unmarked hmark]
            exact ihA (i + 1) sp s hnext
        | some cp =>
            dsimp only
            rw [if_pos rfl]
            cases hcopy : copyType cp with
            | none =>
                obtain ⟨rest, l', hruns⟩ :=
                  runs_cons (m := o i) (l := (List.range' (i + 1) d).map o)
                rw [hruns, closeAll, closeBlock]
                simp [hmark, hcopy]
            | some t =>
                obtain ⟨rfl, hshort⟩ := copyType_eq_some.mp hcopy
                refine ihB (i + 1) sp i [o i] cp hu (List.cons_ne_nil _ _) ?_ rfl ?_ hshort
                · exact congrArg (· :: []) (hu i (Nat.le_refl i))
                · simpa using hmark
      refine ⟨hA, ?_⟩
      rintro _ sp s run t hu hne hrun rfl hmark hshort
      obtain ⟨m, rest, hcons⟩ := List.exists_cons_of_ne_nil hne
      have ht : t ≠ [] := markOf_ne_nil (hmark m (hcons ▸ List.mem_cons_self))
      have ho : sp.mrph (s + run.length) = o (s + run.length) := hu _ (Nat.le_add_right _ _)
      by_cases hjoin : markOf (o (s + run.length)) = some t
      · -- the run goes on
        have hturn : preprocessTurn ⟨sp, t, s⟩ (s + run.length) = some ⟨sp, t, s⟩ := by
          unfold preprocessTurn
          dsimp only
          rw [ho, hjoin]
          dsimp only
          rw [if_neg ht, if_neg (not_not.mpr rfl)]
        have hnext := ihB (s + run.length + 1) sp s (run ++ [o (s + run.length)]) t hu (by simp)
          (by rw [List.length_append, List.length_singleton, segment_succ, hrun, ho])
          (by simp; omega) (List.forall_mem_append.mpr ⟨hmark, by simpa using hjoin⟩) hshort
        rw [List.append_assoc] at hnext
        rw [loopFrom_succ, hturn, List.range'_succ]
        exact hnext
      · have hkept : ∀ sp', closeRun sp s (s + run.length - s) t = some sp' →
            sp'.mrph (s + run.length) = sp.mrph (s + run.length) := by
          intro sp' hclose
          rw [Nat.add_sub_cancel_left] at hclose
          exact closeRun_outside hrun hne hmark hclose (Nat.le_refl _)
        rw [loopFrom_succ, preprocessTurn_close ht (ho ▸ hjoin) hkept,
          runs_append hne hmark (by simpa [List.range'_succ] using hjoin), closeAll,
          closeBlock_marked hne hmark, copyType_eq_some.mpr ⟨rfl, hshort⟩, Nat.add_sub_cancel_left]
        refine Option.bind_congr fun sp' hclose => ?_
        rw [← loopFrom_succ]
        exact hA _ sp' s fun j hj =>
          (closeRun_outside hrun hne hmark hclose hj).trans (hu j (by omega))

end Loop

end Knp.MrphMerge
