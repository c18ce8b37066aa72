import Knp.ParaDetect

/-!
# The best end of a scope

The running maximum of `detect_para_scope` over the ends, with the status as a
flag, comes to the best of the ends that pass the threshold. What an end gives
does not depend on the ends before it: the scores behind the key are determined,
and what is left in the last column has not been touched yet.
-/

namespace Knp

section Ends

variable {F : Type*} [LinearOrder F] {t : ParaText} {ar : ScoreArith F} {beyond : Int → Rat}
  {key : ScopeKey F} {restrict : RestrictMatrix} {jendPos : Nat}

/-! ## The ends that pass -/

/-- What is found for an end of the scope, with the threshold: none if the end is
given up. -/
def candidate (t : ParaText) (ar : ScoreArith F) (beyond : Int → Rat) (key : ScopeKey F)
    (restrict : RestrictMatrix) (dp : DpState) (jendPos : Nat) : Option (F × RowState F) :=
  match admitted t ar key restrict jendPos with
  | none => none
  | some simThreshold =>
      let row := selectRow t ar beyond key
        (dpSearchScope t (penaltyTableOf t key.keyPos) key.keyPos key.iendPos jendPos dp)
        restrict jendPos
      if row.maxScore < ar.ofRat 0 then none else some (simThreshold, row)

/-- It passes the threshold. -/
def PassesThreshold (c : F × RowState F) : Prop := c.1 ≤ c.2.pureScore

/-- The best of the ends that pass, the first of several. -/
structure Wins (cand : Nat → Option (F × RowState F)) (ends : List Nat) (w : Nat)
    (c : F × RowState F) : Prop where
  mem : w ∈ ends
  found : cand w = some c
  passes : PassesThreshold c
  best : ∀ j ∈ ends, ∀ d, cand j = some d → PassesThreshold d →
    d.2.maxScore < c.2.maxScore ∨ d.2.maxScore = c.2.maxScore ∧ w ≤ j

/-- The coordination after some ends: without a scope while none has passed, then
with the best of them. -/
inductive Found (cand : Nat → Option (F × RowState F)) (traced : Nat → RowState F →
    Option (List Nat × Nat) → Prop) (ends : List Nat) (d : ScopeData F) : Prop
  | nothing : d.status = .x → (∀ j ∈ ends, ∀ c, cand j = some c → ¬ PassesThreshold c) →
      Found cand traced ends d
  | scope {w : Nat} {c : F × RowState F} : d.status = .n → Wins cand ends w c →
      d.maxScore = c.2.maxScore → d.pureScore = c.2.pureScore → d.start = c.2.maxPos →
      traced w c.2 d.path → Found cand traced ends d

variable {cand : Nat → Option (F × RowState F)}
  {traced : Nat → RowState F → Option (List Nat × Nat) → Prop} {ends : List Nat} {j : Nat}
  {d : ScopeData F}

theorem Wins.append {w : Nat} {c : F × RowState F} (h : Wins cand ends w c)
    (hj : ∀ d, cand j = some d → PassesThreshold d →
      d.2.maxScore < c.2.maxScore ∨ d.2.maxScore = c.2.maxScore ∧ w ≤ j) :
    Wins cand (ends ++ [j]) w c where
  mem := List.mem_append_left _ h.mem
  found := h.found
  passes := h.passes
  best := by
    intro k hk d hd hpass
    rcases List.mem_append.mp hk with hk | hk
    · exact h.best k hk d hd hpass
    · obtain rfl := List.mem_singleton.mp hk
      exact hj d hd hpass

/-- An end that is given up, or does not pass, changes nothing that counts. -/
theorem Found.skip {d' : ScopeData F} (h : Found cand traced ends d)
    (hj : ∀ c, cand j = some c → ¬ PassesThreshold c)
    (hd : d' = d ∨ d.status = .x ∧ d'.status = .x) : Found cand traced (ends ++ [j]) d' := by
  cases h with
  | nothing hx hnone =>
      refine .nothing (hd.elim (fun h => h ▸ hx) And.right) fun k hk => ?_
      rcases List.mem_append.mp hk with hk | hk
      · exact hnone k hk
      · exact List.mem_singleton.mp hk ▸ hj
  | scope hn hw hmax hpure hstart hpath =>
      obtain rfl := hd.resolve_right fun h => by
        rw [hn] at h
        cases h.1
      exact .scope hn (hw.append fun d hd hpass => absurd hpass (hj d hd)) hmax hpure hstart hpath

/-- Recording an end behind the others. -/
theorem Found.record {c : F × RowState F} {dp : DpState} (h : Found cand traced ends d)
    (hlt : ∀ k ∈ ends, k < j) (hc : cand j = some c)
    (htraced : traced j c.2 (tracePath dp.prepos (BNST_MAX - (key.keyPos + 1)) c.2.maxPos.toNat
      (key.keyPos + 1))) :
    Found cand traced (ends ++ [j]) (recordScope key c.1 c.2 dp d) := by
  by_cases hpass : PassesThreshold c
  · unfold PassesThreshold at hpass
    cases h with
    | nothing hx hnone =>
        have hflag : recordFlag c.1 c.2 d = some .n := if_pos ⟨hpass, hx⟩
        unfold recordScope
        rw [hflag]
        refine .scope (w := j) (c := c) rfl ⟨by simp, hc, hpass, fun k hk e he hpe => ?_⟩ rfl rfl rfl
          htraced
        rcases List.mem_append.mp hk with hk | hk
        · exact absurd hpe (hnone k hk e he)
        · obtain rfl := List.mem_singleton.mp hk
          obtain rfl := Option.some.inj (hc.symm.trans he)
          exact .inr ⟨rfl, Nat.le_refl _⟩
    | @scope w c₀ hn hw hmax hpure hstart hpath =>
        by_cases hbetter : d.maxScore < c.2.maxScore
        · have hflag : recordFlag c.1 c.2 d = some .n := by
            unfold recordFlag
            rw [if_neg (by simp [hn]), if_pos ⟨hpass, hn, hbetter⟩, hn]
          unfold recordScope
          rw [hflag]
          refine .scope (w := j) (c := c) rfl ⟨by simp, hc, hpass, fun k hk e he hpe => ?_⟩ rfl rfl
            rfl htraced
          rcases List.mem_append.mp hk with hk | hk
          · refine .inl (lt_of_le_of_lt ?_ (hmax ▸ hbetter))
            exact (hw.best k hk e he hpe).elim le_of_lt fun h => h.1.le
          · obtain rfl := List.mem_singleton.mp hk
            obtain rfl := Option.some.inj (hc.symm.trans he)
            exact .inr ⟨rfl, Nat.le_refl _⟩
        · have hflag : recordFlag c.1 c.2 d = none := by
            unfold recordFlag
            rw [if_neg (by simp [hn]), if_neg fun h => hbetter h.2.2, if_neg (by simp [hn])]
          unfold recordScope
          rw [hflag]
          refine .scope hn (hw.append fun e he _ => ?_) hmax hpure hstart hpath
          obtain rfl := Option.some.inj (hc.symm.trans he)
          rcases lt_or_eq_of_le (hmax ▸ not_lt.mp hbetter) with hless | heq
          · exact .inl hless
          · exact .inr ⟨heq, (hlt w hw.mem).le⟩
  · refine h.skip (fun e he => Option.some.inj (hc.symm.trans he) ▸ hpass) ?_
    unfold recordScope
    cases hflag : recordFlag c.1 c.2 d with
    | none => exact .inl rfl
    | some status =>
        unfold recordFlag at hflag
        rw [if_neg fun h => hpass h.1, if_neg fun h => hpass h.1] at hflag
        split at hflag
        · rename_i hx
          exact .inr ⟨hx.1, (Option.some.inj hflag).symm.trans hx.1⟩
        · cases hflag

/-! ## The loop over the ends -/

/-- The matrices agree from column `j` on. -/
def AgreesFrom (j : Nat) (dp dp₀ : DpState) : Prop :=
  ∀ r c, j ≤ c → dp.score r c = dp₀.score r c ∧ dp.prepos r c = dp₀.prepos r c

variable {dp dp₀ : DpState}

theorem AgreesFrom.mono {j' : Nat} (h : AgreesFrom j dp dp₀) (hj : j ≤ j') : AgreesFrom j' dp dp₀ :=
  fun r c hc => h r c (hj.trans hc)

theorem AgreesFrom.search {keyPos : Nat} (h : AgreesFrom j dp dp₀) (hkey : keyPos < j)
    (penaltyTable : Nat → Int) (iendPos : Nat) :
    AgreesFrom (j + 1) (dpSearchScope t penaltyTable keyPos iendPos j dp) dp₀ := by
  intro r c hc
  obtain ⟨hscore, hprepos⟩ := dpSearchScope_other t penaltyTable iendPos hkey dp hc
  rw [hscore, hprepos]
  exact h r c (Nat.le_of_succ_le hc)

/-- The path that is traced for end `w`, in matrices that agree with `dp₀` from `w` on. -/
def TracedFrom (t : ParaText) (key : ScopeKey F) (dp₀ : DpState) (w : Nat) (row : RowState F)
    (path : Option (List Nat × Nat)) : Prop :=
  ∃ dp, AgreesFrom w dp dp₀ ∧ path =
    tracePath (dpSearchScope t (penaltyTableOf t key.keyPos) key.keyPos key.iendPos w dp).prepos
      (BNST_MAX - (key.keyPos + 1)) row.maxPos.toNat (key.keyPos + 1)

variable (t ar beyond restrict) in
theorem candidate_congr (hkey : key.keyPos < j) (h : AgreesFrom j dp dp₀) :
    candidate t ar beyond key restrict dp j = candidate t ar beyond key restrict dp₀ j := by
  have hrow : selectRow t ar beyond key
      (dpSearchScope t (penaltyTableOf t key.keyPos) key.keyPos key.iendPos j dp) restrict j =
      selectRow t ar beyond key
        (dpSearchScope t (penaltyTableOf t key.keyPos) key.keyPos key.iendPos j dp₀) restrict j := by
    refine selectRow_congr fun i hi => dpSearchScope_score_congr t _ hkey hi ?_ fun r c hc =>
      (h r c hc.le).1
    unfold scoreColumn
    split <;> omega
  unfold candidate
  rw [hrow]

/-- One end. -/
theorem detectParaScopeAt_found {s : DetectState F} (hkey : key.keyPos < j)
    (hlt : ∀ k ∈ ends, k < j) (hdp : AgreesFrom j s.dp dp₀)
    (h : Found (candidate t ar beyond key restrict dp₀) (TracedFrom t key dp₀) ends s.data) :
    Found (candidate t ar beyond key restrict dp₀) (TracedFrom t key dp₀) (ends ++ [j])
        (detectParaScopeAt t ar beyond key (penaltyTableOf t key.keyPos) restrict j s).data ∧
      AgreesFrom (j + 1)
        (detectParaScopeAt t ar beyond key (penaltyTableOf t key.keyPos) restrict j s).dp dp₀ := by
  have hcand := candidate_congr t ar beyond restrict hkey hdp
  unfold candidate at hcand
  unfold detectParaScopeAt
  cases hadm : admitted t ar key restrict j with
  | none =>
      rw [hadm] at hcand
      refine ⟨h.skip (fun c hc => ?_) (.inl rfl), hdp.mono (Nat.le_succ j)⟩
      unfold candidate at hc
      rw [hadm] at hc
      cases hc
  | some th =>
      rw [hadm] at hcand
      dsimp only at hcand ⊢
      refine ⟨?_, hdp.search hkey _ _⟩
      split
      · rename_i hneg
        rw [if_pos hneg] at hcand
        refine h.skip (fun c hc => ?_) (.inl rfl)
        unfold candidate at hc
        rw [hadm] at hc
        dsimp only at hc
        rw [← hcand] at hc
        cases hc
      · rename_i hpos
        rw [if_neg hpos] at hcand
        refine h.record (c := (th, _)) hlt ?_ ⟨s.dp, hdp, rfl⟩
        unfold candidate
        rw [hadm]
        exact hcand.symm

variable (t ar beyond key restrict dp₀) in
theorem detectEnds_found : ∀ (rest : List Nat) {ends : List Nat} {s : DetectState F},
    (ends ++ rest).Pairwise (· < ·) → (∀ j ∈ rest, key.keyPos < j) →
    Found (candidate t ar beyond key restrict dp₀) (TracedFrom t key dp₀) ends s.data →
    (∀ j ∈ rest, AgreesFrom j s.dp dp₀) →
      Found (candidate t ar beyond key restrict dp₀) (TracedFrom t key dp₀) (ends ++ rest)
        (detectEnds t ar beyond key restrict rest s).data
  | [], ends, _, _, _, h, _ => by
      rw [List.append_nil]
      exact h
  | j :: rest, ends, s, hsorted, hkey, h, hdp => by
      have hbefore := List.pairwise_append.mp hsorted
      have hstep := detectParaScopeAt_found (hkey j List.mem_cons_self)
        (fun k hk => hbefore.2.2 k hk j List.mem_cons_self) (hdp j List.mem_cons_self) h
      rw [List.append_cons]
      refine detectEnds_found rest ?_ (fun k hk => hkey k (List.mem_cons_of_mem j hk)) hstep.1
        fun k hk => hstep.2.mono (List.rel_of_pairwise_cons hbefore.2.1 hk)
      rwa [← List.append_cons]

/-! ## The recorded scope -/

/-- A sentence that is not too long; where the input is parsed, the head of the
key lies behind it. -/
structure KeyInSentence (t : ParaText) (key : ScopeKey F) : Prop where
  bnst_max : t.bnstNum ≤ BNST_MAX
  parsed : t.optInputParsed = true → key.keyPos < t.dpndHead key.keyPos ∧
    t.dpndHead key.keyPos < t.bnstNum

omit [LinearOrder F] in
theorem KeyInSentence.scopeEnds (h : KeyInSentence t key) :
    (Knp.scopeEnds t key).Pairwise (· < ·) ∧
      ∀ j ∈ Knp.scopeEnds t key, key.keyPos < j ∧ j < BNST_MAX := by
  have hmax := h.bnst_max
  unfold Knp.scopeEnds
  split
  · rename_i hparsed
    have := h.parsed hparsed
    refine ⟨List.pairwise_singleton _ _, fun j hj => ?_⟩
    obtain rfl := List.mem_singleton.mp hj
    omega
  · refine ⟨List.pairwise_lt_range', fun j hj => ?_⟩
    have := List.mem_range'_1.mp hj
    omega

theorem fromBottom_congr {penaltyTable : Nat → Int} {keyPos iendPos w i : Nat}
    (h : AgreesFrom w dp dp₀) :
    FromBottom t penaltyTable keyPos iendPos w dp.prepos i ↔
      FromBottom t penaltyTable keyPos iendPos w dp₀.prepos i := by
  unfold FromBottom
  simp only [(h _ w (Nat.le_refl w)).2]

omit [LinearOrder F] in
theorem TracedFrom.iff {w i : Nat} {row : RowState F} {path : Option (List Nat × Nat)}
    (h : TracedFrom t key dp₀ w row path) (hkey : key.keyPos < w) (hmax : w < BNST_MAX)
    (hi : i ≤ key.iendPos) (hpos : row.maxPos = i) :
    (∃ rows, path = some (rows, w)) ↔
      FromBottom t (penaltyTableOf t key.keyPos) key.keyPos key.iendPos w dp₀.prepos i := by
  obtain ⟨dp, hdp, rfl⟩ := h
  rw [← fromBottom_congr hdp, hpos, Int.toNat_natCast]
  constructor
  · rintro ⟨rows, hrows⟩
    exact fromBottom_of_trace hkey hmax hi hrows
  · intro h
    obtain ⟨rows, hrows, -⟩ := (tracesBack_iff t _ hkey hmax hi dp).mpr h
    exact ⟨rows, hrows⟩

theorem candidate_maxPos {w : Nat} {c : F × RowState F}
    (h : candidate t ar beyond key restrict dp w = some c) :
    ∃ i ≤ key.iendPos, c.2.maxPos = i := by
  unfold candidate at h
  split at h
  · cases h
  · dsimp only at h
    split at h
    · cases h
    · rename_i hpos
      cases h
      refine (selectRow_maxPos ..).resolve_right fun heq => hpos ?_
      rw [heq]
      exact ar.ofRat_lt (by decide)

/-- Outside Chinese, what is found for an end is the best of its rows. -/
theorem candidate_best {w i : Nat} {c : F × RowState F} (hlang : t.language ≠ .chinese)
    (hi : c.2.maxPos = i) (h : candidate t ar beyond key restrict dp w = some c) :
    let dp := dpSearchScope t (penaltyTableOf t key.keyPos) key.keyPos key.iendPos w dp
    BestRow t ar beyond key dp restrict w 0 i c.2 ∧
      ∀ i ≤ key.iendPos, restrict i w ≠ 0 → rowScore t ar beyond key dp w i ≤ c.2.maxScore := by
  unfold candidate at h
  split at h
  · cases h
  · dsimp only at h
    split at h
    · cases h
    · rename_i hpos
      cases h
      obtain ⟨hfound, hle⟩ := selectRow_best ar beyond key
        (dpSearchScope t (penaltyTableOf t key.keyPos) key.keyPos key.iendPos w dp) restrict w hlang
      obtain ⟨k, hk⟩ := hfound.resolve_left fun heq => hpos <| by
        rw [heq]
        exact ar.ofRat_lt (by decide)
      obtain rfl : k = i := Int.natCast_inj.mp (hk.maxPos.symm.trans hi)
      exact ⟨hk, hle⟩

/-- **The best scope.** A coordination is left without a scope if and only if no
end passes the threshold. Else it has the start of the best end that passes, the
first one of several. Its recorded end is that end if and only if the first of
the best paths to the start comes from the bottom of the last column. -/
theorem detectParaScope_iff (hwf : KeyInSentence t key) (restrictP : Bool)
    (s : DetectState F) :
    let restrict₁ := maskQuoteScope t key.keyPos (initRestrict t restrictP restrict)
    let data := (detectParaScope t ar beyond key restrictP restrict s).2.data
    (data.status = .x ↔ ∀ j ∈ scopeEnds t key, ∀ c,
      candidate t ar beyond key restrict₁ s.dp j = some c → ¬ PassesThreshold c) ∧
    (data.status ≠ .x → ∃ w c, ∃ i : Nat,
      Wins (candidate t ar beyond key restrict₁ s.dp) (scopeEnds t key) w c ∧
      data.status = (if ar.ofRat STRONG_PARA_TH ≤ c.2.pureScore then .s else .n) ∧
      data.maxScore = c.2.maxScore ∧ c.2.maxPos = i ∧ data.start = i ∧ i ≤ key.iendPos ∧
      (t.language ≠ .chinese →
        let dp := dpSearchScope t (penaltyTableOf t key.keyPos) key.keyPos key.iendPos w s.dp
        BestRow t ar beyond key dp restrict₁ w 0 i c.2 ∧
          ∀ k ≤ key.iendPos, restrict₁ k w ≠ 0 → rowScore t ar beyond key dp w k ≤ c.2.maxScore) ∧
      ((∃ rows, data.path = some (rows, w)) ↔
        FromBottom t (penaltyTableOf t key.keyPos) key.keyPos key.iendPos w s.dp.prepos i)) := by
  intro restrict₁ data
  obtain ⟨hsorted, hends⟩ := hwf.scopeEnds
  have hnothing : Found (candidate t ar beyond key restrict₁ s.dp) (TracedFrom t key s.dp) []
      (initScope ar s.data) := .nothing rfl fun j hj => absurd hj List.not_mem_nil
  have hfound := detectEnds_found t ar beyond key restrict₁ s.dp (scopeEnds t key)
    (s := { s with data := initScope ar s.data }) hsorted (fun j hj => (hends j hj).1) hnothing
    fun j _ r c _ => ⟨rfl, rfl⟩
  have hdata : data = markStrong ar (detectEnds t ar beyond key restrict₁ (scopeEnds t key)
    { s with data := initScope ar s.data }).data := rfl
  rw [hdata]
  generalize (detectEnds t ar beyond key restrict₁ (scopeEnds t key)
    { s with data := initScope ar s.data }).data = d at hfound
  rw [List.nil_append] at hfound
  unfold markStrong
  cases hfound with
  | nothing hx hnone =>
      rw [if_neg (by simp [hx])]
      exact ⟨⟨fun _ => hnone, fun _ => hx⟩, fun hne => absurd hx hne⟩
  | @scope w c hn hw hmax hpure hstart hpath =>
      obtain ⟨i, hi, hpos⟩ := candidate_maxPos hw.found
      have hiff := hpath.iff (hends w hw.mem).1 (hends w hw.mem).2 hi hpos
      have hbest := fun hlang : t.language ≠ .chinese => candidate_best hlang hpos hw.found
      rw [hpure]
      by_cases hstrong : ar.ofRat STRONG_PARA_TH ≤ c.2.pureScore
      · rw [if_pos ⟨hn, hstrong⟩]
        exact ⟨⟨fun h => (by cases h), fun h => absurd hw.passes (h w hw.mem c hw.found)⟩,
          fun _ => ⟨w, c, i, hw, (if_pos hstrong).symm, hmax, hpos, hstart.trans hpos, hi, hbest,
            hiff⟩⟩
      · rw [if_neg fun h => hstrong h.2]
        refine ⟨⟨fun h => ?_, fun h => absurd hw.passes (h w hw.mem c hw.found)⟩,
          fun _ => ⟨w, c, i, hw, hn.trans (if_neg hstrong).symm, hmax, hpos, hstart.trans hpos, hi,
            hbest, hiff⟩⟩
        rw [hn] at h
        cases h

end Ends

def farKey : ScopeKey Rat := ⟨25, 25, .n, []⟩

def blankState : DetectState Rat := ⟨blankDp, ⟨.x, 0, 0, 0, none⟩, []⟩

theorem farRow_detected : KeyInSentence farRow farKey ∧
    let restrict₁ := maskQuoteScope farRow 25 (initRestrict farRow false fun _ _ => 0)
    let data := (detectParaScope farRow ratArith (fun _ => 1) farKey false (fun _ _ => 0)
      blankState).2.data
    (data.status = .x ↔ ∀ j ∈ scopeEnds farRow farKey, ∀ c,
      candidate farRow ratArith (fun _ => 1) farKey restrict₁ blankDp j = some c →
        ¬ PassesThreshold c) ∧
    (data.status ≠ .x → ∃ w c, ∃ i : Nat,
      Wins (candidate farRow ratArith (fun _ => 1) farKey restrict₁ blankDp)
        (scopeEnds farRow farKey) w c ∧
      data.status = (if ratArith.ofRat STRONG_PARA_TH ≤ c.2.pureScore then .s else .n) ∧
      data.maxScore = c.2.maxScore ∧ c.2.maxPos = i ∧ data.start = i ∧ i ≤ farKey.iendPos ∧
      (farRow.language ≠ .chinese →
        let dp := dpSearchScope farRow (penaltyTableOf farRow 25) 25 25 w blankDp
        BestRow farRow ratArith (fun _ => 1) farKey dp restrict₁ w 0 i c.2 ∧
          ∀ k ≤ farKey.iendPos, restrict₁ k w ≠ 0 →
            rowScore farRow ratArith (fun _ => 1) farKey dp w k ≤ c.2.maxScore) ∧
      ((∃ rows, data.path = some (rows, w)) ↔
        FromBottom farRow (penaltyTableOf farRow 25) 25 25 w blankDp.prepos i)) :=
  have hwf : KeyInSentence farRow farKey := ⟨by decide, by decide⟩
  ⟨hwf, detectParaScope_iff hwf false blankState⟩

/-- The only end that passes is 27, with the far bunsetsu as the start; the
back-pointers do not lead to it. -/
theorem farRow_wrong_end :
    (∃ c, Wins (candidate farRow ratArith (fun _ => 1) farKey
      (maskQuoteScope farRow 25 (initRestrict farRow false fun _ _ => 0)) blankDp)
        (scopeEnds farRow farKey) 27 c ∧ c.2.maxPos = 0) ∧
    ¬ ∃ rows, (detectParaScope farRow ratArith (fun _ => 1) farKey false (fun _ _ => 0)
      blankState).2.data.path = some (rows, 27) := by
  have hnone : (candidate farRow ratArith (fun _ => 1) farKey
      (maskQuoteScope farRow 25 (initRestrict farRow false fun _ _ => 0)) blankDp 26).isNone := by
    decide +kernel
  have hsome : (candidate farRow ratArith (fun _ => 1) farKey
      (maskQuoteScope farRow 25 (initRestrict farRow false fun _ _ => 0)) blankDp 27).map
      (fun c => (decide (c.1 ≤ c.2.pureScore), c.2.maxPos)) = some (true, 0) := by
    decide +kernel
  have hpath : (detectParaScope farRow ratArith (fun _ => 1) farKey false (fun _ _ => 0)
      blankState).2.data.path = none := by decide +kernel
  obtain ⟨c, hc, heq⟩ := Option.map_eq_some_iff.mp hsome
  obtain ⟨hdecide, hpos⟩ := Prod.mk.inj heq
  have hpass : c.1 ≤ c.2.pureScore := of_decide_eq_true hdecide
  refine ⟨⟨c, ⟨by decide, hc, hpass, fun j hj d hd _ => ?_⟩, hpos⟩, ?_⟩
  · have hends : scopeEnds farRow farKey = [26, 27] := by decide
    rw [hends] at hj
    rcases List.mem_cons.mp hj with rfl | hj
    · rw [hd] at hnone
      cases hnone
    · obtain rfl := List.mem_singleton.mp hj
      obtain rfl := Option.some.inj (hc.symm.trans hd)
      exact .inr ⟨rfl, Nat.le_refl _⟩
  · rintro ⟨rows, hrows⟩
    rw [hpath] at hrows
    cases hrows

/-- Row 0 is recorded; its back-pointers pass the last column. -/
theorem farRow_not_tracesBack :
    (detectParaScope farRow ratArith (fun _ => 1) farKey false (fun _ _ => 0)
      blankState).2.data.start = 0 ∧
    (detectParaScope farRow ratArith (fun _ => 1) farKey false (fun _ _ => 0)
      blankState).2.data.status = .s ∧
    ¬ TracesBack (dpSearchScope farRow (penaltyTableOf farRow 25) 25 25 27 blankDp).prepos 25 27
      0 := by
  refine ⟨by decide +kernel, by decide +kernel, ?_⟩
  rintro ⟨path, hpath, -⟩
  have hnone : tracePath (dpSearchScope farRow (penaltyTableOf farRow 25) 25 25 27 blankDp).prepos
      (BNST_MAX - (25 + 1)) 0 (25 + 1) = none := by decide +kernel
  rw [hnone] at hpath
  cases hpath

end Knp
