import Knp.ParaHeads
import Knp.ParaMask

/-!
# Partial coordinations (`check_para_d_struct`)

In 「彼は東京で八百屋を,彼女は大阪で主婦を」 the predicate is left out, so that bunsetsu have
no head in their part. A strong manager is accepted as such a coordination if the
bunsetsu without a head can be matched, part by part: each round of the loop goes on to
the next one in every part, and the parts must come to their ends in the same round.

> The flag that a part is at its end is reset once in a round only. A manager is accepted
> if and only if the first two parts have equally many bunsetsu without a head and
> no other part has fewer.
-/

namespace Knp

/-! ## Bunsetsu without a head -/

/-- 各部分の係り先のない文節の数 -/
def headlessNum (dFound : Nat → Bool) (start stop : Nat) : Nat :=
  (List.range' start (stop - start)).countP fun i => !dFound i

section Rounds

variable {dFound : Nat → Bool} {start startPos : Nat}

theorem headlessNum_self : headlessNum dFound start start = 0 := by simp [headlessNum]

theorem headlessNum_succ {n : Nat} (h : start ≤ n) :
    headlessNum dFound start (n + 1) = headlessNum dFound start n + if dFound n then 0 else 1 := by
  have hlen : n + 1 - start = n - start + 1 := Nat.succ_sub h
  have hlast : start + (n - start) = n := Nat.add_sub_cancel' h
  rw [headlessNum, hlen, List.range'_concat, List.countP_append, Nat.one_mul, hlast]
  cases hn : dFound n <;> simp [headlessNum, hn]

theorem headlessNum_pos {stop : Nat} :
    0 < headlessNum dFound start stop ↔ ∃ j, start ≤ j ∧ j < stop ∧ dFound j = false := by
  unfold headlessNum
  rw [List.countP_pos_iff]
  constructor
  · rintro ⟨j, hmem, hj⟩
    have hrange := List.mem_range'_1.mp hmem
    exact ⟨j, hrange.1, by omega, by simpa using hj⟩
  · rintro ⟨j, hlo, hhi, hj⟩
    exact ⟨j, List.mem_range'_1.mpr (by omega), by simpa using hj⟩

/-- Bunsetsu that have heads do not count. -/
theorem headlessNum_extend {stop : Nat} (hle : startPos ≤ start) (hstop : start ≤ stop)
    (h : ∀ j, startPos ≤ j → j < start → dFound j = true) :
    headlessNum dFound startPos stop = headlessNum dFound start stop := by
  have hfront : headlessNum dFound startPos start = 0 := by
    by_contra hne
    obtain ⟨j, hlo, hhi, hj⟩ := headlessNum_pos.mp (Nat.pos_of_ne_zero hne)
    exact absurd ((h j hlo hhi).symm.trans hj) (by simp)
  have hlen : stop - startPos = (start - startPos) + (stop - start) := by omega
  have hmid : startPos + 1 * (start - startPos) = start := by omega
  have hsplit : headlessNum dFound startPos stop =
      headlessNum dFound startPos start + headlessNum dFound start stop := by
    unfold headlessNum
    rw [hlen, ← List.range'_append, List.countP_append, hmid]
  rw [hsplit, hfront, Nat.zero_add]

variable (dFound) in
/-- Either there is no other bunsetsu without a head, or it is the one before `e + 1`. -/
theorem nextError_spec {n : Nat} (h : start ≤ n) :
    (headlessNum dFound start n = 0 ∧ nextError start dFound n = start) ∨
      ∃ e < n, start ≤ e ∧ nextError start dFound n = e + 1 ∧
        headlessNum dFound start n = headlessNum dFound start e + 1 := by
  induction n with
  | zero =>
    obtain rfl : start = 0 := Nat.le_zero.mp h
    exact Or.inl ⟨headlessNum_self, rfl⟩
  | succ n ih =>
    rcases Nat.lt_or_ge n start with hlt | hle
    · obtain rfl : start = n + 1 := by omega
      refine Or.inl ⟨headlessNum_self, ?_⟩
      rw [nextError, if_neg (fun hboth => absurd hboth.1 (Nat.not_succ_le_self n))]
    · rw [nextError, headlessNum_succ hle]
      by_cases hfound : dFound n = true
      · have hgo : start ≤ n ∧ dFound n = true := ⟨hle, hfound⟩
        rw [if_pos hfound, Nat.add_zero, if_pos hgo]
        rcases ih hle with hnone | ⟨e, hlt, hspec⟩
        · exact Or.inl hnone
        · exact Or.inr ⟨e, hlt.trans n.lt_succ_self, hspec⟩
      · have hstop : ¬(start ≤ n ∧ dFound n = true) := fun hboth => hfound hboth.2
        rw [if_neg hfound, if_neg hstop]
        exact Or.inr ⟨n, n.lt_succ_self, hle, rfl, rfl⟩

/-! ## The rounds -/

/-- What the rounds find out about the numbers of bunsetsu without a head: `num` in the
first part, `nums` in the others. -/
def Corresponds (num : Nat) (nums : List Nat) : Prop :=
  (∀ c ∈ nums, num ≤ c) ∧ ∀ c ∈ nums.head?, c = num

instance (num : Nat) (nums : List Nat) : Decidable (Corresponds num nums) :=
  inferInstanceAs (Decidable (_ ∧ _))

theorem corresponds_zero {nums : List Nat} : Corresponds 0 nums ↔ ∀ c ∈ nums.head?, c = 0 := by
  simp [Corresponds]

theorem corresponds_succ {num : Nat} {nums : List Nat} :
    Corresponds (num + 1) (nums.map (· + 1)) ↔ Corresponds num nums := by
  cases nums <;> simp [Corresponds]

theorem corresponds_parts {n : Nat} (hn : 2 ≤ n) (num : Nat) (g : Nat → Nat) :
    Corresponds num ((List.range' 1 (n - 1)).map g) ↔
      g 1 = num ∧ ∀ k, 2 ≤ k → k < n → num ≤ g k := by
  obtain ⟨n, rfl⟩ := Nat.exists_eq_add_of_le' hn
  rw [Corresponds, show n + 2 - 1 = n + 1 from rfl, List.range'_succ, List.map_cons,
    List.head?_cons]
  simp only [List.forall_mem_cons, List.forall_mem_map, List.mem_range'_1, Option.mem_some_iff,
    forall_eq']
  constructor
  · rintro ⟨⟨-, hall⟩, heq⟩
    exact ⟨heq, fun k hk hkn => hall k ⟨by omega, by omega⟩⟩
  · rintro ⟨heq, hall⟩
    exact ⟨⟨heq.ge, fun k hk => hall k (by omega) (by omega)⟩, heq⟩

variable (dFound) in
/-- The first part has another bunsetsu without a head. -/
theorem matchErrors_more {starts others : List Nat} (h : List.Forall₂ (· ≤ ·) starts others) :
    (0 ∈ List.zipWith (headlessNum dFound) starts others ∧
        matchErrors dFound false false (starts.zip others) = none) ∨
      ∃ others', matchErrors dFound false false (starts.zip others) = some (others'.map (· + 1)) ∧
        List.Forall₂ (· ≤ ·) starts others' ∧
        List.zipWith (headlessNum dFound) starts others =
          (List.zipWith (headlessNum dFound) starts others').map (· + 1) := by
  induction h with
  | nil => exact Or.inr ⟨[], rfl, .nil, rfl⟩
  | @cons start pos starts others hle _ ih =>
    rw [List.zip_cons_cons, List.zipWith_cons_cons, matchErrors]
    rcases nextError_spec dFound hle with ⟨hnum, heq⟩ | ⟨e, -, hstart, heq, hnum⟩
    · simp [heq, hnum]
    · have hne : ¬e + 1 = start := by omega
      simp only [heq, hne, decide_false, Bool.or_false, ne_eq, not_true_eq_false, if_false]
      rcases ih with ⟨hmem, hnone⟩ | ⟨others', hsome, hall, hnums⟩
      · exact Or.inl ⟨List.mem_cons_of_mem _ hmem, by rw [hnone]; rfl⟩
      · refine Or.inr ⟨e :: others', by rw [hsome]; rfl, .cons hstart hall, ?_⟩
        rw [hnum, hnums, List.zipWith_cons_cons, List.map_cons]

variable (dFound) in
/-- Once a part is at its end, the others of the round are not looked at. -/
theorem matchErrors_passed (zs : List (Nat × Nat)) :
    ∃ es, matchErrors dFound true true zs = some es := by
  induction zs with
  | nil => exact ⟨[], rfl⟩
  | cons z zs ih =>
    obtain ⟨es, hes⟩ := ih
    exact ⟨nextError z.1 dFound z.2 :: es, by simp [matchErrors, hes]⟩

variable (dFound) in
/-- The first part is at its end: so must be the second. -/
theorem matchErrors_last {starts others : List Nat} (h : List.Forall₂ (· ≤ ·) starts others) :
    (matchErrors dFound true false (starts.zip others)).isSome =
      decide (∀ c ∈ (List.zipWith (headlessNum dFound) starts others).head?, c = 0) := by
  cases h with
  | nil => simp [matchErrors]
  | @cons start pos starts others hle _ =>
    rw [List.zip_cons_cons, List.zipWith_cons_cons, matchErrors]
    rcases nextError_spec dFound hle with ⟨hnum, heq⟩ | ⟨e, -, hstart, heq, hnum⟩
    · obtain ⟨es, hes⟩ := matchErrors_passed dFound (starts.zip others)
      simp [heq, hnum, hes]
    · have hne : ¬e + 1 = start := by omega
      simp [heq, hne, hnum]

theorem zipWith_take {α β γ : Type*} (f : α → β → γ) (l : List α) (l' : List β) :
    List.zipWith f l (l'.take l.length) = List.zipWith f l l' := by
  induction l generalizing l' with
  | nil => rfl
  | cons a l ih => cases l' with
    | nil => rfl
    | cons b l' => simp [ih]

theorem partialPara_take (starts : List Nat) (fuel pos : Nat) (others : List Nat) :
    partialPara dFound startPos starts fuel pos others =
      partialPara dFound startPos starts fuel pos (others.take starts.length) := by
  cases fuel with
  | zero => rfl
  | succ fuel =>
    rw [partialPara, partialPara, List.zip_eq_zipWith, List.zip_eq_zipWith, zipWith_take]

theorem partialPara_eq {starts : List Nat} {fuel pos : Nat} {others : List Nat}
    (hpos : startPos ≤ pos) (hfuel : pos < fuel) (h : List.Forall₂ (· ≤ ·) starts others) :
    partialPara dFound startPos starts fuel pos others =
      some (decide (Corresponds (headlessNum dFound startPos pos)
        (List.zipWith (headlessNum dFound) starts others))) := by
  induction fuel generalizing pos others with
  | zero => exact absurd hfuel (Nat.not_lt_zero pos)
  | succ fuel ih =>
    rw [partialPara]
    rcases nextError_spec dFound hpos with ⟨hnum, heq⟩ | ⟨e, hlt, hstart, heq, hnum⟩
    · have hlast := matchErrors_last dFound h
      simp only [heq, decide_true, hnum, corresponds_zero, if_true]
      cases hmatch : matchErrors dFound true false (starts.zip others) with
      | none => simpa [hmatch] using hlast
      | some es => simpa [hmatch] using hlast
    · have hne : ¬e + 1 = startPos := by omega
      simp only [heq, hne, decide_false, if_false, hnum]
      rcases matchErrors_more dFound h with ⟨hmem, hnone⟩ | ⟨others', hsome, hall, hnums⟩
      · have hnot : ¬Corresponds (headlessNum dFound startPos e + 1)
            (List.zipWith (headlessNum dFound) starts others) :=
          fun hc => absurd (hc.1 0 hmem) (Nat.not_succ_le_zero _)
        simp [hnone, hnot]
      · have hback : (others'.map (· + 1)).map (· - 1) = others' := by simp [Function.comp_def]
        have hzero : ¬(e + 1 = 0 ∨ 0 ∈ others'.map (· + 1)) := by simp
        rw [hsome]
        simp only [if_neg hzero, Nat.add_sub_cancel, hback]
        rw [ih hstart (by omega) hall, hnums]
        simp only [corresponds_succ]

end Rounds

/-! ## The checks of the parts -/

section Parts

variable {env : CheckEnv} {sp : ParaSentence} {s : CheckState} {m : ParaManager}
variable {str stop limit startPos : Nat} {extendP : Bool}

theorem headStep_success {i : Nat} {r : RangeState} :
    (headStep env s stop i r).success = true ↔
      r.success = true ∧ (headStep env s stop i r).dFound i = true := by
  unfold headStep
  split
  · simp
  · split <;> simp

/-- The loop over a range succeeds if every bunsetsu of it has a head. -/
theorem headSteps_success {l : List Nat} {r : RangeState} (hnodup : l.Nodup) :
    (l.foldl (fun r i => headStep env s stop i r) r).success = true ↔
      r.success = true ∧
        ∀ i ∈ l, (l.foldl (fun r i => headStep env s stop i r) r).dFound i = true := by
  induction l generalizing r with
  | nil => simp
  | cons i l ih =>
    obtain ⟨hmem, hnodup⟩ := List.nodup_cons.mp hnodup
    rw [List.foldl_cons, ih hnodup, headStep_success, List.forall_mem_cons,
      headSteps_dFound_of_not_mem l hmem, and_assoc]

/-- The bunsetsu over which the first part is extended have heads. -/
theorem extendFront_found : ∀ (n : Nat) (r : RangeState) {j : Nat},
    (extendFront env s stop limit n r).2 ≤ j → j < n →
      (extendFront env s stop limit n r).1 j = true
  | 0, _, _, _, hlt => absurd hlt (Nat.not_lt_zero _)
  | n + 1, r, j, hle, hlt => by
      rw [extendFront] at hle ⊢
      split at hle
      · exact absurd (hle.trans_lt hlt) (Nat.lt_irrefl _)
      · next hgo =>
          rw [if_neg hgo]
          split at hle
          · next hcheck =>
              rw [if_pos hcheck]
              rcases Nat.lt_succ_iff_lt_or_eq.mp hlt with hlt | rfl
              · exact extendFront_found n _ hle hlt
              · rw [extendFront_dFound limit j _ le_rfl]
                exact Function.update_self _ _ _
          · next hcheck =>
              rw [if_neg hcheck]
              split at hle
              · rcases Nat.lt_succ_iff_lt_or_eq.mp hlt with hlt | rfl
                · exact extendFront_found n _ hle hlt
                · rw [extendFront_dFound limit j _ le_rfl]
                  exact Function.update_self _ _ _
              · exact absurd (hle.trans_lt hlt) (Nat.lt_irrefl _)

/-- `_check_para_d_struct` succeeds if every bunsetsu of the range has a head. -/
theorem range_success (hle : str ≤ stop) :
    (checkParaDStructRange env s str stop extendP limit startPos).1 = true ↔
      ∀ i, str ≤ i → i < stop →
        (checkParaDStructRange env s str stop extendP limit startPos).2.1 i = true := by
  have hnodup : (List.range' str (stop - str)).reverse.Nodup :=
    List.nodup_reverse.mpr List.nodup_range'
  have hfold := @headSteps_success env s stop _
    ⟨Function.update s.dFound stop true, fun _ => true, true⟩ hnodup
  have hmem : ∀ i, i ∈ (List.range' str (stop - str)).reverse ↔ str ≤ i ∧ i < stop := fun i => by
    rw [List.mem_reverse, List.mem_range'_1]
    omega
  simp only [hmem, true_and] at hfold
  unfold checkParaDStructRange
  dsimp only
  split
  · rw [hfold]
    refine forall_congr' fun i => ⟨fun h hlo hhi => ?_, fun h hi => ?_⟩
    · rw [extendFront_dFound limit str _ hlo]
      exact h ⟨hlo, hhi⟩
    · have hext := h hi.1 hi.2
      rwa [extendFront_dFound limit str _ hi.1] at hext
  · rw [hfold]
    exact forall_congr' fun i => ⟨fun h hlo hhi => h ⟨hlo, hhi⟩, fun h hi => h hi.1 hi.2⟩

theorem range_extended {j : Nat} (hstart : startPos = str)
    (hle : (checkParaDStructRange env s str stop extendP limit startPos).2.2 ≤ j) (hlt : j < str) :
    (checkParaDStructRange env s str stop extendP limit startPos).2.1 j = true := by
  unfold checkParaDStructRange at hle ⊢
  dsimp only at hle ⊢
  split at hle
  · next hext =>
      rw [if_pos hext]
      exact extendFront_found str _ hle hlt
  · exact absurd (hle.trans_lt hlt) (by rw [hstart]; exact Nat.lt_irrefl _)

variable (env sp s) in
/-- The checks of all parts: the bunsetsu before the first part up to `start_pos` have heads,
and there is an error if a part has a bunsetsu without a head. -/
theorem checkParts_spec (hm : Parted m) :
    ((checkParts env sp m s).2.1 ≤ m.start 0 ∧
      ∀ j, (checkParts env sp m s).2.1 ≤ j → j < m.start 0 → (checkParts env sp m s).1 j = true) ∧
    ((checkParts env sp m s).2.2.any id = true ↔
      ∃ k < m.partNum, ∃ j, m.start k ≤ j ∧ j < m.stop k ∧
        (checkParts env sp m s).1 j = false) := by
  rw [checkParts_eq]
  suffices h : ∀ n ≤ m.partNum, ∀ r : (Nat → Bool) × Nat × List Bool,
      (List.range n).foldl (checkPart env sp m s) (s.dFound, m.start 0, []) = r →
      (n = 0 → r.2.1 = m.start 0) ∧
      (r.2.1 ≤ m.start 0 ∧ ∀ j, r.2.1 ≤ j → j < m.start 0 → r.1 j = true) ∧
      (r.2.2.any id = true ↔
        ∃ k < n, ∃ j, m.start k ≤ j ∧ j < m.stop k ∧ r.1 j = false) from (h _ le_rfl _ rfl).2
  intro n
  induction n with
  | zero =>
    rintro - r rfl
    refine ⟨fun _ => rfl,
      ⟨le_rfl, fun j hle hlt => absurd (hle.trans_lt hlt) (Nat.lt_irrefl _)⟩, ?_⟩
    simp
  | succ n ih =>
    rintro hn r rfl
    rw [List.range_succ, List.foldl_append, List.foldl_cons, List.foldl_nil]
    obtain ⟨hzero, ⟨hpos, hext⟩, herror⟩ := ih (Nat.le_of_succ_le hn) _ rfl
    generalize (List.range n).foldl _ _ = r at hzero hpos hext herror
    obtain ⟨dFound, startPos, error⟩ := r
    dsimp only [checkPart] at hzero hpos hext herror ⊢
    refine ⟨fun h => absurd h (Nat.succ_ne_zero n), ⟨?_, ?_⟩, ?_⟩
    · cases n with
      | zero => exact range_startPos_le hpos
      | succ n => exact hpos
    · cases n with
      | zero => exact fun j hle hlt => range_extended (hzero rfl) hle hlt
      | succ n =>
        intro j hle hlt
        have hbefore := hm.start_zero_le hn
        rw [decide_eq_false (Nat.succ_ne_zero n), Bool.false_and,
          range_dFound_of_lt (by omega) (hm.start_le _ hn)]
        exact hext j hle hlt
    · -- the parts before are left alone by the check of this one
      have hold : ∀ k < n, ∀ j, m.start k ≤ j → j < m.stop k →
          (checkParaDStructRange env { s with dFound := dFound } (m.start n) (m.stop n)
            (n = 0 && paraExtendP env sp m) (if n = 0 then parentRange s m else 0)
            startPos).2.1 j = dFound j := by
        intro k hk j _ hhi
        have hnz : n ≠ 0 := (Nat.zero_lt_of_lt hk).ne'
        have hbefore := hm.stop_lt_start hk hn
        rw [decide_eq_false hnz, Bool.false_and]
        exact range_dFound_of_lt (by omega) (hm.start_le n hn)
      have hsuccess := @range_success env { s with dFound := dFound } (m.start n) (m.stop n)
        (if n = 0 then parentRange s m else 0) startPos (n = 0 && paraExtendP env sp m)
        (hm.start_le n hn)
      rw [List.any_append, Bool.or_eq_true, herror]
      constructor
      · rintro (⟨k, hk, j, hlo, hhi, hj⟩ | hnew)
        · exact ⟨k, hk.trans n.lt_succ_self, j, hlo, hhi, (hold k hk j hlo hhi).trans hj⟩
        · refine ⟨n, n.lt_succ_self, ?_⟩
          by_contra hnone
          simp only [not_exists, not_and, Bool.not_eq_false] at hnone
          have hok := hsuccess.mpr hnone
          simp [hok] at hnew
      · rintro ⟨k, hk, j, hlo, hhi, hj⟩
        rcases Nat.lt_succ_iff_lt_or_eq.mp hk with hk | rfl
        · exact Or.inl ⟨k, hk, j, hlo, hhi, (hold k hk j hlo hhi).symm.trans hj⟩
        · right
          cases hok : (checkParaDStructRange env { s with dFound := dFound } (m.start k) (m.stop k)
            (k = 0 && paraExtendP env sp m) (if k = 0 then parentRange s m else 0)
            startPos).1 with
          | false => rfl
          | true =>
            have hfound := hsuccess.mp hok j hlo hhi
            exact absurd (hfound.symm.trans hj) (by simp)

end Parts

/-! ## The decision -/

/-- 部分並列: the check of a strong manager fails, and the errors of its parts correspond. -/
def AcceptsPartial (env : CheckEnv) (sp : ParaSentence) (m : ParaManager) (s : CheckState) : Prop :=
  m.status = .s ∧ (checkParts env sp m s).2.2.any id = true ∧
    partialPara (checkParts env sp m s).1 (checkParts env sp m s).2.1 (m.startPos.drop 1)
      (m.stop 0 + 1) (m.stop 0) (m.endPos.drop 1) = some true

instance (env : CheckEnv) (sp : ParaSentence) (m : ParaManager) (s : CheckState) :
    Decidable (AcceptsPartial env sp m s) := inferInstanceAs (Decidable (_ ∧ _))

/-- 係り先のない文節の数 of part `k` -/
def partHeadless (env : CheckEnv) (sp : ParaSentence) (m : ParaManager) (s : CheckState)
    (k : Nat) : Nat :=
  headlessNum (checkParts env sp m s).1 (m.start k) (m.stop k)

section Decision

variable {env : CheckEnv} {sp : ParaSentence} {s : CheckState} {m : ParaManager}

/-- An accepted manager is not revised. -/
theorem AcceptsPartial.errorToRevise (h : AcceptsPartial env sp m s) :
    errorToRevise m (checkParts env sp m s).1 (checkParts env sp m s).2.1
      (checkParts env sp m s).2.2 = some none := by
  obtain ⟨hstatus, herror, haccepts⟩ := h
  unfold Knp.errorToRevise
  rw [herror, hstatus, haccepts]
  rfl

theorem Parted.part_lt (hm : Parted m) {k : Nat} (hk : k < m.partNum) : k < m.endPos.length := by
  by_contra hge
  have hzero : m.stop k = 0 := by
    unfold ParaManager.stop
    rw [List.getD_eq_default _ _ (Nat.le_of_not_lt hge)]
  cases k with
  | zero =>
    have hnil : m.endPos = [] := List.length_eq_zero_iff.mp (Nat.le_zero.mp (Nat.le_of_not_lt hge))
    have hnext : m.stop 1 = 0 := by simp [ParaManager.stop, hnil]
    have hlt := hm.stop_lt_stop Nat.zero_lt_one hm.two_le
    omega
  | succ k =>
    have hlt : m.stop k < m.stop (k + 1) := hm.stop_lt_stop k.lt_succ_self hk
    omega

theorem Parted.forall₂_drop (hm : Parted m) : List.Forall₂ (· ≤ ·) (m.startPos.drop 1)
    ((m.endPos.drop 1).take (m.startPos.drop 1).length) := by
  have hlast := hm.part_lt (k := m.partNum - 1) (by have := hm.two_le; omega)
  have hlen : m.startPos.length = m.partNum := rfl
  refine List.forall₂_iff_get.mpr ⟨?_, fun k hk hk' => ?_⟩
  · simp only [List.length_take, List.length_drop]
    omega
  · have hstart : k + 1 < m.startPos.length := by
      rw [List.length_drop] at hk
      omega
    have hstop : k + 1 < m.endPos.length := by omega
    have hle := hm.start_le (k + 1) hstart
    simpa [ParaManager.start, ParaManager.stop, hstart, hstop] using hle

/-- The parts behind the first. -/
theorem Parted.zipWith_drop (hm : Parted m) (f : Nat → Nat → Nat) :
    List.zipWith f (m.startPos.drop 1) (m.endPos.drop 1) =
      (List.range' 1 (m.partNum - 1)).map fun k => f (m.start k) (m.stop k) := by
  have hlast := hm.part_lt (k := m.partNum - 1) (by have := hm.two_le; omega)
  have hlen : m.startPos.length = m.partNum := rfl
  refine List.ext_getElem ?_ fun k hk hk' => ?_
  · simp only [List.length_zipWith, List.length_drop, List.length_map, List.length_range']
    omega
  · simp only [List.length_map, List.length_range'] at hk'
    have hstart : 1 + k < m.startPos.length := by omega
    have hstop : 1 + k < m.endPos.length := by omega
    rw [Nat.add_comm] at hstart hstop
    simp [ParaManager.start, ParaManager.stop, hstart, hstop, Nat.add_comm 1 k]

/-- A strong manager whose check fails is accepted if the first two parts have equally many
bunsetsu without a head and no other part has fewer. -/
theorem acceptsPartial_iff (hm : Parted m) (hstatus : m.status = .s)
    (hsome : ∃ k < m.partNum, 0 < partHeadless env sp m s k) :
    AcceptsPartial env sp m s ↔
      partHeadless env sp m s 1 = partHeadless env sp m s 0 ∧
        ∀ k, 2 ≤ k → k < m.partNum → partHeadless env sp m s 0 ≤ partHeadless env sp m s k := by
  obtain ⟨⟨hpos, hext⟩, herror⟩ := checkParts_spec env sp s hm
  have hfail : (checkParts env sp m s).2.2.any id = true := by
    obtain ⟨k, hk, hnum⟩ := hsome
    exact herror.mpr ⟨k, hk, headlessNum_pos.mp hnum⟩
  have hle := hm.start_le 0 (by have := hm.two_le; omega)
  unfold AcceptsPartial
  rw [partialPara_take, partialPara_eq (hpos.trans hle) (Nat.lt_succ_self _) hm.forall₂_drop,
    zipWith_take, hm.zipWith_drop, headlessNum_extend hpos hle hext]
  simp only [hstatus, hfail, true_and, Option.some.injEq, decide_eq_true_eq]
  exact corresponds_parts hm.two_le _ _

/-- The comment of the source is right unless the first two parts have equally many bunsetsu
without a head, no other part has fewer, and one has more. -/
theorem acceptsPartial_equal_iff (env : CheckEnv) (sp : ParaSentence) (m : ParaManager)
    (s : CheckState) (hm : Parted m) (hstatus : m.status = .s)
    (hsome : ∃ k < m.partNum, 0 < partHeadless env sp m s k) :
    (AcceptsPartial env sp m s ↔
        ∀ k < m.partNum, partHeadless env sp m s k = partHeadless env sp m s 0) ↔
      ¬(partHeadless env sp m s 1 = partHeadless env sp m s 0 ∧
        (∀ k, 2 ≤ k → k < m.partNum → partHeadless env sp m s 0 ≤ partHeadless env sp m s k) ∧
        ∃ k, 2 ≤ k ∧ k < m.partNum ∧ partHeadless env sp m s 0 < partHeadless env sp m s k) := by
  rw [acceptsPartial_iff hm hstatus hsome]
  constructor
  · rintro hiff ⟨hone, hle, k, -, hk, hlt⟩
    exact absurd (hiff.mp ⟨hone, hle⟩ k hk) hlt.ne'
  · intro hnot
    constructor
    · rintro ⟨hone, hle⟩ k hk
      rcases Nat.lt_or_ge k 2 with hlt | hge
      · have hcases : k = 0 ∨ k = 1 := by omega
        rcases hcases with rfl | rfl
        · rfl
        · exact hone
      · refine le_antisymm (not_lt.mp fun hlt => ?_) (hle k hge hk)
        exact hnot ⟨hone, hle, k, hge, hk, hlt⟩
    · intro hall
      exact ⟨hall 1 hm.two_le, fun k _ hk => (hall k hk).ge⟩

end Decision

/-- Bunsetsu of which none depends on another. -/
def looseEnv : CheckEnv where
  bnstNum := 7
  language := .japanese
  optParaFix := false
  feature _ _ := false
  quote _ _ := true
  chiNpStart _ := -1
  chiNpEnd _ := -1
  chiQuoteStart _ := -1
  chiQuoteEnd _ := -1

def looseState : CheckState where
  mask _ _ := 1
  dpnd _ _ := 0
  dCheck _ := false
  dFound _ := false
  restrict _ _ := 1
  keyType _ := .p
  manager _ := emptyManager

def looseSentence : ParaSentence :=
  .ofList 7 [⟨0, 1, 3, 5, .s⟩, ⟨2, 3, 6, 5, .s⟩] (by simp) (by simp)

/-- A strong manager with the given parts. -/
def strongManager (startPos endPos : List Nat) : ParaManager :=
  ⟨[0, 1], startPos, endPos, none, [], .s⟩

theorem oneEach_accepted :
    (AcceptsPartial looseEnv looseSentence (strongManager [0, 2] [1, 3]) looseState ↔
        ∀ k < 2, partHeadless looseEnv looseSentence (strongManager [0, 2] [1, 3]) looseState k =
          partHeadless looseEnv looseSentence (strongManager [0, 2] [1, 3]) looseState 0) :=
  (acceptsPartial_equal_iff looseEnv looseSentence (strongManager [0, 2] [1, 3]) looseState
    ⟨by decide, by decide, fun k hk => by
      obtain rfl : k = 0 := Nat.lt_one_iff.mp (Nat.lt_of_succ_lt_succ hk)
      decide⟩ rfl ⟨0, by decide, by decide⟩).mpr (by
      rintro ⟨-, -, k, hk, hlt, -⟩
      exact absurd (hk.trans_lt hlt) (by decide))

/-- The parts have one, one and two bunsetsu without a head. In the round in which the first two
are at their ends, the third is not looked at. -/
theorem oneOneTwo_accepted :
    ¬∀ (env : CheckEnv) (sp : ParaSentence) (m : ParaManager) (s : CheckState), Parted m →
      m.status = .s → (∃ k < m.partNum, 0 < partHeadless env sp m s k) →
        (AcceptsPartial env sp m s ↔
          ∀ k < m.partNum, partHeadless env sp m s k = partHeadless env sp m s 0) := by
  intro h
  have hiff := h looseEnv looseSentence (strongManager [0, 2, 4] [1, 3, 6]) looseState
    ⟨by decide, by decide, fun k hk => by
      obtain rfl | rfl : k = 0 ∨ k = 1 := by
        have hlt : k < 2 := Nat.lt_of_succ_lt_succ hk
        omega
      · decide
      · decide⟩ rfl ⟨0, by decide, by decide⟩
  exact absurd (hiff.mp (by decide) 2 (by decide)) (by decide)

end Knp
