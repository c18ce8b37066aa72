import Knp.CfFrame

/-!
# The slots of a record (`case_ipal.c`)

The strings of a record are told apart by the number of NUL bytes before them: from the third
one on, three strings make a slot. `get_ipal_frame` tests whether there is room for another
slot after it has set the first string of that slot.

> A record is read into its slots, and nothing is written outside of them, just if it has at
> most `CASE_MAX_NUM` slots.
-/

namespace Knp

open Tokens

/-- The indices of `cs` that the loop over the bytes writes, in order. -/
def slotIndices : Nat → List (List UInt8) → Nat → List Nat
  | _, [], _ => []
  | count, _ :: ss, casenum =>
      if count < 3 then slotIndices (count + 1) ss casenum
      else if count % 3 = 0 then
        (count / 3 - 1) ::
          if CASE_MAX_NUM < casenum + 1 then [] else slotIndices (count + 1) ss (casenum + 1)
      else (count / 3 - 1) :: slotIndices (count + 1) ss casenum

/-- The file has the record at the address. -/
structure HasRecord (file : CfFlag → List UInt8) (address size : Nat) (flag : CfFlag)
    (e : CfEntry) : Prop where
  bytes : ((file flag).drop address).take size = e.bytes
  size : size = e.bytes.length
  noNul : ∀ s ∈ e.strings, 0 ∉ s

/-- The first alignment of the features has an id, so that they can be read. -/
def CfEntry.Readable (e : CfEntry) (flag : CfFlag) : Prop :=
  ∀ item, (e.items flag).find? FeatureItem.isAlignment = some item → item.aligned?.isSome

/-- The record is read into its slots, as many as there may be, and no other one is written. -/
def Decoded (file : CfFlag → List UInt8) (old : CfFrame) (address size : Nat) (flag : CfFlag)
    (e : CfEntry) : Prop :=
  ∃ f, getIpalFrame file old address size flag = some f ∧
    f.casenum = min e.slots.length CASE_MAX_NUM ∧
    (∀ i < min e.slots.length CASE_MAX_NUM, e.slots[i]? = some (f.cs i)) ∧
    ∀ n ∈ slotIndices 0 e.strings.tail 0, n < CASE_MAX_NUM

/-! ## What is written -/

section Writes

variable {f : CfFrame} {s : List UInt8} {ss : List (List UInt8)} {count n j : Nat}

theorem setString_casenum : (setString count s f).casenum =
    if 3 ≤ count ∧ count % 3 = 0 then f.casenum + 1 else f.casenum := by
  unfold setString
  dsimp only
  split_ifs <;> first | rfl | omega

theorem setString_cs_of_ne (h : count < 3 ∨ j ≠ count / 3 - 1) :
    (setString count s f).cs j = f.cs j := by
  unfold setString
  dsimp only
  split_ifs with h0 h1 h2 h3 h4
  · rfl
  · rfl
  · rfl
  · exact Function.update_of_ne (by omega) ..
  · exact Function.update_of_ne (by omega) ..
  · exact Function.update_of_ne (by omega) ..

/-- The other entries stay as they were. -/
theorem setStrings_cs_of_notMem : ∀ (ss : List (List UInt8)) (count : Nat) (f : CfFrame),
    j ∉ slotIndices count ss f.casenum → (setStrings count ss f).cs j = f.cs j
  | [], _, _, _ => rfl
  | s :: ss, count, f, hj => by
      rw [slotIndices] at hj
      rw [setStrings]
      split_ifs at hj with hcount hthird hfull
      · rw [if_neg (by omega), setStrings_cs_of_notMem ss, setString_cs_of_ne (Or.inl hcount)]
        rw [setString_casenum, if_neg (by omega)]
        exact hj
      · rw [if_pos ⟨by omega, hthird, hfull⟩]
        exact Function.update_of_ne (fun heq => hj (List.mem_singleton.mpr heq)) ..
      · obtain ⟨hne, hrest⟩ := not_or.mp fun hor => hj (List.mem_cons.mpr hor)
        rw [if_neg (fun h => hfull h.2.2), setStrings_cs_of_notMem ss,
          setString_cs_of_ne (Or.inr hne)]
        rw [setString_casenum, if_pos ⟨by omega, hthird⟩]
        exact hrest
      · obtain ⟨hne, hrest⟩ := not_or.mp fun hor => hj (List.mem_cons.mpr hor)
        rw [if_neg (fun h => hthird h.2.1), setStrings_cs_of_notMem ss,
          setString_cs_of_ne (Or.inr hne)]
        rw [setString_casenum, if_neg (fun h => hthird h.2)]
        exact hrest

theorem slotIndices_slot (slot : CfCaseSlot) (hn : n < CASE_MAX_NUM) :
    slotIndices (3 * (n + 1)) (slot.strings ++ ss) n =
      n :: n :: n :: slotIndices (3 * (n + 1 + 1)) ss (n + 1) := by
  simp only [CfCaseSlot.strings, List.cons_append, List.nil_append, slotIndices]
  rw [if_neg (by omega), if_pos (by omega), if_neg (by omega), if_neg (by omega), if_neg (by omega),
    if_neg (by omega), if_neg (by omega), show 3 * (n + 1) / 3 - 1 = n by omega,
    show (3 * (n + 1) + 1) / 3 - 1 = n by omega, show (3 * (n + 1) + 1 + 1) / 3 - 1 = n by omega]
  rfl

/-- The slots behind `n` others. -/
theorem slotIndices_lt_iff : ∀ (slots : List CfCaseSlot) (n : Nat), n ≤ CASE_MAX_NUM →
    ((∀ j ∈ slotIndices (3 * (n + 1)) (slots.flatMap CfCaseSlot.strings) n, j < CASE_MAX_NUM) ↔
      n + slots.length ≤ CASE_MAX_NUM)
  | [], n, hn => iff_of_true (fun _ hj => nomatch hj) hn
  | slot :: slots, n, hn => by
      rw [List.flatMap_cons, List.length_cons]
      rcases Nat.eq_or_lt_of_le hn with hfull | hlt
      · refine iff_of_false (fun hall => ?_) (by omega)
        have hmem : n ∈ slotIndices (3 * (n + 1))
            (slot.strings ++ slots.flatMap CfCaseSlot.strings) n := by
          simp only [CfCaseSlot.strings, List.cons_append, slotIndices]
          rw [if_neg (by omega), if_pos (by omega), show 3 * (n + 1) / 3 - 1 = n by omega]
          exact List.mem_cons_self
        exact (hall n hmem).ne hfull
      · rw [slotIndices_slot slot hlt]
        simp only [List.forall_mem_cons]
        rw [slotIndices_lt_iff slots (n + 1) hlt]
        omega

end Writes

/-! ## Records that can be read -/

section Records

variable {file : CfFlag → List UInt8} {address size : Nat} {flag : CfFlag} {e : CfEntry}

theorem addItem_cfAlignedNum (s : FeatureState) (item : FeatureItem) :
    (addItem s item).cfAlignedNum = s.cfAlignedNum := by
  cases item with
  | merged c₁ c₂ =>
      rw [addItem]
      split <;> rfl
  | _ => rfl

/-- An alignment without an id cannot be copied. -/
theorem addTokens_none {item : FeatureItem} : ∀ (tokens : List (List UInt8)) (s : FeatureState),
    s.cfAlignedNum = 0 →
    (tokens.map (featureItem flag)).find? FeatureItem.isAlignment = some item →
    item.aligned?.isSome = false → addTokens flag tokens s = none
  | [], _, _, hfind, _ => nomatch hfind
  | token :: tokens, s, hnum, hfind, hid => by
      rw [List.map_cons] at hfind
      by_cases halign : (featureItem flag token).isAlignment = true
      · rw [List.find?_cons_of_pos halign] at hfind
        obtain rfl := Option.some.inj hfind
        rw [addTokens]
        cases hitem : featureItem flag token with
        | alignment str =>
            rw [hitem, FeatureItem.aligned?] at hid
            have hnone : getCfAlignment str s.cfAlignedNum s.frame = none := by
              rw [getCfAlignment]
              split at hid
              next => rfl
              next => cases hid
            dsimp only
            rw [hnone, if_pos (by rw [hnum]; decide)]
            rfl
        | _ => rw [hitem] at halign; cases halign
      · rw [List.find?_cons_of_neg halign] at hfind
        rw [addTokens_cons (Bool.eq_false_iff.mpr halign)]
        exact addTokens_none tokens _ ((addItem_cfAlignedNum _ _).trans hnum) hfind hid

theorem HasRecord.none (h : HasRecord file address size flag e) (hbad : ¬ e.Readable flag)
    (old : CfFrame) : getIpalFrame file old address size flag = none := by
  have hsplit : e.bytes.dropLast.splitOn 0 = e.strings :=
    splitOn_join (List.cons_ne_nil _ _) h.noNul
  obtain ⟨cs, hstrings, -, -⟩ := setStrings_slots e.slots 0
    { old with
      address := address, data := e.id, casenum := 0, yomi := e.yomi, hyoki := e.hyoki,
      feature := e.feature } rfl (Nat.zero_le _)
  obtain ⟨item, hbad⟩ := not_forall.mp hbad
  obtain ⟨hfind, hid⟩ := Classical.not_imp.mp hbad
  unfold getIpalFrame
  dsimp only
  rw [h.bytes, if_neg (by rw [h.size]; exact lt_irrefl _), hsplit]
  unfold CfEntry.strings
  dsimp only
  rw [setStrings_entry, hstrings, addTokens_none _ _ rfl hfind (Bool.eq_false_iff.mpr hid)]
  rfl

/-- `get_ipal_frame`, for any record in the file and whatever was read before. -/
theorem decoded_iff (h : HasRecord file address size flag e) (old : CfFrame) :
    Decoded file old address size flag e ↔
      e.slots.length ≤ CASE_MAX_NUM ∧ e.Readable flag := by
  have hwrites := slotIndices_lt_iff e.slots 0 (Nat.zero_le _)
  have htail : slotIndices 0 e.strings.tail 0 =
      slotIndices (3 * (0 + 1)) (e.slots.flatMap CfCaseSlot.strings) 0 := rfl
  rw [Nat.zero_add e.slots.length, ← htail] at hwrites
  constructor
  · rintro ⟨f, hf, -, -, hall⟩
    refine ⟨hwrites.mp hall, ?_⟩
    by_contra hbad
    rw [h.none hbad old] at hf
    cases hf
  · rintro ⟨hlen, hread⟩
    obtain ⟨f, hf, hholds⟩ := getIpalFrame_holds ⟨h.bytes, h.size, h.noNul, hread⟩ old
    have hslots : (e.slots.take CASE_MAX_NUM).length = min e.slots.length CASE_MAX_NUM := by
      rw [List.length_take, Nat.min_comm]
    refine ⟨f, hf, hholds.casenum.trans hslots, ?_, hwrites.mpr hlen⟩
    intro i hi
    have hcs := hholds.cs i (hslots.symm ▸ hi)
    rw [hcs]
    change e.slots[i]? = some (e.slots.take CASE_MAX_NUM)[i]
    rw [List.getElem_take, List.getElem?_eq_getElem]

/-- A record of `k` slots. -/
def recordOf (k : Nat) : CfEntry where
  id := utf8 "読む/よむ:動1"
  yomi := utf8 "よむ"
  hyoki := utf8 "読む"
  feature := []
  slots := List.replicate k ⟨utf8 "ガ格", utf8 "人", []⟩

theorem recordOf_hasRecord (k : Nat) (hnul : ∀ s ∈ (recordOf k).strings, 0 ∉ s) :
    HasRecord (fun _ => (recordOf k).bytes) 0 (recordOf k).bytes.length .pred (recordOf k) :=
  ⟨by rw [List.drop_zero, List.take_length], rfl, hnul⟩

theorem recordOf_readable (k : Nat) : (recordOf k).Readable .pred := by
  intro item h
  have hnone : ((recordOf k).items .pred).find? FeatureItem.isAlignment = none := rfl
  rw [hnone] at h
  cases h

/-- `CF_frame` before anything is read. -/
def zeroFrame : CfFrame where
  address := 0
  yomi := []
  hyoki := []
  feature := []
  predType := []
  voice := 0
  etcflag := 0
  casenum := 0
  cs _ := ⟨[], [], []⟩
  samecase _ := none
  cfId _ := none
  alignedCase _ _ := none
  data := []

/-- With 21 slots the entry behind the array is written. -/
theorem recordOf_overruns :
    HasRecord (fun _ => (recordOf 21).bytes) 0 (recordOf 21).bytes.length .pred (recordOf 21) ∧
      CASE_MAX_NUM ∈ slotIndices 0 (recordOf 21).strings.tail 0 ∧
      ¬ Decoded (fun _ => (recordOf 21).bytes) zeroFrame 0 (recordOf 21).bytes.length .pred
        (recordOf 21) := by
  have hmem : CASE_MAX_NUM ∈ slotIndices 0 (recordOf 21).strings.tail 0 := by decide +kernel
  refine ⟨recordOf_hasRecord 21 (by decide +kernel), hmem, ?_⟩
  rintro ⟨f, -, -, -, hall⟩
  exact Nat.lt_irrefl _ (hall _ hmem)

theorem recordOf_decoded :
    Decoded (fun _ => (recordOf 2).bytes) zeroFrame 0 (recordOf 2).bytes.length .pred
      (recordOf 2) :=
  (decoded_iff (recordOf_hasRecord 2 (by decide +kernel)) zeroFrame).mpr
    ⟨by decide, recordOf_readable 2⟩

end Records

end Knp
