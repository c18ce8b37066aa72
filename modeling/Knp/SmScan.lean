import Knp.SmCode

/-!
# The two scans of a dictionary value (`case_match.c`, `lib_sm.c`)

A value of the dictionary of proper nouns is `code/code side-effect/...`. The
case matcher reads it in `_sm_match_score` and compares the codes one by one;
`smp2smg` reads it once more and keeps the codes.

> Both read the codes without a side effect, in their order, and stop at the
> end of the value.

The scans part on a value that ends with a delimiter: `_sm_match_score` looks
for a code behind it. What is left where a scan stops is the second part of its
result; `none` stands for reading behind the value.
-/

namespace Knp

/-- The third argument of `_sm_match_score`. -/
inductive SmFlag
  | expandNe
  | noExpandNe
  | checkFull
  | expandNeData
deriving DecidableEq

/-- `!strncmp(cp, " side-effect", 12)` -/
def sideEffectP (cp : List UInt8) : Bool := (ascii " side-effect").isPrefixOf cp

/-- The loop of `_sm_match_score`: the codes that are compared. -/
def smMatchScan : Nat → List UInt8 → Option (List (List UInt8) × List UInt8)
  | 0, _ => none
  | fuel + 1, cp =>
      if cp = [] then some ([], cp)
      else
        -- another delimiter is reported, and read as part of the code
        let cp := if byteAt cp 0 = '/'.toUInt8 then cp.drop 1 else cp
        if cp.length < SM_CODE_SIZE then none
        else
          let rest := cp.drop SM_CODE_SIZE
          if sideEffectP rest then smMatchScan fuel (rest.drop 12)
          else (smMatchScan fuel rest).map fun r => (cp.take SM_CODE_SIZE :: r.1, r.2)

/-- The loop of `smp2smg`: the codes that are stored. -/
def smp2smgScan (flag : Bool) : Nat → List UInt8 → Option (List (List UInt8) × List UInt8)
  | 0, _ => none
  | fuel + 1, cp =>
      if cp = [] then some ([], cp)
      else if cp.length < SM_CODE_SIZE then none
      else
        let rest := cp.drop SM_CODE_SIZE
        let sideEffect := sideEffectP rest
        let after := if sideEffect then rest.drop 12 else rest
        let out := if sideEffect && !flag then [] else [cp.take SM_CODE_SIZE]
        -- 今回で終わり
        if after = [] || (sideEffect && byteAt after 0 ≠ '/'.toUInt8) then some (out, after)
        else (smp2smgScan flag fuel (after.drop 1)).map fun r => (out ++ r.1, r.2)

/-- `_sm_match_score` -/
def smMatchScoreBy (env : SmEnv) (flag : SmFlag) (cpp cpd : List UInt8) : Option Nat :=
  if flag = .checkFull then some (compSmLoop cpp cpd SM_CODE_SIZE)
  else if byteAt cpp 0 = 'x'.toUInt8 then
    some (if byteAt cpd 0 = 'x'.toUInt8 then SM_CODE_SIZE else 0)
  else if byteAt cpd 0 = 'x'.toUInt8 then some 0
  -- データが固有名詞のとき
  else if byteAt cpd 0 = '2'.toUInt8 then
    if flag = .expandNe ∧ byteAt cpp 0 ≠ '2'.toUInt8 then
      if !env.smp2smgExist then some 0
      else match env.smp2smgDb (cpd.take SM_CODE_SIZE) with
        | none => some 0
        | some start => (smMatchScan (start.length + 1) start).map fun r =>
            r.1.foldl (fun score cp => max score (compSm cpp cp)) 0
    else if flag = .noExpandNe ∧ byteAt cpp 0 = '2'.toUInt8 then some (compSm cpp cpd)
    else some 0
  -- 両方とも一般名詞のとき
  else if byteAt cpp 0 ≠ '2'.toUInt8 then some (compSm cpp cpd)
  else some 0

/-! ## The format -/

/-- A code of a value, with or without the text behind it. -/
structure SmEntry where
  code : List UInt8
  sideEffect : Bool
  size : code.length = SM_CODE_SIZE
  noSlash : '/'.toUInt8 ∉ code

def SmEntry.text (e : SmEntry) : List UInt8 :=
  e.code ++ if e.sideEffect then ascii " side-effect" else []

/-- The codes of an entry that are used without side effects. -/
def SmEntry.codes (e : SmEntry) : List (List UInt8) := if e.sideEffect then [] else [e.code]

/-- The value of the dictionary for a list of entries. -/
def smValue (es : List SmEntry) : List UInt8 :=
  ['/'.toUInt8].intercalate (es.map SmEntry.text)

/-- The text behind an entry. -/
def smTail : List SmEntry → List UInt8
  | [] => []
  | e :: es => '/'.toUInt8 :: (e.text ++ smTail es)

/-- A value goes on with a delimiter, or is over. -/
def Delimited (t : List UInt8) : Prop := t = [] ∨ byteAt t 0 = '/'.toUInt8

theorem delimited_smTail (es : List SmEntry) : Delimited (smTail es) := by
  cases es with
  | nil => exact .inl rfl
  | cons e es => exact .inr rfl

theorem smValue_cons (e : SmEntry) (es : List SmEntry) :
    smValue (e :: es) = e.text ++ smTail es := by
  induction es generalizing e with
  | nil => simp [smValue, smTail]
  | cons e' es ih =>
      have hstep : smValue (e :: e' :: es) = e.text ++ '/'.toUInt8 :: smValue (e' :: es) := by
        simp [smValue, List.intercalate]
      rw [hstep, ih, smTail]

theorem smTail_cons (e : SmEntry) (es : List SmEntry) :
    smTail (e :: es) = '/'.toUInt8 :: smValue (e :: es) := by
  rw [smTail, smValue_cons]

/-! ## One entry -/

section Entry

variable {e : SmEntry} {t : List UInt8}

theorem Delimited.sideEffectP_eq_false (ht : Delimited t) : sideEffectP t = false := by
  cases t with
  | nil => decide
  | cons b t =>
      obtain rfl : b = '/'.toUInt8 := ht.resolve_left (List.cons_ne_nil b t)
      rfl

theorem SmEntry.take_text : (e.text ++ t).take SM_CODE_SIZE = e.code := by
  rw [SmEntry.text, List.append_assoc, List.take_left' e.size]

theorem SmEntry.drop_text : (e.text ++ t).drop SM_CODE_SIZE =
    (if e.sideEffect then ascii " side-effect" else []) ++ t := by
  rw [SmEntry.text, List.append_assoc, List.drop_left' e.size]

theorem SmEntry.le_length_text : ¬(e.text ++ t).length < SM_CODE_SIZE := by
  rw [SmEntry.text, List.length_append, List.length_append, e.size]
  omega

theorem SmEntry.text_ne_nil : e.text ++ t ≠ [] := by
  intro hnil
  have hlen := @SmEntry.le_length_text e t
  rw [hnil] at hlen
  exact hlen (by decide)

theorem SmEntry.byteAt_text : byteAt (e.text ++ t) 0 ≠ '/'.toUInt8 := by
  intro heq
  have hsize := e.size
  have hslash := e.noSlash
  unfold SmEntry.text at heq
  cases hcode : e.code with
  | nil =>
      rw [hcode] at hsize
      cases hsize
  | cons b code =>
      rw [hcode] at heq hslash
      obtain rfl : b = '/'.toUInt8 := heq
      exact hslash List.mem_cons_self

theorem SmEntry.sideEffectP_drop (ht : Delimited t) :
    sideEffectP ((e.text ++ t).drop SM_CODE_SIZE) = e.sideEffect := by
  rw [SmEntry.drop_text]
  cases hside : e.sideEffect with
  | false => exact ht.sideEffectP_eq_false
  | true => exact List.isPrefixOf_iff_prefix.mpr (List.prefix_append _ _)

/-- The text of a side effect is passed. -/
theorem SmEntry.drop_sideEffect (h : e.sideEffect = true) :
    ((e.text ++ t).drop SM_CODE_SIZE).drop 12 = t := by
  rw [SmEntry.drop_text, if_pos h]
  exact List.drop_left' (by decide)

theorem SmEntry.drop_plain (h : e.sideEffect = false) :
    (e.text ++ t).drop SM_CODE_SIZE = t := by
  rw [SmEntry.drop_text, h]
  rfl

/-- A turn of `_sm_match_score` reads one entry, with the delimiter before it. -/
theorem smMatchScan_entry (fuel : Nat) (ht : Delimited t) {cp : List UInt8}
    (hcp : cp = e.text ++ t ∨ cp = '/'.toUInt8 :: (e.text ++ t)) :
    smMatchScan (fuel + 1) cp = (smMatchScan fuel t).map fun r => (e.codes ++ r.1, r.2) := by
  have hne : cp ≠ [] := by
    rcases hcp with rfl | rfl
    · exact SmEntry.text_ne_nil
    · exact List.cons_ne_nil _ _
  have hskip : (if byteAt cp 0 = '/'.toUInt8 then cp.drop 1 else cp) = e.text ++ t := by
    rcases hcp with rfl | rfl
    · exact if_neg SmEntry.byteAt_text
    · exact if_pos rfl
  rw [smMatchScan, if_neg hne]
  dsimp only
  rw [hskip, if_neg SmEntry.le_length_text, SmEntry.sideEffectP_drop ht]
  unfold SmEntry.codes
  cases hside : e.sideEffect with
  | false => simp [SmEntry.drop_plain hside, SmEntry.take_text]
  | true => simp [SmEntry.drop_sideEffect hside]

/-- A turn of `smp2smg` reads one entry, with the delimiter behind it. -/
theorem smp2smgScan_entry (fuel : Nat) (ht : Delimited t) :
    smp2smgScan false (fuel + 1) (e.text ++ t) = if t = [] then some (e.codes, [])
      else (smp2smgScan false fuel (t.drop 1)).map fun r => (e.codes ++ r.1, r.2) := by
  have hafter : (if e.sideEffect then ((e.text ++ t).drop SM_CODE_SIZE).drop 12
      else (e.text ++ t).drop SM_CODE_SIZE) = t := by
    split_ifs with hside
    · exact SmEntry.drop_sideEffect hside
    · exact SmEntry.drop_plain (Bool.eq_false_of_not_eq_true hside)
  have hcodes : (if e.sideEffect && !false then [] else [e.code]) = e.codes := by
    rw [Bool.not_false, Bool.and_true, SmEntry.codes]
  rw [smp2smgScan, if_neg SmEntry.text_ne_nil, if_neg SmEntry.le_length_text]
  dsimp only
  rw [SmEntry.sideEffectP_drop ht, hafter, SmEntry.take_text, hcodes]
  rcases ht with rfl | hslash
  · rfl
  · by_cases hnil : t = []
    · rw [hnil]
      rfl
    · rw [if_neg hnil, if_neg]
      simp [hnil, hslash]

end Entry

/-! ## The whole value -/

theorem smMatchScan_tail (es : List SmEntry) {fuel : Nat} (hfuel : es.length < fuel) :
    smMatchScan fuel (smTail es) = some (es.flatMap SmEntry.codes, []) := by
  induction es generalizing fuel with
  | nil =>
      obtain ⟨fuel, rfl⟩ := Nat.exists_eq_succ_of_ne_zero hfuel.ne'
      rfl
  | cons e es ih =>
      obtain ⟨fuel, rfl⟩ := Nat.exists_eq_succ_of_ne_zero (Nat.zero_lt_of_lt hfuel).ne'
      rw [smTail, Nat.succ_eq_add_one, smMatchScan_entry fuel (delimited_smTail es) (.inr rfl),
        ih (Nat.lt_of_succ_lt_succ hfuel)]
      rfl

theorem smMatchScan_value (es : List SmEntry) {fuel : Nat} (hfuel : es.length < fuel) :
    smMatchScan fuel (smValue es) = some (es.flatMap SmEntry.codes, []) := by
  cases es with
  | nil => exact smMatchScan_tail [] hfuel
  | cons e es =>
      obtain ⟨fuel, rfl⟩ := Nat.exists_eq_succ_of_ne_zero (Nat.zero_lt_of_lt hfuel).ne'
      rw [smValue_cons, Nat.succ_eq_add_one,
        smMatchScan_entry fuel (delimited_smTail es) (.inl rfl),
        smMatchScan_tail es (Nat.lt_of_succ_lt_succ hfuel)]
      rfl

theorem smp2smgScan_value (es : List SmEntry) {fuel : Nat} (hfuel : es.length < fuel) :
    smp2smgScan false fuel (smValue es) = some (es.flatMap SmEntry.codes, []) := by
  induction es generalizing fuel with
  | nil =>
      obtain ⟨fuel, rfl⟩ := Nat.exists_eq_succ_of_ne_zero hfuel.ne'
      rfl
  | cons e es ih =>
      obtain ⟨fuel, rfl⟩ := Nat.exists_eq_succ_of_ne_zero (Nat.zero_lt_of_lt hfuel).ne'
      rw [smValue_cons, Nat.succ_eq_add_one, smp2smgScan_entry fuel (delimited_smTail es)]
      cases es with
      | nil => simp [smTail]
      | cons e' es =>
          rw [smTail_cons, if_neg (List.cons_ne_nil _ _), List.drop_one, List.tail_cons,
            ih (Nat.lt_of_succ_lt_succ hfuel)]
          rfl

theorem size_le_length_smValue (es : List SmEntry) :
    SM_CODE_SIZE * es.length ≤ (smValue es).length := by
  induction es with
  | nil => exact Nat.zero_le _
  | cons e es ih =>
      have htail : (smValue es).length ≤ (smTail es).length := by
        cases es with
        | nil => exact le_rfl
        | cons e' es =>
            rw [smTail_cons]
            exact Nat.le_succ _
      have hlen := @SmEntry.le_length_text e []
      rw [List.append_nil] at hlen
      rw [smValue_cons, List.length_append, List.length_cons, Nat.mul_succ]
      omega

/-- As many turns as characters are enough. -/
theorem length_lt_length_smValue (e : SmEntry) (es : List SmEntry) :
    (e :: es).length < (smValue (e :: es)).length := by
  have hle := size_le_length_smValue (e :: es)
  rw [show SM_CODE_SIZE = 12 from rfl, List.length_cons] at hle
  rw [List.length_cons]
  omega

theorem length_lt_succ_smValue (es : List SmEntry) : es.length < (smValue es).length + 1 := by
  cases es with
  | nil => exact Nat.succ_pos _
  | cons e es => exact (length_lt_length_smValue e es).trans (Nat.lt_succ_self _)

theorem flatMap_codes (es : List SmEntry) :
    es.flatMap SmEntry.codes = (es.filter (!·.sideEffect)).map SmEntry.code := by
  induction es with
  | nil => rfl
  | cons e es ih =>
      rw [List.flatMap_cons, ih, SmEntry.codes]
      cases hside : e.sideEffect <;> simp [hside]

/-- Both scans read the same codes in the same order, and stop at the end of the value. -/
theorem scans_agree (es : List SmEntry) :
    smMatchScan ((smValue es).length + 1) (smValue es) =
        some ((es.filter (!·.sideEffect)).map SmEntry.code, []) ∧
      smp2smgScan false ((smValue es).length + 1) (smValue es) =
        some ((es.filter (!·.sideEffect)).map SmEntry.code, []) := by
  have hfuel := length_lt_succ_smValue es
  rw [smMatchScan_value es hfuel, smp2smgScan_value es hfuel, flatMap_codes]
  exact ⟨rfl, rfl⟩

theorem delimited_append (es : List SmEntry) : Delimited (smTail es ++ ['/'.toUInt8]) := by
  cases es with
  | nil => exact .inr rfl
  | cons e es => exact .inr rfl

theorem smMatchScan_slash (es : List SmEntry) (fuel : Nat) :
    smMatchScan fuel (smTail es ++ ['/'.toUInt8]) = none := by
  induction es generalizing fuel with
  | nil => cases fuel <;> rfl
  | cons e es ih =>
      cases fuel with
      | zero => rfl
      | succ fuel =>
          rw [smTail, List.cons_append, List.append_assoc,
            smMatchScan_entry fuel (delimited_append es) (.inr rfl), ih, Option.map_none]

theorem smp2smgScan_slash (e : SmEntry) (es : List SmEntry) {fuel : Nat}
    (hfuel : (e :: es).length < fuel) :
    smp2smgScan false fuel (smValue (e :: es) ++ ['/'.toUInt8]) =
      some ((e :: es).flatMap SmEntry.codes, []) := by
  induction es generalizing e fuel with
  | nil =>
      rw [List.length_singleton] at hfuel
      obtain ⟨fuel, rfl⟩ := Nat.exists_eq_add_of_le' hfuel
      rw [smValue_cons, List.append_assoc, smp2smgScan_entry _ (delimited_append [])]
      rfl
  | cons e' es ih =>
      obtain ⟨fuel, rfl⟩ := Nat.exists_eq_succ_of_ne_zero (Nat.zero_lt_of_lt hfuel).ne'
      rw [smValue_cons, List.append_assoc, Nat.succ_eq_add_one,
        smp2smgScan_entry _ (delimited_append (e' :: es)), smTail_cons, List.cons_append,
        if_neg (List.cons_ne_nil _ _), List.drop_one, List.tail_cons,
        ih e' (Nat.lt_of_succ_lt_succ hfuel)]
      rfl

/-- **A delimiter at the end.** `smp2smg` stops behind it, `_sm_match_score` reads on behind
the value. -/
theorem scans_part (e : SmEntry) (es : List SmEntry) {fuel : Nat}
    (hfuel : (e :: es).length < fuel) :
    smMatchScan fuel (smValue (e :: es) ++ ['/'.toUInt8]) = none ∧
      smp2smgScan false fuel (smValue (e :: es) ++ ['/'.toUInt8]) =
        some ((e :: es).flatMap SmEntry.codes, []) := by
  refine ⟨?_, smp2smgScan_slash e es hfuel⟩
  obtain ⟨fuel, rfl⟩ := Nat.exists_eq_succ_of_ne_zero (Nat.zero_lt_of_lt hfuel).ne'
  rw [smValue_cons, List.append_assoc, Nat.succ_eq_add_one,
    smMatchScan_entry fuel (delimited_append es) (.inl rfl), smMatchScan_slash, Option.map_none]

/-! ## What is made of the codes -/

/-- `smp2smg` stores what its scan reads. -/
theorem smp2smgLoop_of_scan (flag : Bool) {fuel : Nat} {cp rest : List UInt8}
    {codes : List (List UInt8)} (h : smp2smgScan flag fuel cp = some (codes, rest)) :
    smp2smgLoop flag fuel cp = some codes.flatten := by
  induction fuel generalizing cp codes with
  | zero => cases h
  | succ fuel ih =>
      rw [smp2smgScan] at h
      rw [smp2smgLoop]
      by_cases hnil : cp = []
      · rw [if_pos hnil] at h ⊢
        cases h
        rfl
      by_cases hlen : cp.length < SM_CODE_SIZE
      · rw [if_neg hnil, if_pos hlen] at h
        cases h
      rw [if_neg hnil, if_neg hlen] at h ⊢
      unfold sideEffectP at h
      extract_lets tail sideEffect after out at h
      extract_lets code piece
      have hpiece : piece = out.flatten := by
        unfold piece out
        split_ifs
        · rfl
        · exact List.flatten_singleton.symm
      split_ifs at h ⊢ with hend
      · obtain ⟨hcodes, -⟩ := Prod.mk.inj (Option.some.inj h)
        rw [← hcodes, hpiece]
      · obtain ⟨⟨codes', rest'⟩, hscan, heq⟩ := Option.map_eq_some_iff.mp h
        obtain ⟨rfl, rfl⟩ := Prod.mk.inj heq
        rw [ih hscan, Option.map_some, hpiece, List.flatten_append]

theorem smp2smgLoop_value (es : List SmEntry) :
    smp2smgLoop false (smValue es).length (smValue es) =
      some (es.flatMap SmEntry.codes).flatten := by
  cases es with
  | nil => rfl
  | cons e es =>
      exact smp2smgLoop_of_scan false (smp2smgScan_value _ (length_lt_length_smValue e es))

theorem smMatchScoreBy_noExpandNe (env : SmEnv) (cpp cpd : List UInt8) :
    smMatchScoreBy env .noExpandNe cpp cpd = some (smMatchScore cpp cpd) := by
  unfold smMatchScoreBy smMatchScore
  split_ifs <;> simp_all

/-- The score over a list of codes. -/
def bestCompSm (cpp : List UInt8) (codes : List (List UInt8)) : Nat :=
  codes.foldl (fun score cp => max score (compSm cpp cp)) 0

theorem codesOf_flatten {codes : List (List UInt8)} (h : ∀ c ∈ codes, c.length = SM_CODE_SIZE) :
    codesOf codes.length codes.flatten = codes := by
  induction codes with
  | nil => rfl
  | cons c codes ih =>
      have hc := h c List.mem_cons_self
      rw [List.length_cons, List.flatten_cons, codesOf, List.take_left' hc, List.drop_left' hc,
        ih fun c' hc' => h c' (List.mem_cons_of_mem c hc')]

/-- **The two functions.** For a pattern that is a general noun, the score of a proper noun is
the best score of the codes that `smp2smg` gives for it. -/
theorem smMatchScoreBy_expandNe {env : SmEnv} {cpp cpd : List UInt8}
    (hdb : ∀ v, env.smp2smgDb (cpd.take SM_CODE_SIZE) = some v → ∃ es, v = smValue es)
    (hcpd : byteAt cpd 0 = '2'.toUInt8) (hx : byteAt cpp 0 ≠ 'x'.toUInt8)
    (hcpp : byteAt cpp 0 ≠ '2'.toUInt8) :
    smMatchScoreBy env .expandNe cpp cpd = (smp2smg env (cpd.take SM_CODE_SIZE)).map fun p =>
      p.elim 0 fun p => bestCompSm cpp (codesOf (p.length / SM_CODE_SIZE) p) := by
  have hcpdx : byteAt cpd 0 ≠ 'x'.toUInt8 := by
    rw [hcpd]
    decide
  unfold smMatchScoreBy smp2smg
  rw [if_neg (by decide), if_neg hx, if_neg hcpdx, if_pos hcpd, if_pos ⟨rfl, hcpp⟩]
  split_ifs
  · rfl
  cases hval : env.smp2smgDb (cpd.take SM_CODE_SIZE) with
  | none => rfl
  | some v =>
      obtain ⟨es, rfl⟩ := hdb v hval
      dsimp only
      rw [smMatchScan_value es (length_lt_succ_smValue es), smp2smgLoop_value]
      generalize hcodes : es.flatMap SmEntry.codes = codes
      have hsize : ∀ c ∈ codes, c.length = SM_CODE_SIZE := by
        intro c hc
        rw [← hcodes, flatMap_codes] at hc
        obtain ⟨e, -, rfl⟩ := List.mem_map.mp hc
        exact e.size
      cases codes with
      | nil => rfl
      | cons c codes =>
          have hne : (c :: codes).flatten ≠ [] := by
            intro hnil
            have hc := hsize c List.mem_cons_self
            rw [List.flatten_eq_nil_iff.mp hnil c List.mem_cons_self] at hc
            cases hc
          simp only [Option.map_some, if_neg hne, Option.elim_some]
          rw [length_flatten_codes hsize, Nat.mul_div_cancel_left _ (by decide),
            codesOf_flatten hsize]
          rfl

/-- A name with one code, compared with a pattern of three digits. -/
theorem smMatchScoreBy_expandNe_person :
    smMatchScoreBy ⟨.ntt, true, fun _ => some (ascii "112000000000"), false, fun _ => none⟩
      .expandNe (ascii "112*********") (ascii "200000000000") = some 3 :=
  have hdb : ∀ v, some (ascii "112000000000") = some v → ∃ es, v = smValue es := fun v hv =>
    ⟨[⟨ascii "112000000000", false, rfl, by decide⟩], (Option.some.inj hv).symm⟩
  smMatchScoreBy_expandNe hdb rfl (by decide) (by decide)

end Knp
