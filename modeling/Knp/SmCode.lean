import Mathlib.Tactic.Ring
import Knp.Loop

/-!
# The semantic markers of a bunsetsu (`lib_sm.c`)

`SM_code` is a string of codes of twelve characters, `SM_num` their number. The
string is filled by a dictionary lookup and then edited in place.

> An operation keeps the number, unless it deletes a code for a person's name,
> breaks off a merge that has begun, or assigns what is not one code.

`delete_matched_sm` is only given the string. Strings are lists of bytes; a
read behind their end gives 0. `none` stands for reading or writing outside a
string.
-/

namespace Knp

def SM_CODE_SIZE : Nat := 12

def SM_ELEMENT_MAX : Nat := 256

/-- The bytes of an ASCII string. -/
def ascii (s : String) : List UInt8 := s.toList.map Char.toUInt8

def byteAt (s : List UInt8) (i : Nat) : UInt8 := s.getD i 0

/-- `USE_NTT`, `USE_BGH` or another thesaurus. -/
inductive ThesaurusUsed
  | ntt
  | bgh
  | other
deriving DecidableEq

/-- The databases of the analysis. -/
structure SmEnv where
  thesaurus : ThesaurusUsed
  smp2smgExist : Bool
  smp2smgDb : List UInt8 → Option (List UInt8)
  sm2codeExist : Bool
  sm2codeDb : List UInt8 → Option (List UInt8)

/-- `SM_code` and `SM_num` of a bunsetsu. -/
structure SmBnst where
  code : List UInt8
  num : Nat
deriving DecidableEq

/-- `strcat` to `SM_code`. -/
def SmBnst.append (code p : List UInt8) : Option (List UInt8) :=
  if code.length + p.length ≤ SM_ELEMENT_MAX * SM_CODE_SIZE then some (code ++ p) else none

/-! ## Matching codes -/

/-- The loop of `comp_sm` over the last `n` characters. -/
def compSmLoop (cpp cpd : List UInt8) : Nat → Nat
  | 0 => SM_CODE_SIZE
  | n + 1 =>
      let i := SM_CODE_SIZE - (n + 1)
      if byteAt cpp i = '*'.toUInt8 then i
      else if byteAt cpd i = '*'.toUInt8 then 0
      else if byteAt cpp i ≠ byteAt cpd i then 0
      else compSmLoop cpp cpd n

/-- `comp_sm`, from the second character. -/
def compSm (cpp cpd : List UInt8) : Nat := compSmLoop cpp cpd (SM_CODE_SIZE - 1)

/-- `_sm_match_score` with `SM_NO_EXPAND_NE`. -/
def smMatchScore (cpp cpd : List UInt8) : Nat :=
  if byteAt cpp 0 = 'x'.toUInt8 then if byteAt cpd 0 = 'x'.toUInt8 then SM_CODE_SIZE else 0
  else if byteAt cpd 0 = 'x'.toUInt8 then 0
  else if byteAt cpd 0 = '2'.toUInt8 then
    if byteAt cpp 0 = '2'.toUInt8 then compSm cpp cpd else 0
  else if byteAt cpp 0 ≠ '2'.toUInt8 then compSm cpp cpd
  else 0

/-- The codes of a string, the last one as far as the string goes. -/
def codesOf : Nat → List UInt8 → List (List UInt8)
  | 0, _ => []
  | n + 1, s => s.take SM_CODE_SIZE :: codesOf n (s.drop SM_CODE_SIZE)

/-- The codes at which a loop `for (i = 0; s[i]; i += SM_CODE_SIZE)` stops. -/
def allCodes (s : List UInt8) : List (List UInt8) :=
  codesOf ((s.length + (SM_CODE_SIZE - 1)) / SM_CODE_SIZE) s

/-- `sm_match_check` with `SM_NO_EXPAND_NE` -/
def smMatchCheck (pat codes : List UInt8) : Bool :=
  (allCodes codes).any fun code => 0 < smMatchScore pat code

/-! ## `smp2smg` -/

/-- The loop over a dictionary value: `code/code side-effect/...`. -/
def smp2smgLoop (flag : Bool) : Nat → List UInt8 → Option (List UInt8)
  | 0, _ => some []
  | fuel + 1, cp =>
      if cp = [] then some []
      else if cp.length < SM_CODE_SIZE then none
      else
        let code := cp.take SM_CODE_SIZE
        let rest := cp.drop SM_CODE_SIZE
        let sideEffect := (ascii " side-effect").isPrefixOf rest
        let after := if sideEffect then rest.drop 12 else rest
        let out := if sideEffect && !flag then [] else code
        -- 今回で終わり
        if after = [] || (sideEffect && byteAt after 0 ≠ '/'.toUInt8) then some out
        else (smp2smgLoop flag fuel (after.drop 1)).map (out ++ ·)

/-- `smp2smg` without side effects: `some none` where it returns `NULL`. -/
def smp2smg (env : SmEnv) (cpd : List UInt8) : Option (Option (List UInt8)) :=
  if !env.smp2smgExist then some none
  else match env.smp2smgDb cpd with
    | none => some none
    | some start =>
        (smp2smgLoop false start.length start).map fun out => if out = [] then none else some out

/-! ## The operations -/

/-- `get_bnst_code`, with the codes that `get_str_code` finds for the longest
key that has some. -/
def getBnstCode (found : List (List UInt8)) (b : SmBnst) : Option SmBnst :=
  if found.flatten.length ≤ SM_ELEMENT_MAX * SM_CODE_SIZE then
    some ⟨found.flatten,
      if found.flatten = [] then b.num else found.flatten.length / SM_CODE_SIZE⟩
  else none

/-- The loop of `merge_smp2smg`, from code `i`: the string, and whether the
loop ran to its end. -/
def mergeLoop (env : SmEnv) : Nat → Nat → List UInt8 → Option (List UInt8 × Bool)
  | 0, _, code => some (code, true)
  | n + 1, i, code =>
      if byteAt code (i * SM_CODE_SIZE) = '2'.toUInt8 then
        match smp2smg env ((code.drop (i * SM_CODE_SIZE)).take SM_CODE_SIZE) with
        | none => none
        | some none => mergeLoop env n (i + 1) code
        | some (some p) =>
            -- 溢れた場合
            if SM_ELEMENT_MAX < (code.length + p.length) / SM_CODE_SIZE then some (code, false)
            else (SmBnst.append code p).bind (mergeLoop env n (i + 1))
      else mergeLoop env n (i + 1) code

/-- `merge_smp2smg` -/
def mergeSmp2smg (env : SmEnv) (b : SmBnst) : Option SmBnst :=
  if b.code = [] then some b
  else (mergeLoop env b.num 0 b.code).map fun (code, done) =>
    if done then ⟨code, code.length / SM_CODE_SIZE⟩ else { b with code := code }

/-- An in-place deletion of codes. -/
def keepCodes (keep : List UInt8 → Bool) : Nat → List UInt8 → Option (List UInt8)
  | 0, _ => some []
  | n + 1, s =>
      if s = [] then some []
      else if s.length < SM_CODE_SIZE then none
      else (keepCodes keep n (s.drop SM_CODE_SIZE)).map fun rest =>
        (if keep (s.take SM_CODE_SIZE) then s.take SM_CODE_SIZE else []) ++ rest

/-- What `delete_matched_sm` deletes: no code of a proper noun. -/
def matchedSm (del code : List UInt8) : Bool :=
  byteAt code 0 ≠ '2'.toUInt8 && (allCodes del).any fun d => 0 < smMatchScore code d

/-- `delete_matched_sm` -/
def deleteMatchedSm (sm del : List UInt8) : Option (List UInt8) :=
  keepCodes (fun code => !matchedSm del code) sm.length sm

/-- `<主体>` -/
def subjectSm : List UInt8 := ascii "100*********"

/-- `fix_sm_person`, for a bunsetsu with or without `人名`. -/
def fixSmPerson (env : SmEnv) (person : Bool) (b : SmBnst) : Option SmBnst :=
  if env.thesaurus = .ntt && person then
    (deleteMatchedSm b.code subjectSm).map fun code => { b with code := code }
  else some b

/-- The names that `sm2code` knows without a dictionary, with their codes. -/
def neCodes : List (List UInt8 × List UInt8) :=
  [(ascii "ORGANIZATION", ascii "ne1"), (ascii "PERSON", ascii "ne2"),
    (ascii "LOCATION", ascii "ne3"), (ascii "ARTIFACT", ascii "ne4"), (ascii "DATE", ascii "ne5"),
    (ascii "TIME", ascii "ne6"), (ascii "MONEY", ascii "ne7"), (ascii "PERCENT", ascii "ne8")]

/-- `sm2code`; `cont` is what `cont_str` has held before. -/
def sm2code (env : SmEnv) (cont cp : List UInt8) : List UInt8 :=
  if !env.sm2codeExist then []
  else match env.sm2codeDb cp with
    | some code => code
    | none =>
        let stars := match env.thesaurus with
          | .ntt => 9
          | _ => 8
        if env.thesaurus = .other then []
        else match neCodes.find? fun ne => ne.1.isPrefixOf cp with
          | some ne => ne.2 ++ List.replicate stars '*'.toUInt8
          | none => cont

/-- `assign_sm`, on the markers of `USE_NTT`. -/
def assignSm (env : SmEnv) (cont cp : List UInt8) (b : SmBnst) : Option SmBnst :=
  let target := sm2code env cont cp
  if env.thesaurus = .ntt then
    if smMatchCheck target b.code then some b
    else (SmBnst.append b.code target).map fun code => ⟨code, b.num + 1⟩
  else some b

/-- What `sm_fix` keeps. -/
def fixedSm (targets code : List UInt8) : Bool :=
  (allCodes targets).any fun t => 0 < smMatchScore t code

/-- `sm_fix` -/
def smFix (targets : List UInt8) (b : SmBnst) : Option SmBnst :=
  if b.code = [] then some b
  else (keepCodes (fixedSm targets) b.code.length b.code).map fun code =>
    if code = [] then b else ⟨code, code.length / SM_CODE_SIZE⟩

inductive SmOp
  | getBnstCode (found : List (List UInt8))
  | mergeSmp2smg
  | fixSmPerson (person : Bool)
  | assignSm (cont cp : List UInt8)
  | smFix (targets : List UInt8)

def SmOp.run (env : SmEnv) (b : SmBnst) : SmOp → Option SmBnst
  | .getBnstCode found => Knp.getBnstCode found b
  | .mergeSmp2smg => Knp.mergeSmp2smg env b
  | .fixSmPerson person => Knp.fixSmPerson env person b
  | .assignSm cont cp => Knp.assignSm env cont cp b
  | .smFix targets => Knp.smFix targets b

/-- A bunsetsu after `init_bnst` and the operations, the latest first. -/
def runOps (env : SmEnv) : List SmOp → Option SmBnst
  | [] => some ⟨[], 0⟩
  | op :: past => (runOps env past).bind fun b => op.run env b

/-! ## The number of the codes -/

/-- The string is `SM_num` whole codes. -/
def Counted (b : SmBnst) : Prop := b.code.length = SM_CODE_SIZE * b.num

/-- No expansion of the codes, to be appended to a string of length `len`, is
too long once another one has been appended. -/
def MergesWhole (env : SmEnv) : List (List UInt8) → Nat → Bool → Prop
  | [], _, _ => True
  | code :: codes, len, begun =>
      if byteAt code 0 = '2'.toUInt8 then
        match smp2smg env code with
        | none => False
        | some none => MergesWhole env codes len begun
        | some (some p) =>
            if SM_ELEMENT_MAX < (len + p.length) / SM_CODE_SIZE then begun = false
            else MergesWhole env codes (len + p.length) true
      else MergesWhole env codes len begun

/-- The operation finds what it changes the number for. -/
def Keeps (env : SmEnv) (b : SmBnst) : SmOp → Prop
  | .getBnstCode found => found.flatten.length ≤ SM_ELEMENT_MAX * SM_CODE_SIZE ∧
      SM_CODE_SIZE ∣ found.flatten.length ∧ (found.flatten = [] → b.num = 0)
  | .mergeSmp2smg => MergesWhole env (codesOf b.num b.code) b.code.length false
  | .fixSmPerson person => env.thesaurus = .ntt → person = true →
      ∀ code ∈ codesOf b.num b.code, matchedSm subjectSm code = false
  | .assignSm cont cp => env.thesaurus = .ntt →
      smMatchCheck (sm2code env cont cp) b.code = false →
      (sm2code env cont cp).length = SM_CODE_SIZE ∧
        b.code.length + SM_CODE_SIZE ≤ SM_ELEMENT_MAX * SM_CODE_SIZE
  | .smFix _ => True

section Codes

variable {env : SmEnv} {s : List UInt8} {n : Nat}

theorem length_of_mem_codesOf : ∀ {n : Nat} {s : List UInt8}, s.length = SM_CODE_SIZE * n →
    ∀ code ∈ codesOf n s, code.length = SM_CODE_SIZE
  | n + 1, s, hs, code, hcode => by
      have hlen : s.length = SM_CODE_SIZE * n + SM_CODE_SIZE := hs
      rcases List.mem_cons.mp hcode with rfl | hcode
      · rw [List.length_take]
        omega
      · exact length_of_mem_codesOf (by rw [List.length_drop]; omega) code hcode

/-- The number of whole codes in a list of codes. -/
theorem length_flatten_codes : ∀ {codes : List (List UInt8)},
    (∀ code ∈ codes, code.length = SM_CODE_SIZE) →
      codes.flatten.length = SM_CODE_SIZE * codes.length
  | [], _ => rfl
  | code :: codes, h => by
      rw [List.flatten_cons, List.length_append, h code List.mem_cons_self,
        length_flatten_codes fun c hc => h c (List.mem_cons_of_mem code hc), List.length_cons]
      ring

theorem codesOf_length : ∀ (n : Nat) (s : List UInt8), (codesOf n s).length = n
  | 0, _ => rfl
  | n + 1, s => congrArg Nat.succ (codesOf_length n (s.drop SM_CODE_SIZE))

/-- An in-place deletion leaves the codes that are kept. -/
theorem keepCodes_eq (keep : List UInt8 → Bool) : ∀ (n fuel : Nat) (s : List UInt8),
    s.length = SM_CODE_SIZE * n → n ≤ fuel →
      keepCodes keep fuel s = some ((codesOf n s).filter keep).flatten
  | 0, 0, s, _, _ => rfl
  | 0, fuel + 1, s, hs, _ => by
      rw [keepCodes, if_pos (List.eq_nil_of_length_eq_zero hs)]
      rfl
  | n + 1, 0, _, _, hle => absurd hle (Nat.not_succ_le_zero n)
  | n + 1, fuel + 1, s, hs, hle => by
      have hlen : s.length = SM_CODE_SIZE * n + SM_CODE_SIZE := hs
      have hpos : 0 < SM_CODE_SIZE := by decide
      have hrest : (s.drop SM_CODE_SIZE).length = SM_CODE_SIZE * n := by
        rw [List.length_drop]
        omega
      rw [keepCodes, if_neg fun hnil => by rw [hnil, List.length_nil] at hlen; omega,
        if_neg (by omega), keepCodes_eq keep n fuel _ hrest (Nat.le_of_succ_le_succ hle),
        Option.map_some, codesOf, List.filter_cons]
      split_ifs <;> rfl

theorem length_keepCodes (keep : List UInt8 → Bool) (hs : s.length = SM_CODE_SIZE * n) :
    ((codesOf n s).filter keep).flatten.length =
      SM_CODE_SIZE * ((codesOf n s).filter keep).length :=
  length_flatten_codes fun code hcode =>
    length_of_mem_codesOf hs code (List.mem_of_mem_filter hcode)

theorem le_length_of_codes (hs : s.length = SM_CODE_SIZE * n) : n ≤ s.length := by
  rw [hs]
  exact Nat.le_mul_of_pos_left n (by decide)

/-- A dictionary value gives whole codes. -/
theorem smp2smgLoop_dvd (flag : Bool) : ∀ (fuel : Nat) (cp : List UInt8) {out : List UInt8},
    smp2smgLoop flag fuel cp = some out → SM_CODE_SIZE ∣ out.length
  | 0, _, out, h => by
      obtain rfl := Option.some.inj h
      exact Nat.dvd_zero _
  | fuel + 1, cp, out, h => by
      unfold smp2smgLoop at h
      by_cases hnil : cp = []
      · rw [if_pos hnil] at h
        obtain rfl := Option.some.inj h
        exact Nat.dvd_zero _
      by_cases hlen : cp.length < SM_CODE_SIZE
      · rw [if_neg hnil, if_pos hlen] at h
        cases h
      rw [if_neg hnil, if_neg hlen] at h
      extract_lets code rest sideEffect after piece at h
      have hpiece : SM_CODE_SIZE ∣ piece.length := by
        unfold piece code
        split_ifs
        · exact Nat.dvd_zero _
        · rw [List.length_take, Nat.min_eq_left (not_lt.mp hlen)]
      split_ifs at h with hend
      · obtain rfl := Option.some.inj h
        exact hpiece
      · obtain ⟨tail, htail, rfl⟩ := Option.map_eq_some_iff.mp h
        rw [List.length_append]
        exact Nat.dvd_add hpiece (smp2smgLoop_dvd flag fuel _ htail)

theorem smp2smg_codes {cpd p : List UInt8} (h : smp2smg env cpd = some (some p)) :
    SM_CODE_SIZE ∣ p.length ∧ p ≠ [] := by
  unfold smp2smg at h
  split_ifs at h with hexist
  · cases h
  cases hdb : env.smp2smgDb cpd with
  | none =>
      rw [hdb] at h
      cases h
  | some start =>
      rw [hdb] at h
      obtain ⟨out, hout, heq⟩ := Option.map_eq_some_iff.mp h
      split_ifs at heq with hnil
      · obtain rfl := Option.some.inj heq
        exact ⟨smp2smgLoop_dvd false _ _ hout, hnil⟩

theorem counted_iff_dvd {code : List UInt8} :
    Counted ⟨code, code.length / SM_CODE_SIZE⟩ ↔ SM_CODE_SIZE ∣ code.length := by
  unfold Counted
  constructor
  · intro h
    exact ⟨_, h⟩
  · intro h
    exact (Nat.mul_div_cancel' h).symm

/-- Reading the code behind `pre`. -/
theorem byteAt_append_self {pre rest : List UInt8} (hrest : rest ≠ []) (ext : List UInt8) :
    byteAt (pre ++ rest ++ ext) pre.length = byteAt (rest.take SM_CODE_SIZE) 0 := by
  obtain ⟨c, tail, rfl⟩ := List.exists_cons_of_ne_nil hrest
  unfold byteAt
  rw [List.append_assoc, List.getD_eq_getElem?_getD, List.getElem?_append_right (le_refl _),
    Nat.sub_self]
  rfl

/-- The codes in front, the codes to come and those appended are whole codes. -/
theorem dvd_length_append {pre rest ext : List UInt8} {i n : Nat}
    (hpre : pre.length = i * SM_CODE_SIZE) (hrest : rest.length = SM_CODE_SIZE * n)
    (hext : SM_CODE_SIZE ∣ ext.length) : SM_CODE_SIZE ∣ (pre ++ rest ++ ext).length := by
  rw [List.length_append, List.length_append, hpre, hrest]
  exact Nat.dvd_add (Nat.dvd_add (Nat.dvd_mul_left _ _) (Nat.dvd_mul_right _ _)) hext

/-- The number at the beginning is right as long as nothing is appended. -/
theorem counted_start_iff {pre rest ext : List UInt8} {i n num : Nat}
    (hpre : pre.length = i * SM_CODE_SIZE) (hrest : rest.length = SM_CODE_SIZE * n)
    (hnum : i + n = num) : Counted ⟨pre ++ rest ++ ext, num⟩ ↔ ext = [] := by
  have hlen : (pre ++ rest ++ ext).length = SM_CODE_SIZE * num + ext.length := by
    rw [List.length_append, List.length_append, hpre, hrest, ← hnum]
    ring
  rw [Counted, hlen, Nat.add_eq_left, List.length_eq_zero_iff]

/-- The result of the merge is counted exactly if it is not broken off after
something has been appended. -/
theorem mergeLoop_iff (env : SmEnv) (num : Nat) :
    ∀ (n i : Nat) (pre rest ext : List UInt8) (begun : Bool),
      pre.length = i * SM_CODE_SIZE → rest.length = SM_CODE_SIZE * n →
      SM_CODE_SIZE ∣ ext.length → i + n = num → (begun = false ↔ ext = []) →
      ((∃ code done, mergeLoop env n i (pre ++ rest ++ ext) = some (code, done) ∧
          Counted ⟨code, if done then code.length / SM_CODE_SIZE else num⟩) ↔
        MergesWhole env (codesOf n rest) (pre ++ rest ++ ext).length begun)
  | 0, i, pre, rest, ext, begun, hpre, hrest, hext, _, _ => by
      constructor
      · intro _
        trivial
      · intro _
        exact ⟨_, true, rfl, counted_iff_dvd.mpr (dvd_length_append hpre hrest hext)⟩
  | n + 1, i, pre, rest, ext, begun, hpre, hrest, hext, hnum, hbegun => by
      have hlen : rest.length = SM_CODE_SIZE * n + SM_CODE_SIZE := hrest
      have hsize : 0 < SM_CODE_SIZE := by decide
      have hne : rest ≠ [] := by
        rintro rfl
        rw [List.length_nil] at hlen
        omega
      have htake : (rest.take SM_CODE_SIZE).length = SM_CODE_SIZE := by
        rw [List.length_take]
        omega
      have hsplit : pre ++ rest ++ ext =
          (pre ++ rest.take SM_CODE_SIZE) ++ rest.drop SM_CODE_SIZE ++ ext := by
        rw [List.append_assoc pre (rest.take SM_CODE_SIZE), List.take_append_drop]
      have hpre' : (pre ++ rest.take SM_CODE_SIZE).length = (i + 1) * SM_CODE_SIZE := by
        rw [List.length_append, htake, hpre]
        ring
      have hrest' : (rest.drop SM_CODE_SIZE).length = SM_CODE_SIZE * n := by
        rw [List.length_drop]
        omega
      have hbyte : byteAt (pre ++ rest ++ ext) pre.length =
          byteAt (rest.take SM_CODE_SIZE) 0 := byteAt_append_self hne ext
      have hcode : ((pre ++ rest ++ ext).drop pre.length).take SM_CODE_SIZE =
          rest.take SM_CODE_SIZE := by
        rw [List.append_assoc, List.drop_left, List.take_append_of_le_length (by omega)]
      -- the rest of the loop, with what has been appended so far
      have hstep := fun ext' begun' hext' hbegun' =>
        mergeLoop_iff env num n (i + 1) (pre ++ rest.take SM_CODE_SIZE)
          (rest.drop SM_CODE_SIZE) ext' begun' hpre' hrest' hext' (by omega) hbegun'
      have hsame := hstep ext begun hext hbegun
      rw [← hsplit] at hsame
      rw [codesOf]
      unfold mergeLoop MergesWhole
      rw [← hpre, hbyte, hcode]
      by_cases hnoun : byteAt (rest.take SM_CODE_SIZE) 0 = '2'.toUInt8
      case neg =>
        rw [if_neg hnoun, if_neg hnoun]
        exact hsame
      rw [if_pos hnoun, if_pos hnoun]
      cases hsmp : smp2smg env (rest.take SM_CODE_SIZE) with
      | none =>
          constructor
          · rintro ⟨_, _, h, _⟩
            cases h
          · exact False.elim
      | some found =>
          cases found with
          | none => exact hsame
          | some p =>
              obtain ⟨hp, hpne⟩ := smp2smg_codes hsmp
              have hdvd : SM_CODE_SIZE ∣ (pre ++ rest ++ ext).length + p.length :=
                Nat.dvd_add (dvd_length_append hpre hrest hext) hp
              have hcount : Counted ⟨pre ++ rest ++ ext, num⟩ ↔ ext = [] :=
                counted_start_iff hpre hrest hnum
              dsimp only
              split_ifs with hfull
              · constructor
                · rintro ⟨code, done, h, hcounted⟩
                  obtain ⟨rfl, rfl⟩ := Prod.mk.inj (Option.some.inj h)
                  exact hbegun.mpr (hcount.mp hcounted)
                · intro hfalse
                  exact ⟨_, false, rfl, hcount.mpr (hbegun.mp hfalse)⟩
              · have hfits : (pre ++ rest ++ ext).length + p.length ≤
                    SM_ELEMENT_MAX * SM_CODE_SIZE := by
                  obtain ⟨k, hk⟩ := hdvd
                  rw [hk, Nat.mul_div_cancel_left k hsize] at hfull
                  rw [hk, Nat.mul_comm]
                  exact Nat.mul_le_mul_right _ (not_lt.mp hfull)
                have hmore := hstep (ext ++ p) true
                  (by rw [List.length_append]; exact Nat.dvd_add hext hp)
                  (by simp [hpne])
                rw [← List.append_assoc, ← hsplit, List.length_append] at hmore
                unfold SmBnst.append
                rw [if_pos hfits]
                exact hmore

theorem mergeSmp2smg_iff (b : SmBnst) (hb : Counted b) :
    (∃ b', mergeSmp2smg env b = some b' ∧ Counted b') ↔
      MergesWhole env (codesOf b.num b.code) b.code.length false := by
  unfold mergeSmp2smg
  split_ifs with hnil
  · have hnum : b.num = 0 := by
      have h : b.code.length = SM_CODE_SIZE * b.num := hb
      rw [hnil, List.length_nil] at h
      exact (Nat.mul_eq_zero.mp h.symm).resolve_left (by decide)
    rw [hnum]
    constructor
    · intro _
      trivial
    · intro _
      exact ⟨b, rfl, hb⟩
  · have hloop := mergeLoop_iff env b.num b.num 0 [] b.code [] false (by simp) hb
      (Nat.dvd_zero _) (Nat.zero_add _) (by simp)
    rw [List.nil_append, List.append_nil] at hloop
    rw [← hloop]
    constructor
    · rintro ⟨b', h, hcount⟩
      obtain ⟨⟨code, done⟩, hr, rfl⟩ := Option.map_eq_some_iff.mp h
      refine ⟨code, done, hr, ?_⟩
      cases done <;> exact hcount
    · rintro ⟨code, done, hr, hcount⟩
      rw [hr]
      refine ⟨_, rfl, ?_⟩
      cases done <;> exact hcount

theorem getBnstCode_iff (found : List (List UInt8)) (b : SmBnst) :
    (∃ b', getBnstCode found b = some b' ∧ Counted b') ↔ Keeps env b (.getBnstCode found) := by
  unfold getBnstCode Keeps
  dsimp only
  generalize found.flatten = code
  split_ifs with hfits hnil
  · have hcount : Counted ⟨code, b.num⟩ ↔ b.num = 0 := by
      unfold Counted
      rw [hnil, List.length_nil, eq_comm, Nat.mul_eq_zero]
      exact or_iff_right (by decide)
    simp [hnil, ← hcount]
  · simp [hnil, hfits, counted_iff_dvd]
  · simp [hfits]

theorem deleteMatchedSm_counted (b : SmBnst) (hb : Counted b) (del : List UInt8) :
    (∃ code, deleteMatchedSm b.code del = some code ∧ Counted ⟨code, b.num⟩) ↔
      ∀ code ∈ codesOf b.num b.code, matchedSm del code = false := by
  have hrun := keepCodes_eq (fun code => !matchedSm del code) b.num b.code.length b.code hb
    (le_length_of_codes hb)
  have hlen := length_keepCodes (fun code => !matchedSm del code) hb
  have hall : Counted ⟨((codesOf b.num b.code).filter fun code => !matchedSm del code).flatten,
      b.num⟩ ↔ ∀ code ∈ codesOf b.num b.code, matchedSm del code = false := by
    unfold Counted
    rw [hlen, Nat.mul_right_inj (by decide)]
    conv_lhs => rhs; rw [← codesOf_length b.num b.code]
    rw [List.length_filter_eq_length_iff]
    simp
  rw [← hall]
  constructor
  · rintro ⟨code, hcode, hcount⟩
    obtain rfl := Option.some.inj (hrun.symm.trans hcode)
    exact hcount
  · intro hcount
    exact ⟨_, hrun, hcount⟩

theorem fixSmPerson_iff (person : Bool) (b : SmBnst) (hb : Counted b) :
    (∃ b', fixSmPerson env person b = some b' ∧ Counted b') ↔
      Keeps env b (.fixSmPerson person) := by
  unfold fixSmPerson Keeps
  cases hcond : decide (env.thesaurus = .ntt) && person with
  | false =>
      have hskip : env.thesaurus = .ntt → person ≠ true := by
        intro hntt hperson
        simp [hntt, hperson] at hcond
      constructor
      · intro _ hntt hperson
        exact absurd hperson (hskip hntt)
      · intro _
        exact ⟨b, rfl, hb⟩
  | true =>
      obtain ⟨hntt, hperson⟩ := Bool.and_eq_true_iff.mp hcond
      have hdelete := deleteMatchedSm_counted b hb subjectSm
      rw [if_pos rfl]
      constructor
      · rintro ⟨b', h, hcount⟩ _ _
        obtain ⟨code, hcode, rfl⟩ := Option.map_eq_some_iff.mp h
        exact hdelete.mp ⟨code, hcode, hcount⟩
      · intro h
        obtain ⟨code, hcode, hcount⟩ := hdelete.mpr (h (of_decide_eq_true hntt) hperson)
        exact ⟨⟨code, b.num⟩, by rw [hcode]; rfl, hcount⟩

theorem assignSm_iff (cont cp : List UInt8) (b : SmBnst) (hb : Counted b) :
    (∃ b', assignSm env cont cp b = some b' ∧ Counted b') ↔ Keeps env b (.assignSm cont cp) := by
  unfold assignSm Keeps
  dsimp only
  by_cases hntt : env.thesaurus = .ntt
  case neg =>
    rw [if_neg hntt]
    exact iff_of_true ⟨b, rfl, hb⟩ fun h => absurd h hntt
  rw [if_pos hntt]
  cases hmatch : smMatchCheck (sm2code env cont cp) b.code with
  | true => exact iff_of_true ⟨b, rfl, hb⟩ fun _ h => nomatch h
  | false =>
      rw [if_neg Bool.false_ne_true]
      have hcode : b.code.length = SM_CODE_SIZE * b.num := hb
      have hcount : Counted ⟨b.code ++ sm2code env cont cp, b.num + 1⟩ ↔
          (sm2code env cont cp).length = SM_CODE_SIZE := by
        unfold Counted
        rw [List.length_append, hcode, Nat.mul_succ]
        exact Nat.add_left_cancel_iff
      unfold SmBnst.append
      split_ifs with hfits
      · constructor
        · rintro ⟨b', h, hb'⟩ _ _
          obtain rfl := Option.some.inj h
          have hone := hcount.mp hb'
          exact ⟨hone, hone ▸ hfits⟩
        · intro h
          exact ⟨_, rfl, hcount.mpr (h hntt rfl).1⟩
      · constructor
        · rintro ⟨b', h, _⟩
          cases h
        · intro h
          obtain ⟨hone, hroom⟩ := h hntt rfl
          exact absurd (hone ▸ hroom) hfits

theorem smFix_counted (targets : List UInt8) (b : SmBnst) (hb : Counted b) :
    ∃ b', smFix targets b = some b' ∧ Counted b' := by
  have hrun := keepCodes_eq (fixedSm targets) b.num b.code.length b.code hb (le_length_of_codes hb)
  have hlen := length_keepCodes (fixedSm targets) hb
  unfold smFix
  split_ifs with hnil
  · exact ⟨b, rfl, hb⟩
  · rw [hrun, Option.map_some]
    refine ⟨_, rfl, ?_⟩
    split_ifs with hnone
    · exact hb
    · exact counted_iff_dvd.mpr ⟨_, hlen⟩

/-- One operation. -/
theorem run_iff (b : SmBnst) (hb : Counted b) (op : SmOp) :
    (∃ b', op.run env b = some b' ∧ Counted b') ↔ Keeps env b op := by
  cases op with
  | getBnstCode found => exact getBnstCode_iff found b
  | mergeSmp2smg => exact mergeSmp2smg_iff b hb
  | fixSmPerson person => exact fixSmPerson_iff person b hb
  | assignSm cont cp => exact assignSm_iff cont cp b hb
  | smFix targets => exact iff_of_true (smFix_counted targets b hb) trivial

end Codes

/-! ## Runs -/

/-- The number is right after every operation. -/
def CountedRun (env : SmEnv) (ops : List SmOp) : Prop :=
  ∀ pre op past, ops = pre ++ op :: past → ∃ b, runOps env (op :: past) = some b ∧ Counted b

/-- Every operation keeps the number. -/
def KeepsRun (env : SmEnv) (ops : List SmOp) : Prop :=
  ∀ pre op past, ops = pre ++ op :: past → ∀ b, runOps env past = some b → Keeps env b op

theorem CountedRun.counted {env : SmEnv} {ops : List SmOp} (h : CountedRun env ops) :
    ∃ b, runOps env ops = some b ∧ Counted b := by
  cases ops with
  | nil => exact ⟨_, rfl, rfl⟩
  | cons op past => exact h [] op past rfl

/-- Everything that can break the number. -/
theorem countedRun_iff (env : SmEnv) (ops : List SmOp) : CountedRun env ops ↔ KeepsRun env ops := by
  induction ops with
  | nil => simp [CountedRun, KeepsRun]
  | cons op past ih =>
      rw [CountedRun, Loop.forall_split_cons (P := fun op past =>
          ∃ b, runOps env (op :: past) = some b ∧ Counted b), KeepsRun,
        Loop.forall_split_cons (P := fun op past => ∀ b, runOps env past = some b → Keeps env b op)]
      change _ ∧ CountedRun env past ↔ _ ∧ KeepsRun env past
      rw [← ih]
      refine and_congr_left fun hpast => ?_
      obtain ⟨b, hrun, hb⟩ := hpast.counted
      have hstep : runOps env (op :: past) = op.run env b := by rw [runOps, hrun]; rfl
      rw [hstep, run_iff b hb op]
      constructor
      · intro hkeeps b' hrun'
        obtain rfl := Option.some.inj (hrun.symm.trans hrun')
        exact hkeeps
      · intro hkeeps
        exact hkeeps b hrun

/-- A person's name whose only code is a noun below `<主体>`. -/
def personEnv : SmEnv := ⟨.ntt, false, fun _ => none, false, fun _ => none⟩

/-- The code is deleted, its number stays 1. -/
theorem personCode_not_counted :
    ¬ CountedRun personEnv [.fixSmPerson true, .getBnstCode [ascii "300*********"]] := by
  intro h
  obtain ⟨b, hrun, hb⟩ := h [] _ _ rfl
  have hresult : runOps personEnv [.fixSmPerson true, .getBnstCode [ascii "300*********"]] =
      some ⟨[], 1⟩ := by decide
  obtain rfl := Option.some.inj (hresult.symm.trans hrun)
  cases hb

end Knp
