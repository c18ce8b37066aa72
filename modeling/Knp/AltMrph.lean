import Knp.Scanf
import Knp.SurfaceCase

/-!
# Homographs as features (`read_data.c`, `case_analysis.c`)

The homographs of a morpheme are kept as features of it, each with the eight
fields of a morpheme joined by hyphens. Three functions read them back with
one pattern of `sscanf`, which cuts at hyphens, and do not look at how many
fields were converted: the others keep what the record had.

> All fields come back just if no hyphen is in the surface, the reading and the
> base form.
-/

namespace Knp

open Scanf

/-- The fields of a morpheme that a line of the input has. -/
structure MrphFields where
  goi2 : List UInt8
  yomi : List UInt8
  goi : List UInt8
  hinshi : Int
  bunrui : Int
  katuyouKata : Int
  katuyouKei : Int
  imi : List UInt8
deriving DecidableEq

/-! ## Reading a line -/

/-- The pattern of `read_mrph`: `"%s %s %s %s %d %s %d %s %d %s %d %[^\n]"`. -/
def mrphPattern : List Directive :=
  [.str, .space, .str, .space, .str, .space, .str, .space, .int, .space, .str, .space, .int,
    .space, .str, .space, .int, .space, .str, .space, .int, .space, .until 10]

/-- `Imi`, from the rest of the line, if there is one. `pseudo` is the text of `make_mrph_rn`
where 疑似代表表記 is added. -/
def mrphImi (rest : Option (List UInt8)) (pseudo : Option (List UInt8)) : List UInt8 :=
  match rest with
  | none => utf8 "NIL"
  | some rest =>
      if (utf8 "NIL").isPrefixOf rest then
        match pseudo with
        | some rep => 34 :: (utf8 "疑似代表表記 代表表記:" ++ rep) ++ [34]
        | none => utf8 "NIL"
      else
        match rest with
        | [] => []
        | c :: imip =>
            if c = 34 then -- 通常 "" で括られている
              34 :: (imip.takeWhile (· ≠ 34) ++
                (pseudo.map (utf8 " 疑似代表表記 代表表記:" ++ ·)).getD []) ++ [34]
            else (c :: imip).takeWhile (· ≠ 32)

/-- What a line of the input makes of the fields: three words, any numbers, and a text. -/
structure MrphFields.Readable (m : MrphFields) : Prop where
  goi2 : IsWord m.goi2
  yomi : IsWord m.yomi
  goi : IsWord m.goi
  imi : m.imi ≠ []
  imi_line : 10 ∉ m.imi

theorem mrphImi_ne_nil {rest : List UInt8} (pseudo : Option (List UInt8)) (hne : rest ≠ [])
    (hhead : rest.head? ≠ some 32) : mrphImi (some rest) pseudo ≠ [] := by
  obtain ⟨c, imip, rfl⟩ := List.exists_cons_of_ne_nil hne
  have hc : c ≠ 32 := by simpa using hhead
  simp only [mrphImi]
  split_ifs
  · cases pseudo with
    | none => exact (by decide : utf8 "NIL" ≠ [])
    | some rep => simp
  · simp
  · simp [hc]

theorem mrphImi_line {rest : List UInt8} {pseudo : Option (List UInt8)} (hrest : 10 ∉ rest)
    (hpseudo : ∀ rep ∈ pseudo, 10 ∉ rep) : 10 ∉ mrphImi (some rest) pseudo := by
  have htake : ∀ (p : UInt8 → Bool) (l : List UInt8), 10 ∉ l → 10 ∉ l.takeWhile p :=
    fun p l hl h => hl ((List.takeWhile_prefix p).subset h)
  simp only [mrphImi]
  split_ifs
  · cases pseudo with
    | none => decide
    | some rep =>
        have : 10 ∉ utf8 "疑似代表表記 代表表記:" := by decide
        simp [this, hpseudo rep rfl]
  · cases rest with
    | nil => exact List.not_mem_nil
    | cons c imip =>
        obtain ⟨hc, himip⟩ := not_or.mp (mt List.mem_cons.mpr hrest)
        simp only
        split_ifs
        · have : 10 ∉ utf8 " 疑似代表表記 代表表記:" := by decide
          have htake' := htake (· ≠ 34) imip himip
          cases pseudo with
          | none => simpa using htake'
          | some rep => simpa [this, hpseudo rep rfl] using htake'
        · exact htake _ _ hrest

/-- A line of eleven items, or of twelve. -/
theorem readable_of_scan {line : List UInt8} {pseudo : Option (List UInt8)}
    {goi2 yomi goi hs bs ks fs : List UInt8} {h b k f : Int} {rest : Option (List UInt8)}
    (hscan : scan mrphPattern line = [.str goi2, .str yomi, .str goi, .str hs, .int h, .str bs,
      .int b, .str ks, .int k, .str fs, .int f] ++ (rest.map Value.str).toList)
    (hpseudo : ∀ rep ∈ pseudo, 10 ∉ rep) (hinshi bunrui kata kei : Int) :
    MrphFields.Readable ⟨goi2, yomi, goi, hinshi, bunrui, kata, kei, mrphImi rest pseudo⟩ := by
  obtain ⟨_, _, h₁, hw₁, hscan⟩ := scan_word_eq_cons hscan
  obtain ⟨_, _, h₂, hw₂, hscan⟩ := scan_word_eq_cons hscan.symm
  obtain ⟨_, _, h₃, hw₃, hscan⟩ := scan_word_eq_cons hscan.symm
  obtain ⟨_, _, _, _, hscan⟩ := scan_word_eq_cons hscan.symm
  obtain ⟨_, hscan⟩ := scan_number_eq_cons hscan.symm
  obtain ⟨_, _, _, _, hscan⟩ := scan_word_eq_cons hscan.symm
  obtain ⟨_, hscan⟩ := scan_number_eq_cons hscan.symm
  obtain ⟨_, _, _, _, hscan⟩ := scan_word_eq_cons hscan.symm
  obtain ⟨_, hscan⟩ := scan_number_eq_cons hscan.symm
  obtain ⟨_, _, _, _, hscan⟩ := scan_word_eq_cons hscan.symm
  obtain ⟨s, hscan⟩ := scan_number_eq_cons hscan.symm
  cases h₁
  cases h₂
  cases h₃
  have himi : mrphImi rest pseudo ≠ [] ∧ 10 ∉ mrphImi rest pseudo := by
    cases rest with
    | none => exact ⟨(by decide : utf8 "NIL" ≠ []), (by decide : 10 ∉ utf8 "NIL")⟩
    | some r =>
        obtain ⟨w, hw, hne, hline, hhead⟩ := scan_until_eq_cons hscan.symm
        cases hw
        refine ⟨mrphImi_ne_nil pseudo hne fun h => ?_, mrphImi_line hline hpseudo⟩
        rw [hhead] at h
        have := List.head?_dropWhile_not isSpace s
        rw [h] at this
        cases this
  exact ⟨hw₁, hw₂, hw₃, himi.1, himi.2⟩

/-! ## The feature -/

/-- `assign_feature_alt_mrph`: the feature `"ALT-%s-%s-%s-%d-%d-%d-%d-%s"`. -/
def altFeature (m : MrphFields) : List UInt8 :=
  utf8 "ALT-" ++ (m.goi2 ++ 45 :: (m.yomi ++ 45 :: (m.goi ++ 45 :: (putInt m.hinshi ++
    45 :: (putInt m.bunrui ++ 45 :: (putInt m.katuyouKata ++ 45 :: (putInt m.katuyouKei ++
      45 :: m.imi)))))))

/-- The pattern of `decide_alt_mrph`, `change_alt_mrph` and `assign_canonical_rep_to_mrph`:
`"%[^-]-%[^-]-%[^-]-%d-%d-%d-%d-%[^\n]"`. -/
def altPattern : List Directive :=
  [.until 45, .lit 45, .until 45, .lit 45, .until 45, .lit 45, .int, .lit 45, .int, .lit 45, .int,
    .lit 45, .int, .lit 45, .until 10]

def strAt (vs : List Value) (k : Nat) (old : List UInt8) : List UInt8 :=
  match vs[k]? with
  | some (.str s) => s
  | _ => old

def intAt (vs : List Value) (k : Nat) (old : Int) : Int :=
  match vs[k]? with
  | some (.int n) => n
  | _ => old

/-- The fields that were converted are overwritten. -/
def MrphFields.assign (m : MrphFields) (vs : List Value) : MrphFields where
  goi2 := strAt vs 0 m.goi2
  yomi := strAt vs 1 m.yomi
  goi := strAt vs 2 m.goi
  hinshi := intAt vs 3 m.hinshi
  bunrui := intAt vs 4 m.bunrui
  katuyouKata := intAt vs 5 m.katuyouKata
  katuyouKei := intAt vs 6 m.katuyouKei
  imi := strAt vs 7 m.imi

/-- The readers: the record `m` after `sscanf(fp->cp + 4, ...)`, where the feature is an `ALT`. -/
def readAlt (m : MrphFields) (cp : List UInt8) : Option MrphFields :=
  if (utf8 "ALT-").isPrefixOf cp then some (m.assign (scan altPattern (cp.drop 4))) else none

/-! ## The round trip -/

theorem drop_altFeature (m : MrphFields) : (altFeature m).drop 4 =
    m.goi2 ++ 45 :: (m.yomi ++ 45 :: (m.goi ++ 45 :: (putInt m.hinshi ++
      45 :: (putInt m.bunrui ++ 45 :: (putInt m.katuyouKata ++ 45 :: (putInt m.katuyouKei ++
        45 :: m.imi)))))) := rfl

theorem readAlt_altFeature (m old : MrphFields) :
    readAlt old (altFeature m) = some (old.assign (scan altPattern ((altFeature m).drop 4))) :=
  if_pos (List.isPrefixOf_iff_prefix.mpr (List.prefix_append _ _))

/-- What is converted of a feature without hyphens in its words. -/
theorem scan_altFeature {m : MrphFields} (h : m.Readable) (hgoi2 : 45 ∉ m.goi2)
    (hyomi : 45 ∉ m.yomi) (hgoi : 45 ∉ m.goi) : scan altPattern ((altFeature m).drop 4) =
      [.str m.goi2, .str m.yomi, .str m.goi, .int m.hinshi, .int m.bunrui, .int m.katuyouKata,
        .int m.katuyouKei, .str m.imi] := by
  have hdash : isDigit 45 = false := rfl
  rw [drop_altFeature, altPattern, scan_until h.goi2.ne_nil hgoi2, scan_lit,
    scan_until h.yomi.ne_nil hyomi, scan_lit, scan_until h.goi.ne_nil hgoi, scan_lit,
    scan_int _ hdash, scan_lit, scan_int _ hdash, scan_lit, scan_int _ hdash, scan_lit,
    scan_int _ hdash, scan_lit, scan_until_end h.imi h.imi_line]
  rfl

/-- A record in which nothing was read. -/
def emptyFields : MrphFields := ⟨[], [], [], 0, 0, 0, 0, []⟩

/-- The word at which a hyphen is met is not read to its end. -/
theorem strAt_scan_until {ds : List Directive} {w s : List UInt8} (vs : List Value) {k : Nat}
    (hk : vs.length = k) (hw : 45 ∈ w) : strAt (vs ++ scan (.until 45 :: ds) s) k [] ≠ w := by
  subst hk
  have hget : (vs ++ scan (.until 45 :: ds) s)[vs.length]? = (scan (.until 45 :: ds) s).head? := by
    rw [List.getElem?_append_right le_rfl, Nat.sub_self, List.head?_eq_getElem?]
  unfold strAt
  rw [hget]
  cases hscan : scan (.until 45 :: ds) s with
  | nil =>
      rintro rfl
      cases hw
  | cons v l =>
      obtain ⟨w', rfl, -, hdash, -⟩ := scan_until_eq_cons hscan
      rintro rfl
      exact hdash hw

/-- All fields come back, whatever the record had, just if the words have no hyphen. -/
theorem alt_roundTrip_iff (m : MrphFields) (h : m.Readable) :
    (∀ old, readAlt old (altFeature m) = some m) ↔ 45 ∉ m.goi2 ∧ 45 ∉ m.yomi ∧ 45 ∉ m.goi := by
  constructor
  · intro hall
    have heq := hall emptyFields
    rw [readAlt_altFeature, Option.some_inj] at heq
    have hgoi2 : 45 ∉ m.goi2 := fun hw =>
      strAt_scan_until [] rfl hw (congrArg MrphFields.goi2 heq)
    rw [drop_altFeature, altPattern, scan_until h.goi2.ne_nil hgoi2, scan_lit] at heq
    have hyomi : 45 ∉ m.yomi := fun hw =>
      strAt_scan_until [.str m.goi2] rfl hw (congrArg MrphFields.yomi heq)
    rw [scan_until h.yomi.ne_nil hyomi, scan_lit] at heq
    exact ⟨hgoi2, hyomi, fun hw => strAt_scan_until [.str m.goi2, .str m.yomi] rfl hw
      (congrArg MrphFields.goi heq)⟩
  · rintro ⟨hgoi2, hyomi, hgoi⟩ old
    rw [readAlt_altFeature, scan_altFeature h hgoi2 hyomi hgoi]
    rfl

def hashiru : MrphFields := ⟨utf8 "走る", utf8 "はしる", utf8 "走る", 2, 0, 10, 2, utf8 "NIL"⟩

theorem hashiru_roundTrip : readAlt emptyFields (altFeature hashiru) = some hashiru :=
  (alt_roundTrip_iff hashiru ⟨⟨by decide, by decide +kernel⟩, ⟨by decide, by decide +kernel⟩,
    ⟨by decide, by decide +kernel⟩, by decide, by decide⟩).mpr
    ⟨by decide +kernel, by decide +kernel, by decide +kernel⟩ emptyFields

def email : MrphFields :=
  ⟨utf8 "e-mail", utf8 "イーメール", utf8 "e-mail", 6, 1, 0, 0, utf8 "NIL"⟩

/-- The surface is cut at its hyphen, its rest is taken for the reading and the reading for the
base form; no number is converted. -/
theorem email_not_roundTrip : email.Readable ∧
    readAlt emptyFields (altFeature email) =
      some ⟨utf8 "e", utf8 "mail", utf8 "イーメール", 0, 0, 0, 0, []⟩ ∧
    ¬ ∀ old, readAlt old (altFeature email) = some email := by
  have hread : readAlt emptyFields (altFeature email) =
      some ⟨utf8 "e", utf8 "mail", utf8 "イーメール", 0, 0, 0, 0, []⟩ := by decide +kernel
  refine ⟨⟨⟨by decide, by decide +kernel⟩, ⟨by decide, by decide +kernel⟩,
    ⟨by decide, by decide +kernel⟩, by decide, by decide⟩, hread, fun hall => ?_⟩
  have heq := (hall emptyFields).symm.trans hread
  exact absurd heq (by decide +kernel)

end Knp
