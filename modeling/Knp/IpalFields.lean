import Knp.Utf8Text

/-!
# The fields of a case frame (`case_ipal.c`)

The cases and the examples of a slot are fields of one text. `extract_ipal_str` copies a field
and returns a pointer behind it, and its callers go on there until it returns `NULL`.

> The fields are those of the text, no byte behind the NUL is read and no character is split,
> just if there is no character of four bytes, and each one of two bytes is followed by one of a
> single byte that neither ends the field nor cuts it.

Each byte from 0x80 on is taken for the first one of three. A field that is cut already may be
cut again, and a space may be lost in it if nothing is left behind. A text that ends in a
delimiter has no empty field behind it, and one that is left as `＊` has none at all.
-/

namespace Knp

open Utf8Text

/-! ## The scanner -/

/-- A call that has returned: what is written to `ret` in front of the final NUL, the text at the
pointer that is returned, and the text at `dat` each time the loop begins. -/
structure IpalScan where
  ret : List UInt8
  rest : List UInt8
  heads : List (List UInt8)

/-- Bytes are copied, and the loop goes on. -/
def IpalScan.copy (bytes dat : List UInt8) (s : IpalScan) : IpalScan :=
  { s with ret := bytes ++ s.ret, heads := dat :: s.heads }

/-- The string in `ret`. -/
def IpalScan.string (s : IpalScan) : List UInt8 := s.ret.takeWhile (· ≠ 0)

/-- `／`, `，`, `、` and `＊` -/
def wideDelimiters : List Char := ['／', '，', '、', '＊']

/-- The loop of `extract_ipal_str`; `none` where the byte behind the NUL is read. -/
def scanIpal (flag : Bool) : List UInt8 → Option IpalScan
  | [] => some ⟨[], [], [[]]⟩
  | c :: dat =>
      -- 頻度が記述してある場合
      if c = ':'.toNat.toUInt8 then
        (scanIpal flag dat).map (IpalScan.copy [if flag then c else 0] (c :: dat))
      -- 空白でも切る
      else if c = ' '.toNat.toUInt8 then some ⟨[], dat, [c :: dat]⟩
      else if c < 0x80 then (scanIpal flag dat).map (IpalScan.copy [c] (c :: dat))
      else if wideDelimiters.any fun d => (String.utf8EncodeChar d).isPrefixOf (c :: dat) then
        some ⟨[], dat.drop 2, [c :: dat]⟩
      else
        match dat with
        | d :: e :: dat =>
            (scanIpal flag dat).map (IpalScan.copy [c, d, e] (c :: d :: e :: dat))
        | _ => none

/-- `extract_ipal_str`; `some none` where it returns `NULL`. -/
def extractIpalStr (flag : Bool) (dat : List UInt8) : Option (Option IpalScan) :=
  if dat = [] ∨ dat = encode ['＊'] then some none else (scanIpal flag dat).map some

/-- `while ((point = extract_ipal_str(point, cf_str_buf, flag)))`: the calls. -/
def ipalCalls (flag : Bool) : Nat → List UInt8 → Option (List IpalScan)
  | 0, _ => none
  | fuel + 1, point =>
      match extractIpalStr flag point with
      | none => none
      | some none => some []
      | some (some s) => (ipalCalls flag fuel s.rest).map (s :: ·)

/-! ## The fields -/

def isDelimiter (c : Char) : Bool := c = ' ' || wideDelimiters.contains c

/-- Up to the first delimiter. -/
def firstField (cs : List Char) : List Char := cs.takeWhile (!isDelimiter ·)

/-- Behind the first delimiter. -/
def behindField (cs : List Char) : List Char := (cs.dropWhile (!isDelimiter ·)).tail

theorem length_behindField_lt {cs : List Char} (h : cs ≠ []) :
    (behindField cs).length < cs.length := by
  have hle := (List.dropWhile_suffix (!isDelimiter ·) (l := cs)).length_le
  have hpos := List.length_pos_iff.mpr h
  rw [behindField, List.length_tail]
  omega

/-- The segments between the delimiters, as long as something but the mark `＊` is left. -/
def fields (cs : List Char) : List (List Char) :=
  if _ : cs = [] ∨ cs = ['＊'] then [] else firstField cs :: fields (behindField cs)
termination_by cs.length
decreasing_by
  have hne : ¬(cs = [] ∨ cs = ['＊']) := by assumption
  exact length_behindField_lt fun hnil => hne (Or.inl hnil)

/-- Cut at the first `:`, unless the frequency is asked for. -/
def cutFreq (flag : Bool) (f : List Char) : List Char :=
  if flag then f else f.takeWhile (· ≠ ':')

/-- A text without a NUL. -/
structure FieldText where
  chars : List Char
  noNul : ∀ c ∈ chars, c.toNat ≠ 0

/-- The calls from the start of a text yield its fields. The pointer is always at the boundary
of a character, and only the text and its NUL are read. -/
structure YieldsFields (flag : Bool) (t : FieldText) (calls : List IpalScan) : Prop where
  returns : ipalCalls flag ((encode t.chars).length + 1) (encode t.chars) = some calls
  strings : calls.map IpalScan.string = (fields t.chars).map fun f => encode (cutFreq flag f)
  boundaries : ∀ s ∈ calls, ∀ dat ∈ s.heads, AtBoundary dat

/-- What may follow a character of two bytes; `cut` says that a `:` has cut the field. -/
def MayFollow (flag cut : Bool) : List Char → Prop
  | [] => False
  | d :: cs => d.utf8Size = 1 ∧ (d = ':' → flag = true ∨ cut = true) ∧
      (d = ' ' → cut = true ∧ (cs = [] ∨ cs = ['＊']))

/-- The condition on the characters from some place on. -/
def InSteps (flag cut : Bool) : List Char → Prop
  | [] => True
  | c :: cs => c.utf8Size ≠ 4 ∧ (c.utf8Size = 2 → MayFollow flag cut cs) ∧
      InSteps flag (!isDelimiter c && (cut || (c = ':' && !flag))) cs

/-! ## The scanner on characters -/

/-- A call that splits no character: what is copied, and what is left. -/
inductive CharScan (flag : Bool) : List Char → List Char → List Char → Prop
  | stop : CharScan flag [] [] []
  | colon {cs w r} (h : CharScan flag cs w r) :
      CharScan flag (':' :: cs) ((if flag then ':' else Char.ofNat 0) :: w) r
  | delimiter {c cs} (hc : isDelimiter c = true) : CharScan flag (c :: cs) [] cs
  | one {c cs w r} (hsize : c.utf8Size = 1 ∨ c.utf8Size = 3) (hc : c ≠ ':')
      (hd : isDelimiter c = false) (h : CharScan flag cs w r) : CharScan flag (c :: cs) (c :: w) r
  | two {c d cs w r} (hc : c.utf8Size = 2) (hd : d.utf8Size = 1) (h : CharScan flag cs w r) :
      CharScan flag (c :: d :: cs) (c :: d :: w) r

section Bytes

variable {flag : Bool} {c d : Char} {cs w r : List Char} {s : IpalScan} {dat : List UInt8}

theorem isDelimiter_cases (h : isDelimiter c = true) : c = ' ' ∨ c ∈ wideDelimiters := by
  rw [isDelimiter, Bool.or_eq_true, decide_eq_true_iff, List.contains_iff_mem] at h
  exact h

theorem size_of_isDelimiter (h : isDelimiter c = true) : c.utf8Size = 1 ∨ c.utf8Size = 3 := by
  rcases isDelimiter_cases h with rfl | hwide
  · exact Or.inl rfl
  · simp only [wideDelimiters, List.mem_cons, List.not_mem_nil, or_false] at hwide
    rcases hwide with rfl | rfl | rfl | rfl <;> exact Or.inr rfl

theorem scanIpal_cons (b : UInt8) (dat : List UInt8) : scanIpal flag (b :: dat) =
    if b = 58 then (scanIpal flag dat).map (IpalScan.copy [if flag then b else 0] (b :: dat))
    else if b = 32 then some ⟨[], dat, [b :: dat]⟩
    else if b < 0x80 then (scanIpal flag dat).map (IpalScan.copy [b] (b :: dat))
    else if wideDelimiters.any fun d => (String.utf8EncodeChar d).isPrefixOf (b :: dat) then
      some ⟨[], dat.drop 2, [b :: dat]⟩
    else
      match dat with
      | d :: e :: dat => (scanIpal flag dat).map (IpalScan.copy [b, d, e] (b :: d :: e :: dat))
      | _ => none := by
  rcases dat with _ | ⟨d, _ | ⟨e, dat⟩⟩ <;> rfl

/-- The places of `dat` begin with the first. -/
theorem mem_heads (h : scanIpal flag dat = some s) : dat ∈ s.heads := by
  cases dat with
  | nil =>
      cases h
      exact List.mem_singleton_self []
  | cons c dat =>
      have hcopy : ∀ {bytes t}, (scanIpal flag t).map (IpalScan.copy bytes (c :: dat)) = some s →
          c :: dat ∈ s.heads := by
        intro bytes t hs
        obtain ⟨s', -, rfl⟩ := Option.map_eq_some_iff.mp hs
        exact List.mem_cons_self
      have hstop : ∀ {t}, some ⟨[], t, [c :: dat]⟩ = some s → c :: dat ∈ s.heads := by
        rintro t ⟨⟩
        exact List.mem_singleton_self _
      rw [scanIpal_cons] at h
      split at h
      · exact hcopy h
      · split at h
        · exact hstop h
        · split at h
          · exact hcopy h
          · split at h
            · exact hstop h
            · split at h
              · exact hcopy h
              · cases h

theorem scan_colon (cs : List Char) : scanIpal flag (encode (':' :: cs)) =
    (scanIpal flag (encode cs)).map
      (IpalScan.copy [if flag then 58 else 0] (encode (':' :: cs))) :=
  (scanIpal_cons 58 (encode cs)).trans (if_pos rfl)

theorem scan_delimiter (h : isDelimiter c = true) (cs : List Char) :
    scanIpal flag (encode (c :: cs)) = some ⟨[], encode cs, [encode (c :: cs)]⟩ := by
  rcases isDelimiter_cases h with rfl | hwide
  · exact (scanIpal_cons 32 (encode cs)).trans rfl
  · simp only [wideDelimiters, List.mem_cons, List.not_mem_nil, or_false] at hwide
    rcases hwide with rfl | rfl | rfl | rfl <;>
    · rw [encode_cons]
      exact (scanIpal_cons _ _).trans rfl

theorem scan_ascii (h1 : c.utf8Size = 1) (hc : c ≠ ':') (hd : isDelimiter c = false)
    (cs : List Char) : scanIpal flag (encode (c :: cs)) =
      (scanIpal flag (encode cs)).map
        (IpalScan.copy (String.utf8EncodeChar c) (encode (c :: cs))) := by
  obtain ⟨hbytes, hlt, hnat⟩ := encode_of_size_one h1
  have hne : ∀ d : Char, d.toNat < 256 → c ≠ d → c.val.toUInt8 ≠ d.toNat.toUInt8 := by
    intro d hd hcd heq
    refine hcd (Char.toNat_inj.mp ?_)
    rw [← hnat, heq, Nat.toUInt8, UInt8.toNat_ofNat', Nat.mod_eq_of_lt hd]
  have hspace : c ≠ ' ' := by
    rintro rfl
    cases hd
  have h58 : ¬c.val.toUInt8 = 58 := hne ':' (by decide) hc
  have h32 : ¬c.val.toUInt8 = 32 := hne ' ' (by decide) hspace
  rw [encode_cons, hbytes, List.singleton_append, scanIpal_cons, if_neg h58, if_neg h32, if_pos hlt]

/-- The loop takes the first byte of a longer character for that of one with three bytes. -/
theorem scan_wide (h1 : c.utf8Size ≠ 1) (hd : isDelimiter c = false) (cs : List Char) :
    scanIpal flag (encode (c :: cs)) =
      match encode (c :: cs) with
      | a :: b :: e :: dat => (scanIpal flag dat).map (IpalScan.copy [a, b, e] (a :: b :: e :: dat))
      | _ => none := by
  have hprefix : ¬(wideDelimiters.any fun d =>
      (String.utf8EncodeChar d).isPrefixOf (encode (c :: cs))) = true := by
    intro hany
    obtain ⟨d, hmem, hpre⟩ := List.any_eq_true.mp hany
    obtain rfl := prefix_encode_iff.mp (List.isPrefixOf_iff_prefix.mp hpre)
    rw [isDelimiter, List.contains_iff_mem.mpr hmem, Bool.or_true] at hd
    cases hd
  cases hbytes : encode (c :: cs) with
  | nil => exact absurd (encode_eq_nil_iff.mp hbytes) (List.cons_ne_nil c cs)
  | cons a dat =>
      have ha : 0x80 ≤ a := by
        refine le_of_mem_encode h1 ?_
        obtain ⟨b, bs, heq⟩ := List.exists_cons_of_ne_nil (String.utf8EncodeChar_ne_nil (c := c))
        rw [encode_cons, heq, List.cons_append] at hbytes
        rw [heq, ← (List.cons.inj hbytes).1]
        exact List.mem_cons_self
      have h58 : ¬a = 58 := by
        rintro rfl
        exact absurd ha (by decide)
      have h32 : ¬a = 32 := by
        rintro rfl
        exact absurd ha (by decide)
      rw [hbytes] at hprefix
      rw [scanIpal_cons, if_neg h58, if_neg h32, if_neg (UInt8.not_lt.mpr ha), if_neg hprefix]
      rcases dat with _ | ⟨b, _ | ⟨e, dat⟩⟩ <;> rfl

/-! ## Calls that split no character -/

theorem encode_of_size_two (h : c.utf8Size = 2) : ∃ a b, String.utf8EncodeChar c = [a, b] :=
  List.length_eq_two.mp ((String.length_utf8EncodeChar c).trans h)

theorem encode_of_size_three (h : c.utf8Size = 3) :
    ∃ a b e, String.utf8EncodeChar c = [a, b, e] :=
  List.length_eq_three.mp ((String.length_utf8EncodeChar c).trans h)

theorem not_isDelimiter_of_size (h : c.utf8Size ≠ 1) (h' : c.utf8Size ≠ 3) :
    isDelimiter c = false :=
  Bool.eq_false_iff.mpr fun hd => (size_of_isDelimiter hd).elim h h'

theorem scan_size_three (h : c.utf8Size = 3) (hd : isDelimiter c = false) (cs : List Char) :
    scanIpal flag (encode (c :: cs)) = (scanIpal flag (encode cs)).map
      (IpalScan.copy (String.utf8EncodeChar c) (encode (c :: cs))) := by
  obtain ⟨a, b, e, hbytes⟩ := encode_of_size_three h
  rw [scan_wide (by omega) hd, encode_cons, hbytes]
  rfl

/-- A character of two bytes takes the first byte of the next one along. -/
theorem scan_size_two (h : c.utf8Size = 2) {e : UInt8} {es : List UInt8}
    (hd : String.utf8EncodeChar d = e :: es) (cs : List Char) :
    scanIpal flag (encode (c :: d :: cs)) = (scanIpal flag (es ++ encode cs)).map
      (IpalScan.copy (String.utf8EncodeChar c ++ [e]) (encode (c :: d :: cs))) := by
  obtain ⟨a, b, hbytes⟩ := encode_of_size_two h
  rw [scan_wide (by omega) (not_isDelimiter_of_size (by omega) (by omega)), encode_cons,
    encode_cons, hbytes, hd]
  rfl

theorem scan_size_two_end (h : c.utf8Size = 2) : scanIpal flag (encode [c]) = none := by
  obtain ⟨a, b, hbytes⟩ := encode_of_size_two h
  rw [scan_wide (by omega) (not_isDelimiter_of_size (by omega) (by omega)), encode_cons, hbytes]
  rfl

/-- Of a character of four bytes the last one is left. -/
theorem scan_size_four (h : c.utf8Size = 4) (cs : List Char) :
    ∃ bytes, ∃ b ∈ (String.utf8EncodeChar c).tail, scanIpal flag (encode (c :: cs)) =
      (scanIpal flag (b :: encode cs)).map (IpalScan.copy bytes (encode (c :: cs))) := by
  obtain ⟨a, b, e, f, hbytes⟩ : ∃ a b e f, String.utf8EncodeChar c = [a, b, e, f] :=
    ⟨_, _, _, _, String.utf8EncodeChar_eq_cons_cons_cons_cons h⟩
  refine ⟨[a, b, e], f, ?_, ?_⟩
  · rw [hbytes]
    exact List.mem_cons_of_mem b (List.mem_cons_of_mem e (List.mem_singleton_self f))
  · rw [scan_wide (by omega) (not_isDelimiter_of_size (by omega) (by omega)), encode_cons, hbytes]
    rfl

/-- What is left of a character is not at a boundary. -/
theorem not_atBoundary {b : UInt8} (h : b ∈ (String.utf8EncodeChar c).tail) (dat : List UInt8) :
    ¬AtBoundary (b :: dat) := fun hb => not_firstByte_of_mem_tail h (hb b rfl)

theorem copy_eq_some {bytes head : List UInt8}
    (h : (scanIpal flag dat).map (IpalScan.copy bytes head) = some s)
    (hb : ∀ d ∈ s.heads, AtBoundary d) : ∃ s', scanIpal flag dat = some s' ∧
      (∀ d ∈ s'.heads, AtBoundary d) ∧ s.ret = bytes ++ s'.ret ∧ s.rest = s'.rest := by
  obtain ⟨s', hs', rfl⟩ := Option.map_eq_some_iff.mp h
  exact ⟨s', hs', fun d hd => hb d (List.mem_cons_of_mem head hd), rfl, rfl⟩

theorem charScan_of_scan (cs : List Char) {s : IpalScan} (h : scanIpal flag (encode cs) = some s)
    (hb : ∀ dat ∈ s.heads, AtBoundary dat) :
    ∃ w r, CharScan flag cs w r ∧ s.ret = encode w ∧ s.rest = encode r := by
  induction hn : cs.length using Nat.strong_induction_on generalizing cs s with
  | _ n ih =>
      rcases cs with _ | ⟨c, cs⟩
      · cases h
        exact ⟨[], [], .stop, rfl, rfl⟩
      rw [List.length_cons] at hn
      by_cases hcolon : c = ':'
      · subst hcolon
        obtain ⟨s', hs', hb', hret, hrest⟩ := copy_eq_some ((scan_colon cs).symm.trans h) hb
        obtain ⟨w, r, hscan, hw, hr⟩ := ih cs.length (by omega) cs hs' hb' rfl
        refine ⟨_, r, .colon hscan, ?_, hrest.trans hr⟩
        rw [hret, hw, encode_cons]
        cases flag <;> rfl
      by_cases hd : isDelimiter c = true
      · rw [scan_delimiter hd] at h
        cases h
        exact ⟨[], cs, .delimiter hd, rfl, rfl⟩
      rw [Bool.not_eq_true] at hd
      rcases c.utf8Size_eq with h1 | h2 | h3 | h4
      · obtain ⟨s', hs', hb', hret, hrest⟩ :=
          copy_eq_some ((scan_ascii h1 hcolon hd cs).symm.trans h) hb
        obtain ⟨w, r, hscan, hw, hr⟩ := ih cs.length (by omega) cs hs' hb' rfl
        refine ⟨_, r, .one (Or.inl h1) hcolon hd hscan, ?_, hrest.trans hr⟩
        rw [hret, hw, encode_cons]
      · rcases cs with _ | ⟨d, cs⟩
        · rw [scan_size_two_end h2] at h
          cases h
        · rw [List.length_cons] at hn
          obtain ⟨e, es, hes⟩ := List.exists_cons_of_ne_nil (String.utf8EncodeChar_ne_nil (c := d))
          obtain ⟨s', hs', hb', hret, hrest⟩ :=
            copy_eq_some ((scan_size_two h2 hes cs).symm.trans h) hb
          rcases es with _ | ⟨e', es⟩
          · have hd1 : d.utf8Size = 1 := by
              rw [← String.length_utf8EncodeChar, hes]
              rfl
            obtain ⟨w, r, hscan, hw, hr⟩ := ih cs.length (by omega) cs hs' hb' rfl
            refine ⟨_, r, .two h2 hd1 hscan, ?_, hrest.trans hr⟩
            rw [hret, hw, encode_cons, encode_cons, hes, List.append_assoc]
          · refine absurd (hb' _ (mem_heads hs')) (not_atBoundary (c := d) ?_ _)
            rw [hes]
            exact List.mem_cons_self
      · obtain ⟨s', hs', hb', hret, hrest⟩ :=
          copy_eq_some ((scan_size_three h3 hd cs).symm.trans h) hb
        obtain ⟨w, r, hscan, hw, hr⟩ := ih cs.length (by omega) cs hs' hb' rfl
        refine ⟨_, r, .one (Or.inr h3) hcolon hd hscan, ?_, hrest.trans hr⟩
        rw [hret, hw, encode_cons]
      · obtain ⟨bytes, b, hmem, hstep⟩ := @scan_size_four flag _ h4 cs
        obtain ⟨s', hs', hb', -, -⟩ := copy_eq_some (hstep.symm.trans h) hb
        exact absurd (hb' _ (mem_heads hs')) (not_atBoundary hmem _)

/-- The scanner on bytes does what that on characters does. -/
theorem scan_of_charScan (h : CharScan flag cs w r) : ∃ s, scanIpal flag (encode cs) = some s ∧
    s.ret = encode w ∧ s.rest = encode r ∧ ∀ dat ∈ s.heads, AtBoundary dat := by
  have hcopy : ∀ {cs cs' : List Char} {bytes : List UInt8} {s : IpalScan},
      scanIpal flag (encode cs') =
        (scanIpal flag (encode cs)).map (IpalScan.copy bytes (encode cs')) →
      scanIpal flag (encode cs) = some s → (∀ dat ∈ s.heads, AtBoundary dat) →
      ∃ s', scanIpal flag (encode cs') = some s' ∧ s'.ret = bytes ++ s.ret ∧ s'.rest = s.rest ∧
        ∀ dat ∈ s'.heads, AtBoundary dat := by
    intro cs cs' bytes s hstep hs hb
    rw [hs] at hstep
    refine ⟨_, hstep, rfl, rfl, fun dat hdat => ?_⟩
    rcases List.mem_cons.mp hdat with rfl | hdat
    · exact atBoundary_encode cs'
    · exact hb dat hdat
  induction h with
  | stop =>
      refine ⟨⟨[], [], [[]]⟩, rfl, rfl, rfl, fun dat hdat => ?_⟩
      rw [List.mem_singleton.mp hdat]
      exact atBoundary_encode []
  | @colon cs w r h ih =>
      obtain ⟨s, hs, hret, hrest, hb⟩ := ih
      obtain ⟨s', hs', hret', hrest', hb'⟩ := hcopy (scan_colon cs) hs hb
      refine ⟨s', hs', ?_, hrest'.trans hrest, hb'⟩
      rw [hret', hret, encode_cons]
      cases flag <;> rfl
  | @delimiter c cs hc =>
      refine ⟨_, scan_delimiter hc cs, rfl, rfl, fun dat hdat => ?_⟩
      rw [List.mem_singleton.mp hdat]
      exact atBoundary_encode (c :: cs)
  | @one c cs w r hsize hc hd h ih =>
      obtain ⟨s, hs, hret, hrest, hb⟩ := ih
      have hstep : scanIpal flag (encode (c :: cs)) = (scanIpal flag (encode cs)).map
          (IpalScan.copy (String.utf8EncodeChar c) (encode (c :: cs))) :=
        hsize.elim (fun h1 => scan_ascii h1 hc hd cs) fun h3 => scan_size_three h3 hd cs
      obtain ⟨s', hs', hret', hrest', hb'⟩ := hcopy hstep hs hb
      refine ⟨s', hs', ?_, hrest'.trans hrest, hb'⟩
      rw [hret', hret, encode_cons]
  | @two c d cs w r hc hd h ih =>
      obtain ⟨s, hs, hret, hrest, hb⟩ := ih
      have hbytes := (encode_of_size_one hd).1
      obtain ⟨s', hs', hret', hrest', hb'⟩ := hcopy (scan_size_two hc hbytes cs) hs hb
      refine ⟨s', hs', ?_, hrest'.trans hrest, hb'⟩
      rw [hret', hret, encode_cons, encode_cons, hbytes, List.append_assoc]

end Bytes

/-! ## Fields and calls -/

section Fields

variable {flag cut : Bool} {c d : Char} {cs xs ys w r : List Char}

theorem fields_nil : fields [] = [] := by
  rw [fields, dif_pos (Or.inl rfl)]

theorem fields_of_end (h : cs = [] ∨ cs = ['＊']) : fields cs = [] := by
  rw [fields, dif_pos h]

theorem fields_of_not_end (h : ¬(cs = [] ∨ cs = ['＊'])) :
    fields cs = firstField cs :: fields (behindField cs) := by
  rw [fields, dif_neg h]

theorem firstField_cons (c : Char) (cs : List Char) :
    firstField (c :: cs) = if isDelimiter c then [] else c :: firstField cs := by
  rw [firstField, List.takeWhile_cons]
  cases isDelimiter c <;> rfl

theorem behindField_cons (c : Char) (cs : List Char) :
    behindField (c :: cs) = if isDelimiter c then cs else behindField cs := by
  rw [behindField, List.dropWhile_cons]
  cases isDelimiter c <;> rfl

theorem behindField_suffix (cs : List Char) : behindField cs <:+ cs :=
  (List.tail_suffix _).trans (List.dropWhile_suffix _)

/-- A text that does not end in a delimiter is split at all of them. -/
theorem fields_eq_splitOnP (hne : cs ≠ []) (hlast : ∀ c ∈ cs.getLast?, isDelimiter c = false) :
    fields cs = cs.splitOnP isDelimiter := by
  induction cs with
  | nil => exact absurd rfl hne
  | cons c cs ih =>
      have hend : ¬(c :: cs = [] ∨ c :: cs = ['＊']) := by
        rintro (h | h)
        · cases h
        · rw [h] at hlast
          exact absurd (hlast '＊' rfl) (by decide)
      rw [fields_of_not_end hend, firstField_cons, behindField_cons,
        List.splitOnP_cons_eq_if_modifyHead]
      rcases cs with _ | ⟨d, cs⟩
      · rw [hlast c rfl]
        exact congrArg ([c] :: ·) fields_nil
      · rw [List.getLast?_cons_cons] at hlast
        rw [← ih (List.cons_ne_nil d cs) hlast]
        split_ifs
        · rfl
        · have hend' : ¬(d :: cs = [] ∨ d :: cs = ['＊']) := by
            rintro (h | h)
            · cases h
            · rw [h] at hlast
              exact absurd (hlast '＊' rfl) (by decide)
          rw [fields_of_not_end hend']
          rfl

/-- One more character does not take a field away. -/
theorem length_fields_le_cons (c : Char) (cs : List Char) :
    (fields cs).length ≤ (fields (c :: cs)).length := by
  by_cases hend : c :: cs = [] ∨ c :: cs = ['＊']
  · have hnil : cs = [] := hend.elim (fun h => nomatch h) fun h => (List.cons.inj h).2
    rw [hnil, fields_nil]
    exact Nat.zero_le _
  · rw [fields_of_not_end hend, behindField_cons, List.length_cons]
    split_ifs
    · exact Nat.le_succ _
    · by_cases hend' : cs = [] ∨ cs = ['＊']
      · rw [fields_of_end hend']
        exact Nat.zero_le _
      · rw [fields_of_not_end hend', List.length_cons]

theorem length_fields_le_of_suffix (h : xs <:+ ys) :
    (fields xs).length ≤ (fields ys).length := by
  induction ys with
  | nil => rw [List.suffix_nil.mp h]
  | cons y ys ih =>
      rcases List.suffix_cons_iff.mp h with rfl | h
      · exact le_rfl
      · exact (ih h).trans (length_fields_le_cons y ys)

/-- A call does not stop in front of the first delimiter. -/
theorem CharScan.suffix (h : CharScan flag cs w r) : r <:+ behindField cs := by
  induction h with
  | stop => exact List.suffix_refl []
  | @colon cs w r h ih =>
      rw [behindField_cons]
      exact ih
  | delimiter hc =>
      rw [behindField_cons, if_pos hc]
  | one hsize hc hd h ih =>
      rw [behindField_cons, hd]
      exact ih
  | @two c d cs w r hc hd h ih =>
      rw [behindField_cons, not_isDelimiter_of_size (by omega) (by omega), behindField_cons]
      cases isDelimiter d
      · exact ih
      · exact ih.trans (behindField_suffix cs)

theorem CharScan.length_lt (h : CharScan flag cs w r) (hne : cs ≠ []) : r.length < cs.length :=
  h.suffix.length_le.trans_lt (length_behindField_lt hne)

/-- What is in front of the first NUL. -/
def visible (w : List Char) : List Char := w.takeWhile (·.toNat ≠ 0)

theorem visible_cons (h : c.toNat ≠ 0) (w : List Char) : visible (c :: w) = c :: visible w :=
  List.takeWhile_cons_of_pos (decide_eq_true h)

theorem cutFreq_cons (h : c ≠ ':') (f : List Char) :
    cutFreq flag (c :: f) = c :: cutFreq flag f := by
  cases flag
  · simp only [cutFreq, Bool.false_eq_true, if_false]
    exact List.takeWhile_cons_of_pos (decide_eq_true h)
  · rfl

/-- A character of one byte that is no space is no delimiter. -/
theorem isDelimiter_of_size_one (h : d.utf8Size = 1) : isDelimiter d = decide (d = ' ') := by
  have hwide : ¬wideDelimiters.contains d = true := by
    intro hmem
    rw [List.contains_iff_mem] at hmem
    simp only [wideDelimiters, List.mem_cons, List.not_mem_nil, or_false] at hmem
    rcases hmem with rfl | rfl | rfl | rfl <;> exact absurd h (by decide)
  rw [isDelimiter, Bool.eq_false_iff.mpr hwide, Bool.or_false]

/-- What a call that begins at `cs` should do. -/
structure ReadsField (flag cut : Bool) (cs w r : List Char) : Prop where
  field : cut = false → visible w = cutFreq flag (firstField cs)
  rest : fields r = fields (behindField cs)

theorem ReadsField.cons (hcolon : c ≠ ':') (hd : isDelimiter c = false) (hnul : c.toNat ≠ 0)
    (h : ReadsField flag cut cs w r) : ReadsField flag cut (c :: cs) (c :: w) r := by
  refine ⟨fun hcut => ?_, ?_⟩
  · rw [visible_cons hnul, firstField_cons, hd, h.field hcut]
    exact (cutFreq_cons hcolon _).symm
  · rw [h.rest, behindField_cons, hd]
    rfl

theorem cut_of_ne_colon (hd : isDelimiter c = false) (hcolon : c ≠ ':') :
    (!isDelimiter c && (cut || (c = ':' && !flag))) = cut := by
  rw [hd, decide_eq_false hcolon]
  cases cut <;> rfl

/-- Nothing is left of the end of a text. -/
theorem charScan_end (h : cs = [] ∨ cs = ['＊']) : CharScan flag cs [] [] := by
  rcases h with rfl | rfl
  · exact .stop
  · exact .delimiter rfl

theorem charScan_of_inSteps (cs : List Char) (hnul : ∀ c ∈ cs, c.toNat ≠ 0)
    (h : InSteps flag cut cs) :
    ∃ w r, CharScan flag cs w r ∧ ReadsField flag cut cs w r ∧ InSteps flag false r := by
  induction hn : cs.length using Nat.strong_induction_on generalizing cs cut with
  | _ n ih =>
      rcases cs with _ | ⟨c, cs⟩
      · exact ⟨[], [], .stop, ⟨fun _ => by cases flag <;> rfl, rfl⟩, h⟩
      obtain ⟨h4, h2, hrest⟩ := h
      rw [List.length_cons] at hn
      have hnul' : ∀ c ∈ cs, c.toNat ≠ 0 := fun d hd => hnul d (List.mem_cons_of_mem c hd)
      have hc0 : c.toNat ≠ 0 := hnul c List.mem_cons_self
      by_cases hcolon : c = ':'
      · subst hcolon
        obtain ⟨w, r, hscan, hreads, hr⟩ := ih cs.length (by omega) cs hnul' hrest rfl
        refine ⟨_, r, .colon hscan, ⟨fun hcut => ?_, hreads.rest⟩, hr⟩
        subst hcut
        cases flag
        · rfl
        · exact congrArg (':' :: ·) (hreads.field rfl)
      by_cases hd : isDelimiter c = true
      · rw [hd] at hrest
        refine ⟨[], cs, .delimiter hd, ⟨fun _ => ?_, ?_⟩, hrest⟩
        · rw [firstField_cons, if_pos hd]
          cases flag <;> rfl
        · rw [behindField_cons, if_pos hd]
      rw [Bool.not_eq_true] at hd
      rw [cut_of_ne_colon hd hcolon] at hrest
      by_cases hsize : c.utf8Size = 2
      · rcases cs with _ | ⟨d, cs⟩
        · exact (h2 hsize).elim
        obtain ⟨hd1, hcut, hspace⟩ := h2 hsize
        obtain ⟨-, -, hrest⟩ := hrest
        have hd0 : d.toNat ≠ 0 := hnul' d List.mem_cons_self
        have hnul'' : ∀ c ∈ cs, c.toNat ≠ 0 := fun e he => hnul' e (List.mem_cons_of_mem d he)
        rw [List.length_cons] at hn
        by_cases hdspace : d = ' '
        · -- the space is copied, but the field is cut and nothing is left
          subst hdspace
          obtain ⟨rfl, hend⟩ := hspace rfl
          refine ⟨_, [], .two hsize hd1 (charScan_end hend), ⟨fun h => (nomatch h), ?_⟩, trivial⟩
          rw [behindField_cons, hd, behindField_cons, fields_nil]
          exact (fields_of_end hend).symm
        have hdd : isDelimiter d = false := by
          rw [isDelimiter_of_size_one hd1, decide_eq_false hdspace]
        by_cases hdcolon : d = ':'
        · subst hdcolon
          obtain ⟨w, r, hscan, hreads, hr⟩ := ih cs.length (by omega) cs hnul'' hrest rfl
          have hreads' : ReadsField flag cut (':' :: cs) (':' :: w) r := by
            refine ⟨fun hopen => ?_, hreads.rest⟩
            subst hopen
            obtain rfl : flag = true := (hcut rfl).resolve_right (by decide)
            exact congrArg (':' :: ·) (hreads.field rfl)
          exact ⟨_, r, .two hsize hd1 hscan, hreads'.cons hcolon hd hc0, hr⟩
        · rw [cut_of_ne_colon hdd hdcolon] at hrest
          obtain ⟨w, r, hscan, hreads, hr⟩ := ih cs.length (by omega) cs hnul'' hrest rfl
          exact ⟨_, r, .two hsize hd1 hscan,
            (hreads.cons hdcolon hdd hd0).cons hcolon hd hc0, hr⟩
      · have hsize' : c.utf8Size = 1 ∨ c.utf8Size = 3 := by
          rcases c.utf8Size_eq with h1 | h2 | h3 | h4' <;> omega
        obtain ⟨w, r, hscan, hreads, hr⟩ := ih cs.length (by omega) cs hnul' hrest rfl
        exact ⟨_, r, .one hsize' hcolon hd hscan, hreads.cons hcolon hd hc0, hr⟩

/-- A character that is copied keeps the condition. -/
theorem InSteps.cons (hcolon : c ≠ ':') (hd : isDelimiter c = false) (h4 : c.utf8Size ≠ 4)
    (h2 : c.utf8Size = 2 → MayFollow flag cut cs) (h : InSteps flag cut cs) :
    InSteps flag cut (c :: cs) := by
  refine ⟨h4, h2, ?_⟩
  rw [cut_of_ne_colon hd hcolon]
  exact h

theorem InSteps.colon (h : InSteps flag (cut || !flag) cs) : InSteps flag cut (':' :: cs) :=
  ⟨by decide, fun h2 => absurd h2 (by decide), h⟩

theorem InSteps.delimiter (hd : isDelimiter c = true) (h : InSteps flag false cs) :
    InSteps flag cut (c :: cs) := by
  have hsize := size_of_isDelimiter hd
  refine ⟨by omega, fun h2 => by omega, ?_⟩
  rw [hd]
  exact h

/-- What a field holds behind a character that is copied. -/
theorem field_of_cons (hcolon : c ≠ ':') (hd : isDelimiter c = false) (hnul : c.toNat ≠ 0)
    (h : cut = false → visible (c :: w) = cutFreq flag (firstField (c :: cs))) :
    cut = false → visible w = cutFreq flag (firstField cs) := by
  intro hopen
  have hf := h hopen
  rw [visible_cons hnul, firstField_cons, hd] at hf
  exact (List.cons.inj (hf.trans (cutFreq_cons hcolon _))).2

theorem field_of_colon (h : flag = true → cut = false →
      visible (':' :: w) = cutFreq flag (firstField (':' :: cs))) :
    (cut || !flag) = false → visible w = cutFreq flag (firstField cs) := by
  intro hopen
  obtain ⟨rfl, hflag⟩ := Bool.or_eq_false_iff.mp hopen
  obtain rfl : flag = true := by simpa using hflag
  exact (List.cons.inj (h rfl rfl)).2

/-- Where a space is copied and no field is lost, the field is cut and nothing is left. -/
theorem CharScan.behind_space (h : CharScan flag cs w r)
    (hfield : cut = false → visible (' ' :: w) = cutFreq flag (firstField (' ' :: cs)))
    (hcount : (fields cs).length ≤ (fields r).length) :
    cut = true ∧ (cs = [] ∨ cs = ['＊']) ∧ r = [] := by
  have hcut : cut = true := by
    rw [← Bool.not_eq_false]
    intro hopen
    have hf := hfield hopen
    rw [visible_cons (by decide), firstField_cons] at hf
    cases flag <;> cases hf
  have hend : cs = [] ∨ cs = ['＊'] := by
    by_contra hmore
    have hlen := length_fields_le_of_suffix h.suffix
    rw [fields_of_not_end hmore, List.length_cons] at hcount
    omega
  have hnone : behindField cs = [] := by rcases hend with rfl | rfl <;> rfl
  exact ⟨hcut, hend, List.suffix_nil.mp (hnone ▸ h.suffix)⟩

/-- The converse: if not too few fields are left, the condition holds up to there. -/
theorem inSteps_of_charScan (h : CharScan flag cs w r) (hnul : ∀ c ∈ cs, c.toNat ≠ 0)
    (hfield : cut = false → visible w = cutFreq flag (firstField cs))
    (hcount : (fields (behindField cs)).length ≤ (fields r).length) :
    fields r = fields (behindField cs) ∧ (InSteps flag false r → InSteps flag cut cs) := by
  induction h generalizing cut with
  | stop => exact ⟨rfl, id⟩
  | @colon cs w r h ih =>
      have hnul' : ∀ c ∈ cs, c.toNat ≠ 0 := fun d hd => hnul d (List.mem_cons_of_mem _ hd)
      obtain ⟨hrest, hsteps⟩ := @ih (cut || !flag) hnul' (field_of_colon fun hflag hopen => by
        subst hflag
        exact hfield hopen) hcount
      exact ⟨hrest, fun hr => (hsteps hr).colon⟩
  | @delimiter c cs hc =>
      exact ⟨by rw [behindField_cons, if_pos hc], fun hr => .delimiter hc hr⟩
  | @one c cs w r hsize hc hd h ih =>
      have hnul' : ∀ c ∈ cs, c.toNat ≠ 0 := fun d hd => hnul d (List.mem_cons_of_mem _ hd)
      rw [behindField_cons, hd] at hcount ⊢
      obtain ⟨hrest, hsteps⟩ := @ih cut hnul'
        (field_of_cons hc hd (hnul c List.mem_cons_self) hfield) hcount
      exact ⟨hrest, fun hr => .cons hc hd (by omega) (fun h2 => by omega) (hsteps hr)⟩
  | @two c d cs w r hc hd h ih =>
      have hnul' : ∀ c ∈ cs, c.toNat ≠ 0 := fun e he =>
        hnul e (List.mem_cons_of_mem c (List.mem_cons_of_mem d he))
      have hd0 : d.toNat ≠ 0 := hnul d (List.mem_cons_of_mem c List.mem_cons_self)
      have hcd : isDelimiter c = false := not_isDelimiter_of_size (by omega) (by omega)
      have hcolon : c ≠ ':' := by
        rintro rfl
        exact absurd hc (by decide)
      rw [behindField_cons, hcd] at hcount ⊢
      have hfield' := field_of_cons hcolon hcd (hnul c List.mem_cons_self) hfield
      have hdd := isDelimiter_of_size_one hd
      by_cases hdspace : d = ' '
      · subst hdspace
        obtain ⟨hcut, hend, rfl⟩ := h.behind_space hfield' hcount
        refine ⟨(fields_of_end hend).symm ▸ fields_nil, fun _ => .cons hcolon hcd (by omega)
          (fun _ => ⟨hd, fun hcol => absurd hcol (by decide), fun _ => ⟨hcut, hend⟩⟩)
          (.delimiter rfl ?_)⟩
        rcases hend with rfl | rfl
        · trivial
        · exact .delimiter rfl trivial
      rw [decide_eq_false hdspace] at hdd
      rw [behindField_cons, hdd] at hcount ⊢
      by_cases hdcolon : d = ':'
      · subst hdcolon
        have hcut : flag = true ∨ cut = true := by
          by_contra hnot
          obtain ⟨hflag, hopen⟩ := not_or.mp hnot
          have hf := hfield' (Bool.eq_false_of_not_eq_true hopen)
          rw [visible_cons hd0, Bool.eq_false_of_not_eq_true hflag] at hf
          cases hf
        obtain ⟨hrest, hsteps⟩ := @ih (cut || !flag) hnul' (field_of_colon fun _ => hfield') hcount
        exact ⟨hrest, fun hr => .cons hcolon hcd (by omega)
          (fun _ => ⟨hd, fun _ => hcut, fun hsp => absurd hsp (by decide)⟩) (hsteps hr).colon⟩
      · obtain ⟨hrest, hsteps⟩ := @ih cut hnul' (field_of_cons hdcolon hdd hd0 hfield') hcount
        exact ⟨hrest, fun hr => .cons hcolon hcd (by omega)
          (fun _ => ⟨hd, fun hcol => absurd hcol hdcolon, fun hsp => absurd hsp hdspace⟩)
          (.cons hdcolon hdd (by omega) (fun h2 => by omega) (hsteps hr))⟩

end Fields

/-! ## All calls -/

section Calls

variable {flag : Bool} {cs w r : List Char} {s : IpalScan} {calls : List IpalScan} {n : Nat}

theorem ipalCalls_end (h : cs = [] ∨ cs = ['＊']) (n : Nat) :
    ipalCalls flag (n + 1) (encode cs) = some [] := by
  have hend : encode cs = [] ∨ encode cs = encode ['＊'] := h.imp (congrArg encode) (congrArg encode)
  rw [ipalCalls, extractIpalStr, if_pos hend]

theorem ipalCalls_next (h : ¬(cs = [] ∨ cs = ['＊'])) (n : Nat) :
    ipalCalls flag (n + 1) (encode cs) = (scanIpal flag (encode cs)).bind fun s =>
      (ipalCalls flag n s.rest).map (s :: ·) := by
  have hend : ¬(encode cs = [] ∨ encode cs = encode ['＊']) := fun hor =>
    h (hor.imp encode_eq_nil_iff.mp fun heq => encode_injective heq)
  rw [ipalCalls, extractIpalStr, if_neg hend]
  cases scanIpal flag (encode cs) <;> rfl

theorem string_of_ret (h : s.ret = encode w) : s.string = encode (visible w) := by
  rw [IpalScan.string, h]
  exact takeWhile_encode w

theorem calls_of_inSteps (hnul : ∀ c ∈ cs, c.toNat ≠ 0) (h : InSteps flag false cs)
    (hn : cs.length < n) : ∃ calls, ipalCalls flag n (encode cs) = some calls ∧
      calls.map IpalScan.string = (fields cs).map (fun f => encode (cutFreq flag f)) ∧
      ∀ s ∈ calls, ∀ dat ∈ s.heads, AtBoundary dat := by
  induction n generalizing cs with
  | zero => exact absurd hn (Nat.not_lt_zero _)
  | succ n ih =>
      by_cases hend : cs = [] ∨ cs = ['＊']
      · refine ⟨[], ipalCalls_end hend n, ?_, List.forall_mem_nil _⟩
        rw [fields_of_end hend]
        rfl
      · obtain ⟨w, r, hscan, hreads, hr⟩ := charScan_of_inSteps cs hnul h
        obtain ⟨s, hs, hret, hrest, hb⟩ := scan_of_charScan hscan
        have hlen := hscan.length_lt fun hnil => hend (Or.inl hnil)
        have hnul' : ∀ c ∈ r, c.toNat ≠ 0 := fun c hc =>
          hnul c ((hscan.suffix.trans (behindField_suffix cs)).subset hc)
        obtain ⟨calls, hcalls, hstrings, hbs⟩ := ih hnul' hr (by omega)
        refine ⟨s :: calls, ?_, ?_, List.forall_mem_cons.mpr ⟨hb, hbs⟩⟩
        · rw [ipalCalls_next hend, hs, Option.bind_some, hrest, hcalls]
          rfl
        · rw [List.map_cons, hstrings, string_of_ret hret, hreads.field rfl, hreads.rest,
            fields_of_not_end hend, List.map_cons]

/-- The first call, and the others. -/
theorem calls_cases (hend : ¬(cs = [] ∨ cs = ['＊']))
    (h : ipalCalls flag (n + 1) (encode cs) = some calls)
    (hb : ∀ s ∈ calls, ∀ dat ∈ s.heads, AtBoundary dat) :
    ∃ s rest w r, calls = s :: rest ∧ CharScan flag cs w r ∧ s.string = encode (visible w) ∧
      ipalCalls flag n (encode r) = some rest := by
  rw [ipalCalls_next hend] at h
  obtain ⟨s, hs, hcalls⟩ := Option.bind_eq_some_iff.mp h
  obtain ⟨rest, hrest, rfl⟩ := Option.map_eq_some_iff.mp hcalls
  obtain ⟨w, r, hscan, hret, hr⟩ := charScan_of_scan cs hs (hb s List.mem_cons_self)
  exact ⟨s, rest, w, r, rfl, hscan, string_of_ret hret, hr ▸ hrest⟩

/-- There are not more calls than fields. -/
theorem length_calls_le (h : ipalCalls flag n (encode cs) = some calls)
    (hb : ∀ s ∈ calls, ∀ dat ∈ s.heads, AtBoundary dat) :
    calls.length ≤ (fields cs).length := by
  induction n generalizing cs calls with
  | zero => cases h
  | succ n ih =>
      by_cases hend : cs = [] ∨ cs = ['＊']
      · rw [ipalCalls_end hend] at h
        cases h
        exact Nat.zero_le _
      · obtain ⟨s, rest, w, r, rfl, hscan, -, hrest⟩ := calls_cases hend h hb
        have hle := ih hrest fun s' hs' => hb s' (List.mem_cons_of_mem s hs')
        rw [fields_of_not_end hend, List.length_cons, List.length_cons]
        exact Nat.succ_le_succ (hle.trans (length_fields_le_of_suffix hscan.suffix))

theorem inSteps_of_calls (hnul : ∀ c ∈ cs, c.toNat ≠ 0)
    (h : ipalCalls flag n (encode cs) = some calls)
    (hb : ∀ s ∈ calls, ∀ dat ∈ s.heads, AtBoundary dat)
    (hstrings : calls.map IpalScan.string = (fields cs).map fun f => encode (cutFreq flag f)) :
    InSteps flag false cs := by
  induction n generalizing cs calls with
  | zero => cases h
  | succ n ih =>
      by_cases hend : cs = [] ∨ cs = ['＊']
      · rcases hend with rfl | rfl
        · trivial
        · exact ⟨by decide, fun h2 => absurd h2 (by decide), trivial⟩
      · obtain ⟨s, rest, w, r, rfl, hscan, hstring, hrest⟩ := calls_cases hend h hb
        have hb' : ∀ s' ∈ rest, ∀ dat ∈ s'.heads, AtBoundary dat :=
          fun s' hs' => hb s' (List.mem_cons_of_mem s hs')
        rw [fields_of_not_end hend, List.map_cons, List.map_cons] at hstrings
        obtain ⟨hfirst, hothers⟩ := List.cons.inj hstrings
        have hvisible : visible w = cutFreq flag (firstField cs) :=
          encode_injective (hstring.symm.trans hfirst)
        have hcount : (fields (behindField cs)).length ≤ (fields r).length := by
          have hlen := congrArg List.length hothers
          rw [List.length_map, List.length_map] at hlen
          exact hlen.symm.le.trans (length_calls_le hrest hb')
        have hnul' : ∀ c ∈ r, c.toNat ≠ 0 := fun c hc =>
          hnul c ((hscan.suffix.trans (behindField_suffix cs)).subset hc)
        obtain ⟨hfields, hsteps⟩ := inSteps_of_charScan hscan hnul (fun _ => hvisible) hcount
        rw [← hfields] at hothers
        exact hsteps (ih hnul' hrest hb' hothers)

theorem length_le_encode (cs : List Char) : cs.length ≤ (encode cs).length := by
  induction cs with
  | nil => exact le_rfl
  | cons c cs ih =>
      have hpos := List.length_pos_iff.mpr (String.utf8EncodeChar_ne_nil (c := c))
      rw [encode_cons, List.length_append, List.length_cons]
      omega

end Calls

/-- The fields are read just if the scanner is in step with the characters. -/
theorem yieldsFields_iff (flag : Bool) (t : FieldText) :
    (∃ calls, YieldsFields flag t calls) ↔ InSteps flag false t.chars := by
  constructor
  · rintro ⟨calls, hcalls, hstrings, hb⟩
    exact inSteps_of_calls t.noNul hcalls hb hstrings
  · intro h
    obtain ⟨calls, hcalls, hstrings, hb⟩ :=
      calls_of_inSteps t.noNul h (Nat.lt_succ_of_le (length_le_encode t.chars))
    exact ⟨calls, hcalls, hstrings, hb⟩

/-- A letter of two bytes. -/
def alphaText : FieldText := ⟨['α'], List.forall_mem_singleton.mpr (by decide)⟩

/-- The byte behind the NUL is read. -/
theorem alphaText_overruns : scanIpal true (encode alphaText.chars) = none ∧
    ∀ flag calls, ¬YieldsFields flag alphaText calls := by
  refine ⟨by decide, fun flag calls h => ?_⟩
  have hnone : ipalCalls flag ((encode alphaText.chars).length + 1) (encode alphaText.chars) =
      none := by cases flag <;> decide
  rw [h.returns] at hnone
  cases hnone

end Knp
