import Knp.CdbFind
import Knp.Scanf

/-!
# Making a database of a text (`make_db.c`, `db.c` with `CDB`)

The lines of the text have a key and a content. As long as the key is that of the line before,
the content is merged into what was kept; at another key what was kept is put into the database.

> A key has the contents of the first run of lines with it, merged. What a later run has
> is never found.

The database does not rewrite: a second record with a key is put behind the first. The
compression of `-z` is left out.
-/

namespace Knp

open Tinycdb (Record CdbMake cdbSize)

/-! ## The database -/

/-- `db_put`: what `cdb_make_add` returns is not looked at. -/
def dbPut (db : CdbMake) (r : Record) : CdbMake := (Tinycdb.cdbMakeAdd db r).getD db

/-- `db_close` of a database that was written; undefined where the file has no contents. -/
def dbClose (db : CdbMake) : Option (List UInt8) := Tinycdb.cdbMakeFinish db

/-- `db_read_open` and `db_get` -/
def dbGet (file key : List UInt8) : Option (List UInt8) :=
  (Tinycdb.cdbInit file).bind fun c => Tinycdb.readFound c (Tinycdb.cdbFind c key)

theorem foldl_dbPut {rs : List Record} : ∀ {db db' : CdbMake},
    rs.foldlM Tinycdb.cdbMakeAdd db = some db' → rs.foldl dbPut db = db' := by
  induction rs with
  | nil =>
      rintro db db' ⟨⟩
      rfl
  | cons r rs ih =>
      intro db db' h
      rw [List.foldlM_cons] at h
      cases hadd : Tinycdb.cdbMakeAdd db r with
      | none =>
          rw [hadd] at h
          cases h
      | some db'' =>
          rw [hadd] at h
          rw [List.foldl_cons, dbPut, hadd]
          exact ih h

/-- What was put is found. -/
theorem dbGet_of_puts {rs : List Record} (hfit : cdbSize rs < 2 ^ 32) :
    ∃ file, dbClose (rs.foldl dbPut Tinycdb.cdbMakeStart) = some file ∧
      ∀ key, dbGet file key = (rs.find? fun r => r.key = key).map Record.val := by
  obtain ⟨file, c, hmake, hinit, hfind⟩ := Tinycdb.cdbFind_cdbMake rs hfit
  obtain ⟨db, hadds, hfinish⟩ := Option.bind_eq_some_iff.mp hmake
  refine ⟨file, by rw [foldl_dbPut hadds]; exact hfinish, fun key => ?_⟩
  rw [dbGet, hinit]
  exact (hfind key).2

theorem dbGet_of_puts_twice : ∃ file,
    dbClose ([⟨[97], [49]⟩, ⟨[98], [50]⟩, ⟨[97], [51]⟩].foldl dbPut Tinycdb.cdbMakeStart) =
      some file ∧ dbGet file [97] = some [49] ∧ dbGet file [99] = none := by
  obtain ⟨file, hclose, hget⟩ :=
    @dbGet_of_puts [⟨[97], [49]⟩, ⟨[98], [50]⟩, ⟨[97], [51]⟩] (by decide)
  exact ⟨file, hclose, hget [97], hget [99]⟩

/-! ## `make_db.c` -/

def DBM_KEY_MAX : Nat := 2048

def DBM_CON_MAX : Nat := 6553600

/-- The string in a buffer. -/
def cString (buffer : List UInt8) : List UInt8 := buffer.takeWhile (· ≠ 0)

/-- A buffer into which a string is copied. -/
def copyString (s buffer : List UInt8) : List UInt8 := s ++ 0 :: buffer.drop (s.length + 1)

/-- `Type`: `DBM_APPEND`, with the separator, `DBM_AND` and `DBM_OR` -/
inductive DbmType
  | append (separator : List UInt8)
  | and
  | or

/-- `content_process` of the buffer `content`, where a string was kept. -/
def contentProcess (type : DbmType) (content preContent : List UInt8) : List UInt8 :=
  match type with
  | .append separator => preContent ++ separator ++ cString content
  | .and => preContent.mapIdx fun i c => if content[i]? = some 48 then 48 else c
  | .or => preContent.mapIdx fun i c => if content[i]? = some 49 then 49 else c

/-- The variables of `main`; `preKey` is empty until a line was read. -/
structure DbText where
  key : List UInt8
  content : List UInt8
  preKey : List UInt8
  preContent : List UInt8
  db : CdbMake

/-- 書き込み -/
def DbText.flush (s : DbText) : DbText :=
  if s.preKey ≠ [] then { s with db := dbPut s.db ⟨s.preKey, s.preContent⟩ } else s

/-- `sscanf(buffer, "%s %[^\n]", key, content)` -/
def DbText.scan (s : DbText) (buffer : List UInt8) : DbText :=
  match Scanf.scan [.str, .space, .until 10] buffer with
  | [.str key, .str content] => { s with key := key, content := copyString content s.content }
  | [.str key] => { s with key := key }
  | _ => s

/-- One line; undefined where the program ends or a key does not fit. -/
def DbText.line (type : DbmType) (s : DbText) (line : List UInt8) : Option DbText :=
  if line.length ≥ DBM_CON_MAX - 1 then none
  else
    let buffer := cString line
    match buffer.idxOf? 32 with
    | none => some s
    | some n =>
        let s := s.scan buffer
        if n ≥ DBM_KEY_MAX ∨ s.key.length ≥ DBM_KEY_MAX then none
        -- 直前のkeyと同じなら連結して保存
        else if s.preKey = s.key then
          some { s with preContent := contentProcess type s.content s.preContent }
        else some { s.flush with preKey := s.key, preContent := cString s.content }

/-- `main`; the buffers begin with what happens to be in them. -/
def makeDb (type : DbmType) (key content : List UInt8) (text : List (List UInt8)) :
    Option (List UInt8) := do
  let s ← text.foldlM (DbText.line type) ⟨key, content, [], [], Tinycdb.cdbMakeStart⟩
  dbClose s.flush.db

/-! ## A text of lines with key and content -/

structure DbLine where
  key : List UInt8
  content : List UInt8
  isWord : Scanf.IsWord key
  head : ∀ c ∈ content.head?, Scanf.isSpace c = false
  content_ne : content ≠ []
  noNul : 0 ∉ key ∧ 0 ∉ content
  noNewline : 10 ∉ content
  key_short : key.length < DBM_KEY_MAX
  short : key.length + content.length + 2 < DBM_CON_MAX - 1

def DbLine.text (l : DbLine) : List UInt8 := l.key ++ 32 :: (l.content ++ [10])

/-- What the lines from the one on add to a value, as long as they have the key. -/
def mergeRun (type : DbmType) (key : List UInt8) (ls : List DbLine) (val : List UInt8) :
    List UInt8 :=
  (ls.takeWhile fun l => l.key = key).foldl (fun v l => contentProcess type l.content v) val

/-- The contents of the first run of lines with a key, merged. -/
def firstRun (type : DbmType) (key : List UInt8) (ls : List DbLine) : Option (List UInt8) :=
  match ls.dropWhile fun l => l.key ≠ key with
  | [] => none
  | l :: ls => some (mergeRun type key ls l.content)

/-- What is put, when the record `r` is kept. -/
def recordsFrom (type : DbmType) : Record → List DbLine → List Record
  | r, [] => [r]
  | r, l :: ls =>
      if r.key = l.key then recordsFrom type ⟨r.key, contentProcess type l.content r.val⟩ ls
      else r :: recordsFrom type ⟨l.key, l.content⟩ ls

def records (type : DbmType) : List DbLine → List Record
  | [] => []
  | l :: ls => recordsFrom type ⟨l.key, l.content⟩ ls

section Text

variable {type : DbmType} {key : List UInt8}

theorem firstRun_cons (l : DbLine) (ls : List DbLine) : firstRun type key (l :: ls) =
    if l.key = key then some (mergeRun type key ls l.content) else firstRun type key ls := by
  unfold firstRun
  split_ifs with hk
  · rw [List.dropWhile_cons_of_neg (by simp [hk])]
  · rw [List.dropWhile_cons_of_pos (by simp [hk])]

theorem find_recordsFrom : ∀ {ls : List DbLine} {r : Record},
    ((recordsFrom type r ls).find? fun r => r.key = key).map Record.val =
      if r.key = key then some (mergeRun type key ls r.val) else firstRun type key ls
  | [], r => by
      rw [recordsFrom, List.find?_cons]
      by_cases hr : r.key = key <;> simp [hr, mergeRun, firstRun]
  | l :: ls, r => by
      rw [recordsFrom, firstRun_cons]
      by_cases hl : r.key = l.key
      · rw [if_pos hl, find_recordsFrom, hl]
        split_ifs with hr
        · rw [mergeRun, mergeRun, List.takeWhile_cons_of_pos (by simp [hr]), List.foldl_cons]
        · rfl
      · rw [if_neg hl]
        by_cases hr : r.key = key
        · rw [List.find?_cons_of_pos (by simp [hr]), if_pos hr, mergeRun,
            List.takeWhile_cons_of_neg (by simp [← hr, Ne.symm hl])]
          rfl
        · rw [List.find?_cons_of_neg (by simp [hr]), find_recordsFrom, if_neg hr]

theorem find_records (ls : List DbLine) :
    ((records type ls).find? fun r => r.key = key).map Record.val = firstRun type key ls := by
  cases ls with
  | nil => rfl
  | cons l ls => rw [records, find_recordsFrom, firstRun_cons]

/-- Vectors of length `n`, where vectors are merged. -/
def FitsDbm (type : DbmType) (n : Nat) (s : List UInt8) : Prop :=
  match type with
  | .append _ => True
  | _ => s.length = n

theorem cString_of_notMem {s : List UInt8} (h : 0 ∉ s) : cString s = s :=
  List.takeWhile_eq_self_iff.mpr fun c hc => by
    rw [decide_eq_true_eq]
    rintro rfl
    exact h hc

theorem cString_copyString {s : List UInt8} (h : 0 ∉ s) (buffer : List UInt8) :
    cString (copyString s buffer) = s := by
  have hall : ∀ c ∈ s, decide (c ≠ 0) = true := fun c hc => by
    rw [decide_eq_true_eq]
    rintro rfl
    exact h hc
  exact Scanf.takeWhile_append_cons hall (by decide)

variable {n : Nat} {content pre : List UInt8}

/-- What lies in the buffer behind the string does not count. -/
theorem contentProcess_copyString (buffer : List UInt8) (hcontent : FitsDbm type n content)
    (hpre : FitsDbm type n pre) (h : 0 ∉ content) :
    contentProcess type (copyString content buffer) pre = contentProcess type content pre := by
  have hmap : content.length = n → pre.length = n → ∀ b : UInt8,
      (pre.mapIdx fun i c => if (copyString content buffer)[i]? = some b then b else c) =
        pre.mapIdx fun i c => if content[i]? = some b then b else c := by
    intro hc hp b
    refine List.ext_getElem (by simp) fun i hi _ => ?_
    rw [List.length_mapIdx] at hi
    have hbyte : (copyString content buffer)[i]? = content[i]? :=
      List.getElem?_append_left (by omega)
    rw [List.getElem_mapIdx, List.getElem_mapIdx, hbyte]
  cases type with
  | append separator =>
      rw [contentProcess, contentProcess, cString_copyString h, cString_of_notMem h]
  | and => exact hmap hcontent hpre 48
  | or => exact hmap hcontent hpre 49

theorem FitsDbm.contentProcess (hpre : FitsDbm type n pre) (content : List UInt8) :
    FitsDbm type n (contentProcess type content pre) := by
  cases type with
  | append _ => trivial
  | _ => exact List.length_mapIdx.trans hpre

/-- A line is separated at its first space. -/
theorem scan_dbLine (s : DbText) (l : DbLine) :
    s.scan l.text = { s with key := l.key, content := copyString l.content s.content } := by
  obtain ⟨c, content, hl⟩ := List.exists_cons_of_ne_nil l.content_ne
  have hspace : (32 :: (l.content ++ [10])).dropWhile Scanf.isSpace = l.content ++ [10] := by
    have hc : Scanf.isSpace c = false := l.head c (by rw [hl]; rfl)
    rw [List.dropWhile_cons_of_pos (by decide), hl]
    exact List.dropWhile_cons_of_neg (by simp [hc])
  have hscan : Scanf.scan [.str, .space, .until 10] l.text = [.str l.key, .str l.content] := by
    rw [DbLine.text, Scanf.scan_str l.isWord (by decide), Scanf.scan, hspace,
      Scanf.scan_until l.content_ne l.noNewline]
    rfl
  rw [DbText.scan, hscan]

/-- What a line does. -/
theorem line_dbLine (s : DbText) (l : DbLine) : s.line type l.text =
    some (if s.preKey = l.key then { s.scan l.text with
        preContent := contentProcess type (copyString l.content s.content) s.preContent }
      else { (s.scan l.text).flush with preKey := l.key, preContent := l.content }) := by
  have hshort := l.short
  have hlen : l.text.length = l.key.length + l.content.length + 2 := by simp [DbLine.text]; omega
  have hnul : 0 ∉ l.text := by
    have := l.noNul
    simp [DbLine.text, this]
  have hspace : (32 : UInt8) ∉ l.key := fun hmem => absurd (l.isWord.noSpace 32 hmem) (by decide)
  have hidx : l.text.idxOf? 32 = some l.key.length := by
    have hall : ∀ c ∈ l.key, (c == 32) = false := fun c hc => beq_eq_false_iff_ne.mpr fun h =>
      hspace (h ▸ hc)
    rw [DbLine.text, List.idxOf?, List.findIdx?_append, List.findIdx?_eq_none_iff.mpr hall,
      List.findIdx?_cons]
    simp
  unfold DbText.line
  have hkey := l.key_short
  simp only [if_neg (show ¬l.text.length ≥ DBM_CON_MAX - 1 by omega), cString_of_notMem hnul, hidx,
    scan_dbLine, if_neg (show ¬(l.key.length ≥ DBM_KEY_MAX ∨ l.key.length ≥ DBM_KEY_MAX) by omega),
    cString_copyString l.noNul.2]
  split_ifs <;> rfl

/-- While the lines are read, what was put and what is kept give the records. -/
theorem lines_put {s : DbText} {r : Record} {ls : List DbLine} (hkey : s.preKey = r.key)
    (hval : s.preContent = r.val) (hr : r.key ≠ []) (hfits : FitsDbm type n r.val)
    (hls : ∀ l ∈ ls, FitsDbm type n l.content) :
    ∃ s', (ls.map DbLine.text).foldlM (DbText.line type) s = some s' ∧
      s'.flush.db = (recordsFrom type r ls).foldl dbPut s.db := by
  induction ls generalizing s r with
  | nil =>
      refine ⟨s, rfl, ?_⟩
      rw [DbText.flush, if_pos (hkey ▸ hr), hkey, hval]
      rfl
  | cons l ls ih =>
      have hl := hls l List.mem_cons_self
      have hrest := fun l' hl' => hls l' (List.mem_cons_of_mem l hl')
      rw [List.map_cons, List.foldlM_cons, line_dbLine, recordsFrom, hkey, hval]
      by_cases hk : r.key = l.key
      · rw [if_pos hk, if_pos hk,
          contentProcess_copyString s.content hl hfits l.noNul.2]
        obtain ⟨s', hs', hdb⟩ := ih (s := { s.scan l.text with
            preContent := contentProcess type l.content r.val })
          (r := ⟨r.key, contentProcess type l.content r.val⟩) (by rw [scan_dbLine]; exact hkey) rfl
          hr (hfits.contentProcess l.content) hrest
        exact ⟨s', hs', by rw [hdb, scan_dbLine]⟩
      · rw [if_neg hk, if_neg hk]
        obtain ⟨s', hs', hdb⟩ := ih (s := { (s.scan l.text).flush with
            preKey := l.key, preContent := l.content })
          (r := ⟨l.key, l.content⟩) rfl rfl l.isWord.ne_nil hl hrest
        refine ⟨s', hs', ?_⟩
        rw [hdb, scan_dbLine, DbText.flush, if_pos (hkey ▸ hr), List.foldl_cons, hkey, hval]

theorem flush_of_nil {s : DbText} (h : s.preKey = []) : s.flush = s := by
  rw [DbText.flush, if_neg (not_not.mpr h)]

theorem makeDb_of_lines {content : List UInt8} {text : List (List UInt8)} {s : DbText}
    (h : text.foldlM (DbText.line type) ⟨key, content, [], [], Tinycdb.cdbMakeStart⟩ = some s) :
    makeDb type key content text = dbClose s.flush.db := by
  rw [makeDb, h]
  rfl

/-- The database that is made of a text gives each key what its first run of lines has. -/
theorem makeDb_get (type : DbmType) (n : Nat) (key content : List UInt8) (ls : List DbLine)
    (hfits : ∀ l ∈ ls, FitsDbm type n l.content) (hsize : cdbSize (records type ls) < 2 ^ 32) :
    ∃ file, makeDb type key content (ls.map DbLine.text) = some file ∧
      ∀ k, dbGet file k = firstRun type k ls := by
  obtain ⟨file, c, hmake, hinit, hfind⟩ := Tinycdb.cdbFind_cdbMake _ hsize
  obtain ⟨db, hadds, hfinish⟩ := Option.bind_eq_some_iff.mp hmake
  have hget : ∀ k, dbGet file k = firstRun type k ls := fun k => by
    rw [dbGet, hinit, ← find_records]
    exact (hfind k).2
  refine ⟨file, ?_, hget⟩
  cases ls with
  | nil =>
      have hdb : db = Tinycdb.cdbMakeStart := (Option.some.inj hadds).symm
      rw [List.map_nil, makeDb_of_lines rfl, flush_of_nil rfl, dbClose, ← hdb, hfinish]
  | cons l ls =>
      obtain ⟨s', hs', hdb⟩ := lines_put
        (s := ⟨l.key, copyString l.content content, l.key, l.content, Tinycdb.cdbMakeStart⟩)
        (r := ⟨l.key, l.content⟩) rfl rfl l.isWord.ne_nil (hfits l List.mem_cons_self)
        fun l' hl' => hfits l' (List.mem_cons_of_mem l hl')
      have hne : ([] : List UInt8) ≠ l.key := l.isWord.ne_nil.symm
      rw [makeDb_of_lines (s := s') (by
        rw [List.map_cons, List.foldlM_cons, line_dbLine, if_neg hne, scan_dbLine, flush_of_nil rfl]
        exact hs'), dbClose, hdb]
      dsimp only
      rw [← records, foldl_dbPut hadds, hfinish]

/-- A line with a key and a content of one character. -/
def shortLine (k c : UInt8) (hk : Scanf.isSpace k = false ∧ k ≠ 0)
    (hc : Scanf.isSpace c = false ∧ c ≠ 0 ∧ c ≠ 10) : DbLine where
  key := [k]
  content := [c]
  isWord := ⟨List.cons_ne_nil k [], List.forall_mem_singleton.mpr hk.1⟩
  head := fun _ h => Option.some.inj h ▸ hc.1
  content_ne := List.cons_ne_nil c []
  noNul := ⟨by simpa using hk.2.symm, by simpa using hc.2.1.symm⟩
  noNewline := by simpa using hc.2.2.symm
  key_short := by simp [DBM_KEY_MAX]
  short := by simp [DBM_CON_MAX]

/-- `a 1`, `a 2`, `b 3`, `a 4` with a slash as separator. -/
theorem makeDb_get_runs : ∃ file, makeDb (.append [47]) [] []
    [[97, 32, 49, 10], [97, 32, 50, 10], [98, 32, 51, 10], [97, 32, 52, 10]] = some file ∧
      dbGet file [97] = some [49, 47, 50] ∧ dbGet file [98] = some [51] := by
  obtain ⟨file, hmake, hget⟩ := makeDb_get (.append [47]) 0 [] []
    [shortLine 97 49 (by decide) (by decide), shortLine 97 50 (by decide) (by decide),
      shortLine 98 51 (by decide) (by decide), shortLine 97 52 (by decide) (by decide)]
    (fun _ _ => trivial) (by decide)
  exact ⟨file, hmake, hget [97], hget [98]⟩

end Text

end Knp
