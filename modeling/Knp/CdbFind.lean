import Knp.Cdb

/-!
# Searching a constant database (`cdb_init.c`, `cdb_find.c`)

The slots of the table for the key are read from the file, from the home of the key on, and
each record with the number of the key is compared with it.

> In a file that was made of a sequence of records a key is found exactly if a record has
> it, and the value is that of the first one.

A search runs into neither of the checks that report a broken file.
-/

namespace Knp.Tinycdb

/-- `struct cdb` after `cdb_init` -/
structure Cdb where
  mem : List UInt8
  fsize : Nat
  dend : Nat

/-- `cdb_unpack` of the bytes at a position. -/
def unpackAt (mem : List UInt8) (pos : Nat) : Nat := Bytes.getInt ((mem.drop pos).take 4)

/-- `cdb_init`; undefined where it returns -1. -/
def cdbInit (file : List UInt8) : Option Cdb :=
  if file.length < 2048 then none
  else
    let fsize := if file.length < 0xffffffff then file.length else 0xffffffff
    let dend := unpackAt file 0
    some ⟨file, fsize, if dend < 2048 then 2048 else if dend ≥ fsize then fsize else dend⟩

/-- `cdb_kpos`, `cdb_klen`, `cdb_vpos` and `cdb_vlen` -/
structure Found where
  kpos : Nat
  klen : Nat
  vpos : Nat
  vlen : Nat
deriving DecidableEq

/-- What `cdb_find` returns: 0, -1 or 1. -/
inductive Answer
  | notFound
  | eproto
  | found (f : Found)
deriving DecidableEq

/-- The record at a position, which has the number of the key; `none` when it has another
key. The differences are unsigned. -/
def checkRecord (c : Cdb) (key : List UInt8) (pos : Nat) : Option Answer :=
  let klen := key.length
  if pos > c.dend - 8 then some .eproto
  else if unpackAt c.mem pos = klen then
    if c.dend - klen < pos + 8 then some .eproto
    else if key = (c.mem.drop (pos + 8)).take klen then
      let n := unpackAt c.mem (pos + 4)
      let pos := pos + 8
      if c.dend < n ∨ c.dend - n < pos + klen then some .eproto
      else some (.found ⟨pos, klen, pos + klen, n⟩)
    else none
  else none

/-- The loop over `todo` slots of the table from `htab` to `htend`. -/
def findLoop (c : Cdb) (key : List UInt8) (hval : UInt32) (htab htend : Nat) : Nat → Nat → Answer
  | 0, _ => .notFound
  | todo + 1, htp =>
      let pos := unpackAt c.mem (htp + 4)
      if pos = 0 then .notFound
      else
        let answer := if unpackAt c.mem htp = hval.toNat then checkRecord c key pos else none
        match answer with
        | some answer => answer
        | none =>
            findLoop c key hval htab htend todo (if htp + 8 ≥ htend then htab else htp + 8)

/-- `cdb_find` -/
def cdbFind (c : Cdb) (key : List UInt8) : Answer :=
  if key.length ≥ c.dend then .notFound
  else
    let hval := cdbHash key
    let htp := (hval <<< 3 &&& 2047).toNat
    let n := unpackAt c.mem (htp + 4)
    if n = 0 then .notFound
    else
      let httodo := n * 8 % 2 ^ 32
      let pos := unpackAt c.mem htp
      if n > c.fsize / 8 ∨ pos < c.dend ∨ pos > c.fsize ∨ httodo > c.fsize - pos then .eproto
      else findLoop c key hval pos (pos + httodo) n (pos + (hval >>> 8).toNat % n * 8)

/-- `cdb_read` -/
def cdbRead (c : Cdb) (len pos : Nat) : Option (List UInt8) :=
  if pos > c.fsize ∨ c.fsize - pos < len then none else some ((c.mem.drop pos).take len)

/-- What is read of an answer that something was found. -/
def readFound (c : Cdb) : Answer → Option (List UInt8)
  | .found f => cdbRead c f.vlen f.vpos
  | _ => none

/-! ## What the file has where -/

section File

variable {rs : List Record} {htab : Nat → Nat → CdbRec} {F rest : List UInt8} {key : List UInt8}

theorem unpackAt_of_drop {n pos : Nat} (hn : n < 2 ^ 32) (h : F.drop pos = Bytes.putInt n ++ rest) :
    unpackAt F pos = n := by
  rw [unpackAt, h, Bytes.getInt_take_append hn]

theorem drop_add {pos d : Nat} {s : List UInt8} (h : F.drop pos = s ++ rest) (hd : s.length = d) :
    F.drop (pos + d) = rest := by
  rw [← List.drop_drop, h, List.drop_left' hd]

theorem length_of_drop {pos : Nat} {s : List UInt8} (h : F.drop pos = s ++ rest)
    (hpos : pos ≤ F.length) : pos + s.length ≤ F.length := by
  have := congrArg List.length h
  rw [List.length_drop, List.length_append] at this
  omega

/-- The entries of the contents and the tables they stand for. -/
theorem toc_table : ∀ {ts : List Nat} {at' pos i t : Nat}, ts[i]? = some t →
    pos + tablesSize rs ts < 2 ^ 32 →
    (∃ rest, F.drop at' = tocBytes (tocFrom rs pos ts) ++ rest) →
    F.drop pos = (ts.flatMap fun t => tableBytes (tableLen rs t) (htab t)) → pos ≤ F.length →
    ∃ q rest, unpackAt F (at' + 8 * i) = q ∧ unpackAt F (at' + 8 * i + 4) = tableLen rs t ∧
      pos ≤ q ∧ q + 8 * tableLen rs t ≤ F.length ∧ q + 8 * tableLen rs t < 2 ^ 32 ∧
      F.drop q = tableBytes (tableLen rs t) (htab t) ++ rest
  | u :: ts, at', pos, 0, t, ht, hfit, ⟨rest, htoc⟩, htab, hpos => by
      cases ht
      rw [tablesSize, List.map_cons, List.sum_cons] at hfit
      rw [tocFrom, tocBytes, List.flatMap_cons, List.append_assoc, List.append_assoc] at htoc
      rw [List.flatMap_cons] at htab
      have hlen := length_of_drop htab hpos
      rw [tableBytes_length] at hlen
      refine ⟨pos, _, unpackAt_of_drop (by omega) htoc, ?_, le_rfl, hlen, by omega, htab⟩
      exact unpackAt_of_drop (by omega) (drop_add htoc (Bytes.putInt_length _))
  | u :: ts, at', pos, i + 1, t, ht, hfit, ⟨rest, htoc⟩, htab, hpos => by
      rw [tablesSize, List.map_cons, List.sum_cons] at hfit
      rw [tocFrom, tocBytes, List.flatMap_cons, List.append_assoc] at htoc
      rw [List.flatMap_cons] at htab
      have hlen := length_of_drop htab hpos
      rw [tableBytes_length] at hlen
      obtain ⟨q, rest', hq, hqlen, hle, hrest⟩ := @toc_table ts (at' + 8)
        (pos + 8 * tableLen rs u) i t ht (by rw [tablesSize]; omega)
        ⟨rest, drop_add htoc rfl⟩ (drop_add htab (tableBytes_length _ _)) hlen
      rw [show at' + 8 + 8 * i = at' + 8 * (i + 1) by omega] at hq hqlen
      exact ⟨q, rest', hq, hqlen, by omega, hrest⟩

/-- The slots of a table. -/
theorem table_slot {len q i : Nat} {tab : Nat → CdbRec} (hi : i < len)
    (hpos : ∀ i, (tab i).rpos < 2 ^ 32) (h : F.drop q = tableBytes len tab ++ rest) :
    unpackAt F (q + 8 * i) = (tab i).hval.toNat ∧ unpackAt F (q + 8 * i + 4) = (tab i).rpos := by
  have hdrop : F.drop (q + 8 * i) = Bytes.putInt (tab i).hval.toNat ++ (Bytes.putInt (tab i).rpos ++
      (((List.range len).drop (i + 1)).flatMap (fun i => slotBytes (tab i)) ++ rest)) := by
    rw [← List.drop_drop, h, tableBytes, Bytes.drop_blocks (fun i => slotBytes_length (tab i)) i _ _
        (by rw [List.length_range]; omega),
      List.drop_eq_getElem_cons (by rwa [List.length_range]), List.getElem_range,
      List.flatMap_cons, slotBytes]
    simp only [List.append_assoc]
  exact ⟨unpackAt_of_drop (tab i).hval.toNat_lt hdrop,
    unpackAt_of_drop (hpos i) (drop_add hdrop (Bytes.putInt_length _))⟩

/-! ## The records -/

/-- Where the records with a key lie that are written from `pos` on. -/
def foundFrom (key : List UInt8) : Nat → List Record → List Found
  | _, [] => []
  | pos, r :: rs =>
      if r.key = key then
        ⟨pos + 8, key.length, pos + 8 + key.length, r.val.length⟩ ::
          foundFrom key (pos + recSize r) rs
      else foundFrom key (pos + recSize r) rs

/-- What the search makes of a slot. -/
def slotAnswer (c : Cdb) (key : List UInt8) (r : CdbRec) : Option Answer :=
  if r.hval = cdbHash key then checkRecord c key r.rpos else none

variable {c : Cdb}

/-- The parts of a record in the file. -/
theorem drop_record {r : Record} {pos : Nat} (h : F.drop pos = recBytes r ++ rest) :
    F.drop pos = Bytes.putInt r.key.length ++ (Bytes.putInt r.val.length ++
        (r.key ++ (r.val ++ rest))) ∧
      F.drop (pos + 4) = Bytes.putInt r.val.length ++ (r.key ++ (r.val ++ rest)) ∧
      F.drop (pos + 8) = r.key ++ (r.val ++ rest) ∧
      F.drop (pos + 8 + r.key.length) = r.val ++ rest := by
  simp only [recBytes, List.append_assoc] at h
  have h4 := drop_add h (Bytes.putInt_length _)
  have h8 : F.drop (pos + 8) = r.key ++ (r.val ++ rest) :=
    @drop_add F _ (pos + 4) _ _ h4 (Bytes.putInt_length _)
  exact ⟨h, h4, h8, drop_add h8 rfl⟩

/-- A record that lies before the end of the data. -/
theorem checkRecord_eq {r : Record} {pos : Nat} (h : c.mem.drop pos = recBytes r ++ rest)
    (hend : pos + recSize r ≤ c.dend) (hfit : c.dend < 2 ^ 32) :
    checkRecord c key pos = if r.key = key then
      some (.found ⟨pos + 8, key.length, pos + 8 + key.length, r.val.length⟩) else none := by
  rw [recSize] at hend
  obtain ⟨h0, h4, h8, -⟩ := drop_record h
  have hklen := unpackAt_of_drop (by omega) h0
  have hvlen := unpackAt_of_drop (by omega) h4
  have h1 : ¬pos > c.dend - 8 := by omega
  unfold checkRecord
  simp only [if_neg h1, hklen, hvlen, h8]
  by_cases hkey : r.key = key
  · have h2 : ¬c.dend - key.length < pos + 8 := by rw [← hkey]; omega
    have h3 : ¬(c.dend < r.val.length ∨ c.dend - r.val.length < pos + 8 + key.length) := by
      rw [← hkey]
      omega
    rw [if_pos (congrArg List.length hkey), if_neg h2, if_neg h3, if_pos hkey, ← hkey,
      if_pos (List.take_left' rfl).symm]
  · rw [if_neg hkey]
    by_cases hlen : r.key.length = key.length
    · have htake : ¬key = (r.key ++ (r.val ++ rest)).take key.length := fun htake =>
        hkey (by rw [htake, ← hlen, List.take_left' rfl])
      rw [if_pos hlen, if_neg (by omega), if_neg htake]
    · rw [if_neg hlen]

/-- What the slots of all records give. -/
theorem filterMap_placed : ∀ {rs : List Record} {pos : Nat},
    c.mem.drop pos = rs.flatMap recBytes ++ rest → pos + dataSize rs ≤ c.dend → c.dend < 2 ^ 32 →
    (placed pos rs).filterMap (slotAnswer c key) = (foundFrom key pos rs).map .found
  | [], _, _, _, _ => rfl
  | r :: rs, pos, h, hend, hfit => by
      rw [dataSize, List.map_cons, List.sum_cons] at hend
      rw [List.flatMap_cons, List.append_assoc] at h
      have ih := @filterMap_placed rs _ (drop_add h (recBytes_length r))
        (by rw [dataSize]; omega) hfit
      have hrecord := @checkRecord_eq _ key _ _ _ h (by omega) hfit
      rw [placed, List.filterMap_cons, slotAnswer, foundFrom]
      by_cases hkey : r.key = key
      · rw [if_pos (congrArg cdbHash hkey), hrecord, if_pos hkey, if_pos hkey]
        exact congrArg _ ih
      · simp only [hrecord, if_neg hkey, ite_self]
        exact ih

/-- The values that lie there. -/
theorem read_foundFrom : ∀ {rs : List Record} {pos : Nat},
    c.mem.drop pos = rs.flatMap recBytes ++ rest → pos + dataSize rs ≤ c.fsize →
    (foundFrom key pos rs).map (fun f => cdbRead c f.vlen f.vpos) =
      (rs.filter fun r => r.key = key).map fun r => some r.val
  | [], _, _, _ => rfl
  | r :: rs, pos, h, hend => by
      rw [dataSize, List.map_cons, List.sum_cons] at hend
      rw [List.flatMap_cons, List.append_assoc] at h
      have ih := @read_foundFrom rs _ (drop_add h (recBytes_length r))
        (by rw [dataSize]; omega)
      rw [foundFrom]
      by_cases hkey : r.key = key
      · obtain ⟨-, -, -, hval⟩ := drop_record h
        rw [recSize] at hend
        have hread : cdbRead c r.val.length (pos + 8 + key.length) = some r.val := by
          rw [cdbRead, ← hkey, if_neg (by omega), hval, List.take_left' rfl]
        rw [if_pos hkey, List.filter_cons_of_pos (by simpa using hkey), List.map_cons,
          List.map_cons, hread, ih]
      · rw [if_neg hkey, List.filter_cons_of_neg (by simpa using hkey), ih]

end File

/-! ## The search -/

/-- The loop walks through the slots of the table. -/
theorem findLoop_eq {c : Cdb} {key : List UInt8} {tab : Nat → CdbRec} {n q : Nat}
    (hslot : ∀ i < n, unpackAt c.mem (q + 8 * i) = (tab i).hval.toNat ∧
      unpackAt c.mem (q + 8 * i + 4) = (tab i).rpos) :
    ∀ {todo hi : Nat}, hi < n →
      findLoop c key (cdbHash key) q (q + n * 8) todo (q + hi * 8) =
        ((ProbeTable.walk n (slots tab) todo hi).filterMap (slotAnswer c key)).headD .notFound
  | 0, _, _ => rfl
  | todo + 1, hi, hhi => by
      obtain ⟨hhval, hrpos⟩ := hslot hi hhi
      rw [Nat.mul_comm 8 hi] at hhval hrpos
      rw [findLoop, ProbeTable.walk]
      simp only [hhval, hrpos]
      by_cases h0 : (tab hi).rpos = 0
      · have hfree : slots tab hi = none := if_pos h0
        rw [if_pos h0, hfree]
        rfl
      · have htaken : slots tab hi = some (tab hi) := if_neg h0
        have hnext : (if q + hi * 8 + 8 ≥ q + n * 8 then q else q + hi * 8 + 8) =
            q + ProbeTable.next n hi * 8 := by
          rw [ProbeTable.next]
          split_ifs <;> omega
        have hanswer : (if (tab hi).hval.toNat = (cdbHash key).toNat then
            checkRecord c key (tab hi).rpos else none) = slotAnswer c key (tab hi) := by
          simp only [slotAnswer, UInt32.toNat_inj]
        rw [if_neg h0, htaken, hanswer, hnext, findLoop_eq hslot (ProbeTable.next_lt hhi)]
        simp only [List.filterMap_cons]
        cases slotAnswer c key (tab hi) <;> rfl

/-- The place of a number in the contents. -/
theorem toc_index (h : UInt32) : (h <<< 3 &&& 2047).toNat = 8 * (h &&& 255).toNat := by
  rw [UInt32.toNat_and, UInt32.toNat_and, UInt32.toNat_shiftLeft]
  have h2047 : UInt32.toNat 2047 = 2 ^ 11 - 1 := rfl
  have h255 : UInt32.toNat 255 = 2 ^ 8 - 1 := rfl
  have h3 : UInt32.toNat 3 % 32 = 3 := rfl
  rw [h2047, h255, h3, Nat.and_two_pow_sub_one_eq_mod, Nat.and_two_pow_sub_one_eq_mod,
    Nat.shiftLeft_eq]
  omega

section Made

variable {rs : List Record} {htab : Nat → Nat → CdbRec}

theorem cdbFile_length (rs : List Record) (htab : Nat → Nat → CdbRec) :
    (cdbFile rs htab).length = cdbSize rs := by
  have htables : ∀ ts : List Nat, (ts.flatMap fun t => tableBytes (tableLen rs t)
      (htab t)).length = tablesSize rs ts := by
    intro ts
    rw [tablesSize, List.length_flatMap]
    simp only [tableBytes_length]
  rw [cdbFile, List.length_append, List.length_append, tocBytes_length, tocFrom_length,
    length_recBytes, htables, tablesSize_eq, List.length_range, cdbSize]
  omega

/-- Behind the contents. -/
theorem drop_cdbFile (rs : List Record) (htab : Nat → Nat → CdbRec) :
    (cdbFile rs htab).drop 2048 = rs.flatMap recBytes ++ (List.range 256).flatMap fun t =>
      tableBytes (tableLen rs t) (htab t) :=
  List.drop_left' (by rw [tocBytes_length, tocFrom_length, List.length_range])

/-- What `cdb_init` makes of the file. -/
theorem cdbInit_cdbFile (hfit : cdbSize rs < 2 ^ 32) :
    ∃ c, cdbInit (cdbFile rs htab) = some c ∧ c.mem = cdbFile rs htab ∧
      c.fsize = cdbSize rs ∧ c.dend = 2048 + dataSize rs := by
  have hdend : unpackAt (cdbFile rs htab) 0 = 2048 + dataSize rs :=
    unpackAt_of_drop (by rw [cdbSize] at hfit; omega) rfl
  unfold cdbInit
  rw [cdbFile_length, hdend]
  rw [cdbSize] at hfit ⊢
  refine ⟨_, if_neg (by omega), rfl, ?_, ?_⟩
  · dsimp only
    split_ifs <;> omega
  · dsimp only
    split_ifs <;> omega

theorem slotAnswer_hval {c : Cdb} {key : List UInt8} {r : CdbRec}
    (h : (slotAnswer c key r).isSome) : r.hval = cdbHash key := by
  rw [slotAnswer] at h
  split_ifs at h with hhval
  · exact hhval
  · cases h

/-- All records with the number of the key are in its table. -/
theorem filterMap_tableRecs (c : Cdb) (key : List UInt8) (rs : List Record) :
    (tableRecs rs (cdbHash key &&& 255).toNat).filterMap (slotAnswer c key) =
      (placed 2048 rs).filterMap (slotAnswer c key) := by
  rw [tableRecs, List.filterMap_filter]
  congr 1
  funext r
  split_ifs with ht
  · rfl
  · cases hanswer : slotAnswer c key r with
    | none => rfl
    | some answer =>
        rw [decide_eq_true_eq, slotAnswer_hval (by rw [hanswer]; rfl)] at ht
        exact absurd rfl ht

/-- A key that is longer than the data is in no record. -/
theorem foundFrom_of_long {key : List UInt8} : ∀ {rs : List Record} {pos : Nat},
    dataSize rs < key.length → foundFrom key pos rs = []
  | [], _, _ => rfl
  | r :: rs, pos, h => by
      rw [dataSize, List.map_cons, List.sum_cons, recSize] at h
      have hkey : r.key ≠ key := by
        rintro rfl
        omega
      rw [foundFrom, if_neg hkey]
      exact foundFrom_of_long (by rw [dataSize]; omega)

/-- `cdb_find` in a file that was made. -/
theorem cdbFind_cdbFile {c : Cdb} (hfit : cdbSize rs < 2 ^ 32)
    (hold : ∀ t, ProbeTable.Holds (tableLen rs t) (home (tableLen rs t)) (slots (htab t))
      (tableRecs rs t))
    (hmem : c.mem = cdbFile rs htab) (hfsize : c.fsize = cdbSize rs)
    (hdend : c.dend = 2048 + dataSize rs) (key : List UInt8) :
    cdbFind c key = ((foundFrom key 2048 rs).map .found).headD .notFound := by
  have hlength := cdbFile_length rs htab
  rw [← hmem] at hlength
  have hfit' := hfit
  rw [cdbSize] at hfit'
  have htoc : c.mem.drop 0 = tocBytes (tocFrom rs (2048 + dataSize rs) (List.range 256)) ++
      (rs.flatMap recBytes ++ (List.range 256).flatMap fun t =>
        tableBytes (tableLen rs t) (htab t)) := by rw [hmem]; rfl
  have hdata := drop_cdbFile rs htab
  rw [← hmem] at hdata
  have hfound := @filterMap_placed _ key _ _ _ hdata hdend.ge (by omega)
  rw [← filterMap_tableRecs] at hfound
  have ht : (cdbHash key &&& 255).toNat < 256 := by
    rw [UInt32.toNat_and]
    exact lt_of_le_of_lt Nat.and_le_right (by decide)
  generalize hteq : (cdbHash key &&& 255).toNat = t at *
  obtain ⟨q, rest, hq, hn, hle, hend, hq32, htable⟩ := @toc_table rs htab c.mem _
    0 _ _ _ (List.getElem?_range ht)
    (by rw [tablesSize_eq]; omega) ⟨_, htoc⟩ (drop_add hdata (length_recBytes rs))
    (by rw [hlength, cdbSize]; omega)
  rw [Nat.zero_add] at hq hn
  have hlen : 2 * (tableRecs rs t).length = tableLen rs t := rfl
  unfold cdbFind
  simp only [toc_index, hteq, hq, hn]
  split_ifs with hlong h0 herr
  · rw [foundFrom_of_long (by omega)]
    rfl
  · rw [← hfound, List.length_eq_zero_iff.mp (by omega : (tableRecs rs t).length = 0)]
    rfl
  · rw [Nat.mod_eq_of_lt (by omega), hfsize, ← hlength, hdend] at herr
    omega
  · have hrpos : ∀ i, (htab t i).rpos < 2 ^ 32 := by
      intro i
      by_cases h : (htab t i).rpos = 0
      · omega
      · have hmem := (hold t).mem i (htab t i) (if_neg h)
        have := rpos_lt (List.mem_filter.mp hmem).1
        omega
    rw [Nat.mod_eq_of_lt (by omega), findLoop_eq (fun i hi => table_slot hi hrpos htable)
        (Nat.mod_lt _ (by omega)),
      (hold t).filterMap_walk (Nat.mod_lt _ (by omega)) (fun r hr => by
        rw [home, slotAnswer_hval hr]), hfound]

/-- A key has the value of the first record with it. -/
theorem cdbFind_cdbMake (rs : List Record) (hfit : cdbSize rs < 2 ^ 32) :
    ∃ file c, cdbMake rs = some file ∧ cdbInit file = some c ∧ ∀ key,
      cdbFind c key ≠ .eproto ∧
      readFound c (cdbFind c key) = (rs.find? fun r => r.key = key).map Record.val := by
  obtain ⟨htab, hmake, hold⟩ := cdbMake_eq hfit
  obtain ⟨c, hinit, hmem, hfsize, hdend⟩ := @cdbInit_cdbFile rs htab hfit
  refine ⟨_, c, hmake, hinit, fun key => ?_⟩
  have hdata := drop_cdbFile rs htab
  rw [← hmem] at hdata
  have hread := @read_foundFrom _ key _ _ _ hdata (by rw [hfsize, cdbSize]; omega)
  rw [cdbFind_cdbFile hfit hold hmem hfsize hdend, ← List.head?_filter]
  cases hfs : foundFrom key 2048 rs with
  | nil =>
      rw [hfs] at hread
      rw [List.map_eq_nil_iff.mp hread.symm]
      exact ⟨by simp, rfl⟩
  | cons f fs =>
      rw [hfs] at hread
      obtain ⟨r, rs', hfilter, hr, -⟩ := List.map_eq_cons_iff.mp hread.symm
      rw [hfilter]
      exact ⟨by simp, hr.symm⟩

end Made

end Knp.Tinycdb
