import Knp.Bytes
import Knp.ProbeTable
import Mathlib.Algebra.Order.Group.Nat
import Mathlib.Algebra.BigOperators.Group.Finset.Basic
import Mathlib.Algebra.BigOperators.Ring.List
import Mathlib.Data.UInt

/-!
# Writing a constant database (`cdb_make.c`, `cdb_make_add.c`, `cdb_hash.c`)

A database is a file: the table of contents, the records, and 256 hash tables. A record
is written when it is added, from the byte 2048 on, and the number of its key is kept with
its position. `cdb_make_finish` makes of these numbers a table of twice as many slots for each
of the 256 values of the low byte, and writes the contents in front.

> What a file of a sequence of records has at each of the positions is given by the
> sequence (`cdbMake_eq`), if all fits in 32 bits.

The guard of `cdb_make_finish` counts 8 bytes for a record, and the tables take 16: it lets
through what does not fit. Reading and writing of the descriptor do not fail here.
-/

namespace Knp.Tinycdb

/-- `cdb_hash` -/
def cdbHash (buf : List UInt8) : UInt32 :=
  buf.foldl (fun hash c => (hash + (hash <<< 5)) ^^^ c.toUInt32) 5381

/-- `struct cdb_rec`; the position 0 is a free slot. -/
structure CdbRec where
  hval : UInt32
  rpos : Nat
deriving DecidableEq

/-- A key with its value. -/
structure Record where
  key : List UInt8
  val : List UInt8
deriving DecidableEq

/-- The records of a `struct cdb_rl`. -/
def CDB_RL : Nat := 254

/-- `cdb_buf` -/
def CDB_BUF : Nat := 4096

/-- `struct cdb_make`: `buf` is `cdb_buf` up to `cdb_bpos`, `file` what is in the file. -/
structure CdbMake where
  file : List UInt8
  dpos : Nat
  rcnt : Nat
  buf : List UInt8
  recs : Nat → List (List CdbRec)

/-- `cdb_make_start` -/
def cdbMakeStart : CdbMake := ⟨[], 2048, 0, List.replicate 2048 0, fun _ => []⟩

/-- `_cdb_make_write`: a full buffer is written, and then whole buffers of the rest. -/
def cdbMakeWrite (c : CdbMake) (ptr : List UInt8) : CdbMake :=
  let l := CDB_BUF - c.buf.length
  let dpos := (c.dpos + ptr.length) % 2 ^ 32
  if ptr.length > l then
    let file := c.file ++ (c.buf ++ ptr.take l)
    let rest := ptr.drop l
    let l := rest.length / CDB_BUF * CDB_BUF
    { c with dpos := dpos, file := file ++ rest.take l, buf := rest.drop l }
  else { c with dpos := dpos, buf := c.buf ++ ptr }

/-- A new `struct cdb_rl` in front when the first one is full. -/
def pushRec (r : CdbRec) : List (List CdbRec) → List (List CdbRec)
  | [] => [[r]]
  | rl :: rest => if rl.length ≥ CDB_RL then [r] :: rl :: rest else (rl ++ [r]) :: rest

/-- `cdb_make_add`; undefined where it returns -1. -/
def cdbMakeAdd (c : CdbMake) (r : Record) : Option CdbMake :=
  let klen := r.key.length
  let vlen := r.val.length
  if klen > 0xffffffff - (c.dpos + 8) % 2 ^ 32 ∨
      vlen > 0xffffffff - (c.dpos + klen + 8) % 2 ^ 32 then none
  else
    let hval := cdbHash r.key
    let i := (hval &&& 255).toNat
    let c := { c with
      rcnt := c.rcnt + 1
      recs := Function.update c.recs i (pushRec ⟨hval, c.dpos⟩ (c.recs i)) }
    let c := cdbMakeWrite c (Bytes.putInt klen ++ Bytes.putInt vlen)
    some (cdbMakeWrite (cdbMakeWrite c r.key) r.val)

/-! ## `cdb_make_finish` -/

/-- `while(htab[hi].rpos)` -/
def placeLoop (len : Nat) (htab : Nat → CdbRec) : Nat → Nat → Option Nat
  | 0, _ => none
  | fuel + 1, hi =>
      if (htab hi).rpos ≠ 0 then placeLoop len htab fuel (ProbeTable.next len hi) else some hi

/-- The slot of a record; undefined when the loop does not end. -/
def place (len : Nat) (htab : Nat → CdbRec) (r : CdbRec) : Option (Nat → CdbRec) :=
  (placeLoop len htab len ((r.hval >>> 8).toNat % len)).map fun hi => Function.update htab hi r

/-- build hash tables -/
def buildTable (len : Nat) (recs : List CdbRec) : Option (Nat → CdbRec) :=
  recs.foldlM (place len) fun _ => ⟨0, 0⟩

def slotBytes (r : CdbRec) : List UInt8 := Bytes.putInt r.hval.toNat ++ Bytes.putInt r.rpos

def tableBytes (len : Nat) (htab : Nat → CdbRec) : List UInt8 :=
  (List.range len).flatMap fun i => slotBytes (htab i)

/-- The records of a list of `struct cdb_rl`, which is reversed. -/
def recsOf (rls : List (List CdbRec)) : List CdbRec := rls.reverse.flatten

/-- One table: what is written for it. -/
def finishTable (c : CdbMake) (t : Nat) : Option CdbMake :=
  let recs := recsOf (c.recs t)
  let len := 2 * recs.length
  if len = 0 then some c
  else (buildTable len recs).map fun htab => cdbMakeWrite c (tableBytes len htab)

/-- The loop over the tables: what is written, and the entries of the contents. -/
def finishTables : List Nat → CdbMake → Option (CdbMake × List (Nat × Nat))
  | [], c => some (c, [])
  | t :: ts, c => do
      let c' ← finishTable c t
      let (c'', toc) ← finishTables ts c'
      return (c'', (c.dpos, 2 * (recsOf (c.recs t)).length) :: toc)

def tocBytes (toc : List (Nat × Nat)) : List UInt8 :=
  toc.flatMap fun p => Bytes.putInt p.1 ++ Bytes.putInt p.2

/-- `cdb_make_finish`: the file; undefined where it returns -1. -/
def cdbMakeFinish (c : CdbMake) : Option (List UInt8) :=
  if (0xffffffff - c.dpos) / 8 < c.rcnt then none
  else do
    let (c, toc) ← finishTables (List.range 256) c
    return tocBytes toc ++ (c.file ++ c.buf).drop 2048

/-- The file that a sequence of records is made into. -/
def cdbMake (rs : List Record) : Option (List UInt8) := do
  cdbMakeFinish (← rs.foldlM cdbMakeAdd cdbMakeStart)

/-! ## What has been written -/

/-- All bytes written so far, in the file or not. -/
def CdbMake.written (c : CdbMake) : List UInt8 := c.file ++ c.buf

@[simp] theorem cdbMakeWrite_written (c : CdbMake) (ptr : List UInt8) :
    (cdbMakeWrite c ptr).written = c.written ++ ptr := by
  unfold cdbMakeWrite CdbMake.written
  dsimp only
  split_ifs
  · simp only [List.append_assoc, List.take_append_drop]
  · rw [List.append_assoc]

@[simp] theorem cdbMakeWrite_dpos (c : CdbMake) (ptr : List UInt8) :
    (cdbMakeWrite c ptr).dpos = (c.dpos + ptr.length) % 2 ^ 32 := by
  unfold cdbMakeWrite
  dsimp only
  split_ifs <;> rfl

@[simp] theorem cdbMakeWrite_rcnt (c : CdbMake) (ptr : List UInt8) :
    (cdbMakeWrite c ptr).rcnt = c.rcnt := by
  unfold cdbMakeWrite
  dsimp only
  split_ifs <;> rfl

@[simp] theorem cdbMakeWrite_recs (c : CdbMake) (ptr : List UInt8) :
    (cdbMakeWrite c ptr).recs = c.recs := by
  unfold cdbMakeWrite
  dsimp only
  split_ifs <;> rfl

theorem recsOf_pushRec (r : CdbRec) : ∀ rls : List (List CdbRec),
    recsOf (pushRec r rls) = recsOf rls ++ [r]
  | [] => rfl
  | rl :: rest => by
      unfold recsOf
      rw [pushRec]
      split_ifs
      · rw [List.reverse_cons, List.flatten_append, List.flatten_singleton]
      · simp only [List.reverse_cons, List.flatten_append, List.flatten_singleton,
          List.append_assoc]

/-! ## The records in the file -/

def recBytes (r : Record) : List UInt8 :=
  Bytes.putInt r.key.length ++ Bytes.putInt r.val.length ++ r.key ++ r.val

def recSize (r : Record) : Nat := 8 + r.key.length + r.val.length

/-- What the records take up. -/
def dataSize (rs : List Record) : Nat := (rs.map recSize).sum

/-- The length of the file: for each record two slots of 8 bytes. -/
def cdbSize (rs : List Record) : Nat := 2048 + dataSize rs + 16 * rs.length

/-- The numbers and positions of the records that are written from `pos` on. -/
def placed : Nat → List Record → List CdbRec
  | _, [] => []
  | pos, r :: rs => ⟨cdbHash r.key, pos⟩ :: placed (pos + recSize r) rs

/-- The records of a hash table. -/
def tableRecs (rs : List Record) (t : Nat) : List CdbRec :=
  (placed 2048 rs).filter fun r => (r.hval &&& 255).toNat = t

theorem recBytes_length (r : Record) : (recBytes r).length = recSize r := by
  simp only [recBytes, recSize, List.length_append, Bytes.putInt_length]

theorem length_recBytes : ∀ rs : List Record, (rs.flatMap recBytes).length = dataSize rs
  | [] => rfl
  | r :: rs => by
      rw [List.flatMap_cons, List.length_append, recBytes_length, length_recBytes rs]
      rfl

theorem dataSize_append (rs rs' : List Record) :
    dataSize (rs ++ rs') = dataSize rs + dataSize rs' := by
  rw [dataSize, List.map_append, List.sum_append]
  rfl

theorem dataSize_singleton (r : Record) : dataSize [r] = 8 + r.key.length + r.val.length := rfl

theorem placed_append (r : Record) : ∀ (pos : Nat) (rs : List Record),
    placed pos (rs ++ [r]) = placed pos rs ++ [⟨cdbHash r.key, pos + dataSize rs⟩]
  | _, [] => rfl
  | pos, r' :: rs => by
      rw [List.cons_append, placed, placed_append r _ rs, placed, List.cons_append]
      simp only [dataSize, List.map_cons, List.sum_cons, Nat.add_assoc]

theorem placed_length : ∀ (pos : Nat) (rs : List Record), (placed pos rs).length = rs.length
  | _, [] => rfl
  | pos, r :: rs => by rw [placed, List.length_cons, placed_length _ rs, List.length_cons]

theorem le_rpos {r : CdbRec} : ∀ {pos : Nat} {rs : List Record}, r ∈ placed pos rs → pos ≤ r.rpos
  | pos, r' :: rs, h => by
      rcases List.mem_cons.mp h with rfl | h
      · exact le_rfl
      · exact (Nat.le_add_right pos _).trans (le_rpos h)

theorem rpos_lt {r : CdbRec} : ∀ {pos : Nat} {rs : List Record}, r ∈ placed pos rs →
    r.rpos < pos + dataSize rs
  | pos, r' :: rs, h => by
      have hsize : dataSize (r' :: rs) = recSize r' + dataSize rs := rfl
      have hpos : 8 ≤ recSize r' := by rw [recSize]; omega
      rcases List.mem_cons.mp h with rfl | h
      · dsimp only
        omega
      · have := rpos_lt h
        omega

/-- What the state is after the records were added. -/
structure Made (c : CdbMake) (rs : List Record) : Prop where
  written : c.written = List.replicate 2048 0 ++ rs.flatMap recBytes
  dpos : c.dpos = 2048 + dataSize rs
  rcnt : c.rcnt = rs.length
  recs : ∀ t, recsOf (c.recs t) = tableRecs rs t

theorem made_start : Made cdbMakeStart [] where
  written := by
    simp only [CdbMake.written, cdbMakeStart, List.nil_append, List.flatMap_nil, List.append_nil]
  dpos := rfl
  rcnt := rfl
  recs := fun _ => rfl

/-- An added record is written behind the others, if there is room. -/
theorem Made.add {c : CdbMake} {rs : List Record} (hmade : Made c rs) (r : Record)
    (hfit : 2048 + dataSize (rs ++ [r]) < 2 ^ 32) :
    ∃ c', cdbMakeAdd c r = some c' ∧ Made c' (rs ++ [r]) := by
  rw [dataSize_append, dataSize_singleton] at hfit
  have hguard : ¬(r.key.length > 0xffffffff - (c.dpos + 8) % 2 ^ 32 ∨
      r.val.length > 0xffffffff - (c.dpos + r.key.length + 8) % 2 ^ 32) := by
    rw [hmade.dpos, Nat.mod_eq_of_lt (by omega), Nat.mod_eq_of_lt (by omega)]
    omega
  refine ⟨_, if_neg hguard, ?_, ?_, ?_, ?_⟩
  · simp only [cdbMakeWrite_written, List.flatMap_append, List.flatMap_singleton, recBytes]
    rw [← List.append_assoc (List.replicate 2048 0), ← hmade.written]
    simp only [CdbMake.written, List.append_assoc]
  · simp only [cdbMakeWrite_dpos, List.length_append, Bytes.putInt_length, hmade.dpos]
    rw [Nat.mod_eq_of_lt (by omega), Nat.mod_eq_of_lt (by omega), Nat.mod_eq_of_lt (by omega),
      dataSize_append, dataSize_singleton]
    omega
  · simp only [cdbMakeWrite_rcnt, hmade.rcnt, List.length_append, List.length_singleton]
  · intro t
    have hrecs := hmade.recs t
    simp only [cdbMakeWrite_recs, tableRecs, placed_append, List.filter_append] at hrecs ⊢
    by_cases ht : (cdbHash r.key &&& 255).toNat = t
    · subst ht
      rw [Function.update_self, recsOf_pushRec, hrecs, hmade.dpos,
        List.filter_cons_of_pos (by simp), List.filter_nil]
    · rw [Function.update_of_ne (Ne.symm ht), hrecs, List.filter_cons_of_neg (by simpa using ht),
        List.filter_nil, List.append_nil]

theorem Made.foldlM {c : CdbMake} {rs rs' : List Record} (hmade : Made c rs)
    (hfit : 2048 + dataSize (rs ++ rs') < 2 ^ 32) :
    ∃ c', rs'.foldlM cdbMakeAdd c = some c' ∧ Made c' (rs ++ rs') := by
  induction rs' generalizing c rs with
  | nil => exact ⟨c, rfl, by rwa [List.append_nil]⟩
  | cons r rs' ih =>
      have hcons : rs ++ r :: rs' = rs ++ [r] ++ rs' := List.append_cons rs r rs'
      rw [hcons] at hfit ⊢
      obtain ⟨c', hadd, hmade'⟩ := hmade.add r (by rw [dataSize_append] at hfit; omega)
      obtain ⟨c'', hadds, hmade''⟩ := ih hmade' hfit
      exact ⟨c'', by rw [List.foldlM_cons, hadd]; exact hadds, hmade''⟩

/-! ## The tables in the file -/

/-- A slot of a table as the general table sees it. -/
def slots (htab : Nat → CdbRec) : ProbeTable.Table CdbRec := fun i =>
  if (htab i).rpos = 0 then none else some (htab i)

/-- Where a search for a number begins in a table. -/
def home (len : Nat) (r : CdbRec) : Nat := (r.hval >>> 8).toNat % len

theorem placeLoop_eq (len : Nat) (htab : Nat → CdbRec) : ∀ fuel hi : Nat,
    placeLoop len htab fuel hi = ProbeTable.freeSlot len (slots htab) fuel hi
  | 0, _ => rfl
  | fuel + 1, hi => by
      rw [placeLoop, ProbeTable.freeSlot, slots]
      by_cases h : (htab hi).rpos = 0
      · rw [if_neg (not_not.mpr h), if_pos h]
      · rw [if_pos h, if_neg h]
        exact placeLoop_eq len htab fuel (ProbeTable.next len hi)

theorem slots_update {htab : Nat → CdbRec} {r : CdbRec} (hr : r.rpos ≠ 0) (hi : Nat) :
    slots (Function.update htab hi r) = Function.update (slots htab) hi (some r) := by
  funext i
  by_cases h : i = hi
  · subst h
    rw [slots, Function.update_self, Function.update_self, if_neg hr]
  · rw [slots, Function.update_of_ne h, Function.update_of_ne h]
    rfl

theorem place_slots {len : Nat} {htab : Nat → CdbRec} {r : CdbRec} (hr : r.rpos ≠ 0) :
    (place len htab r).map slots = ProbeTable.put len (home len) (slots htab) r := by
  rw [place, ProbeTable.put, placeLoop_eq, Option.map_map, home]
  exact Option.map_congr fun hi _ => slots_update hr hi

theorem foldlM_place {len : Nat} : ∀ {recs : List CdbRec} {htab : Nat → CdbRec},
    (∀ r ∈ recs, r.rpos ≠ 0) →
      (recs.foldlM (place len) htab).map slots =
        recs.foldlM (ProbeTable.put len (home len)) (slots htab)
  | [], _, _ => rfl
  | r :: recs, htab, h => by
      have hput := @place_slots len htab r (h r List.mem_cons_self)
      rw [List.foldlM_cons, List.foldlM_cons, ← hput]
      cases hp : place len htab r with
      | none => rfl
      | some htab' => exact foldlM_place fun r' hr' => h r' (List.mem_cons_of_mem r hr')

/-- The table of at most as many records as slots, which all have a position. -/
theorem buildTable_holds {len : Nat} {recs : List CdbRec} (hlen : recs.length ≤ len)
    (hpos : ∀ r ∈ recs, r.rpos ≠ 0) :
    ∃ htab, buildTable len recs = some htab ∧
      ProbeTable.Holds len (home len) (slots htab) recs := by
  have hhome : ∀ r ∈ recs, home len r < len := fun r hr =>
    Nat.mod_lt _ (by have := List.length_pos_of_mem hr; omega)
  obtain ⟨t, hput, hold⟩ := ProbeTable.putAll_holds hlen hhome
  have hmap : (buildTable len recs).map slots = some t := (foldlM_place hpos).trans hput
  obtain ⟨htab, hbuild, rfl⟩ := Option.map_eq_some_iff.mp hmap
  exact ⟨htab, hbuild, hold⟩

/-! ## The file -/

/-- The slots of a table. -/
def tableLen (rs : List Record) (t : Nat) : Nat := 2 * (tableRecs rs t).length

/-- What the tables take up. -/
def tablesSize (rs : List Record) (ts : List Nat) : Nat := (ts.map fun t => 8 * tableLen rs t).sum

/-- The contents, when the first table is written at `pos`. -/
def tocFrom (rs : List Record) : Nat → List Nat → List (Nat × Nat)
  | _, [] => []
  | pos, t :: ts => (pos, tableLen rs t) :: tocFrom rs (pos + 8 * tableLen rs t) ts

/-- The file of a sequence of records with these hash tables. -/
def cdbFile (rs : List Record) (htab : Nat → Nat → CdbRec) : List UInt8 :=
  tocBytes (tocFrom rs (2048 + dataSize rs) (List.range 256)) ++ (rs.flatMap recBytes ++
    (List.range 256).flatMap fun t => tableBytes (tableLen rs t) (htab t))

theorem slotBytes_length (r : CdbRec) : (slotBytes r).length = 8 := rfl

theorem tableBytes_length (len : Nat) (htab : Nat → CdbRec) :
    (tableBytes len htab).length = 8 * len := by
  rw [tableBytes, Bytes.length_blocks fun i => slotBytes_length (htab i), List.length_range]

theorem tocFrom_length (rs : List Record) : ∀ (ts : List Nat) (pos : Nat),
    (tocFrom rs pos ts).length = ts.length
  | [], _ => rfl
  | t :: ts, pos => by rw [tocFrom, List.length_cons, tocFrom_length rs ts, List.length_cons]

theorem tocBytes_length (toc : List (Nat × Nat)) : (tocBytes toc).length = 8 * toc.length := by
  rw [tocBytes, Bytes.length_blocks (k := 8) fun _ => rfl]

/-- Each record is in one of the tables. -/
theorem tablesSize_eq (rs : List Record) : tablesSize rs (List.range 256) = 16 * rs.length := by
  have hcount : ∀ t, 8 * tableLen rs t =
      16 * ((placed 2048 rs).map fun r => (r.hval &&& 255).toNat).count t := by
    intro t
    rw [tableLen, tableRecs, List.count_eq_length_filter, List.filter_map, List.length_map]
    have hfun : ((fun x => x == t) ∘ fun r : CdbRec => (r.hval &&& 255).toNat) =
        fun r => decide ((r.hval &&& 255).toNat = t) := rfl
    rw [hfun]
    omega
  have hmem : ∀ t ∈ (((placed 2048 rs).map fun r => (r.hval &&& 255).toNat : List Nat) :
      Multiset Nat), t ∈ (List.range 256).toFinset := by
    intro t ht
    obtain ⟨r, -, rfl⟩ := List.mem_map.mp ht
    rw [List.mem_toFinset, List.mem_range, UInt32.toNat_and]
    exact lt_of_le_of_lt Nat.and_le_right (by decide)
  have hsum := Multiset.sum_count_eq_card hmem
  rw [List.sum_toFinset _ List.nodup_range] at hsum
  simp only [Multiset.coe_count, Multiset.coe_card, List.length_map, placed_length] at hsum
  rw [tablesSize, ← hsum, ← List.sum_map_mul_left]
  simp only [hcount]

variable {rs : List Record} {htab : Nat → Nat → CdbRec} {c : CdbMake}

/-- An empty table is no exception. -/
theorem finishTable_eq {t : Nat}
    (hbuild : buildTable (tableLen rs t) (tableRecs rs t) = some (htab t))
    (hrecs : recsOf (c.recs t) = tableRecs rs t) (hfit : c.dpos + 8 * tableLen rs t < 2 ^ 32) :
    ∃ c', finishTable c t = some c' ∧ c'.recs = c.recs ∧ c'.dpos = c.dpos + 8 * tableLen rs t ∧
      c'.written = c.written ++ tableBytes (tableLen rs t) (htab t) := by
  have hlen : 2 * (tableRecs rs t).length = tableLen rs t := rfl
  unfold finishTable
  dsimp only
  rw [hrecs, hlen, hbuild]
  split_ifs with h0
  · exact ⟨c, rfl, rfl, by rw [h0]; rfl, by rw [h0]; exact (List.append_nil _).symm⟩
  · refine ⟨_, rfl, cdbMakeWrite_recs _ _, ?_, cdbMakeWrite_written _ _⟩
    rw [cdbMakeWrite_dpos, tableBytes_length, Nat.mod_eq_of_lt (by omega)]

theorem finishTables_eq
    (hbuild : ∀ t, buildTable (tableLen rs t) (tableRecs rs t) = some (htab t)) :
    ∀ {ts : List Nat} {c : CdbMake}, (∀ t, recsOf (c.recs t) = tableRecs rs t) →
      c.dpos + tablesSize rs ts < 2 ^ 32 →
      ∃ c', finishTables ts c = some (c', tocFrom rs c.dpos ts) ∧
        c'.written = c.written ++ ts.flatMap fun t => tableBytes (tableLen rs t) (htab t)
  | [], c, _, _ => ⟨c, rfl, by rw [List.flatMap_nil, List.append_nil]⟩
  | t :: ts, c, hrecs, hfit => by
      rw [tablesSize, List.map_cons, List.sum_cons] at hfit
      obtain ⟨c', hstep, hrecs', hdpos, hwritten⟩ :=
        finishTable_eq (hbuild t) (hrecs t) (by omega)
      obtain ⟨c'', hrest, hwritten'⟩ := @finishTables_eq hbuild ts c'
        (fun t => by rw [hrecs', hrecs]) (by rw [hdpos, tablesSize]; omega)
      refine ⟨c'', ?_, by rw [hwritten', hwritten, List.append_assoc, List.flatMap_cons]⟩
      rw [finishTables, hstep, Option.bind_eq_bind, Option.bind_some, hrest, hdpos, hrecs t]
      rfl

/-- The file that is made, and what its tables hold. -/
theorem cdbMake_eq (hfit : cdbSize rs < 2 ^ 32) :
    ∃ htab : Nat → Nat → CdbRec, cdbMake rs = some (cdbFile rs htab) ∧
      ∀ t, ProbeTable.Holds (tableLen rs t) (home (tableLen rs t)) (slots (htab t))
        (tableRecs rs t) := by
  have hpos : ∀ t, ∀ r ∈ tableRecs rs t, r.rpos ≠ 0 := fun t r hr => by
    have := le_rpos (List.mem_filter.mp hr).1
    omega
  choose htab hbuild hold using fun t =>
    @buildTable_holds (tableLen rs t) _ (by rw [tableLen]; omega) (hpos t)
  refine ⟨htab, ?_, hold⟩
  rw [cdbSize] at hfit
  obtain ⟨c, hadds, hmade⟩ := @Made.foldlM _ [] rs made_start (by rw [List.nil_append]; omega)
  rw [List.nil_append] at hmade
  obtain ⟨c', hfinish, hwritten⟩ := @finishTables_eq rs htab hbuild (List.range 256) c hmade.recs
    (by rw [hmade.dpos, tablesSize_eq]; omega)
  have hguard : ¬(0xffffffff - c.dpos) / 8 < c.rcnt := by
    rw [hmade.dpos, hmade.rcnt]
    omega
  simp only [cdbMake, hadds, Option.bind_eq_bind, Option.bind_some, cdbMakeFinish, if_neg hguard,
    hfinish]
  rw [CdbMake.written] at hwritten
  rw [hwritten, hmade.written, hmade.dpos, List.append_assoc, List.drop_left' List.length_replicate]
  rfl

end Knp.Tinycdb
