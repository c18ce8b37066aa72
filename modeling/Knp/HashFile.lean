import Knp.Bytes
import Knp.Chain
import Knp.Hash
import Knp.Loop

/-!
# The hash file (`hash.c`)

A table is filled in memory, with a chain of entries in each bucket, and
written by `hash_finish`: the random numbers, the position of each bucket, and
for each bucket that has entries a record of their number, their sizes, their
keys and their values. `hash_fetch` reads a record from its position.

> The file answers as the table did, if no key and no value is empty.

`fwrite` of an empty string returns 0, which `hash_finish` takes for an error:
it ends the program. The state of a file that is read is the rest of the file.
-/

namespace Knp

def NSIZE : Nat := 256

def HASH_TBLSIZE : Nat := 8192

/-- A string of C: its length is an `int`. -/
structure HashString where
  bytes : List UInt8
  no_nul : (0 : UInt8) ∉ bytes
  short : bytes.length < 2 ^ 31
deriving DecidableEq

namespace HashString

def size (s : HashString) : Nat := s.bytes.length

theorem size_lt (s : HashString) : s.size < 2 ^ 32 := lt_trans s.short (by decide)

theorem ext_bytes {s s' : HashString} (h : s.bytes = s'.bytes) : s = s' := by
  cases s
  cases s'
  cases h
  rfl

end HashString

/-- The entries of a bucket: keys with values. -/
abbrev HashChain := List (HashString × HashString)

/-- `hddata` -/
abbrev HashTable := Nat → HashChain

/-- `internal_hash` -/
def internalHash (seed : Seed) (key : HashString) : Nat := hashWith seed HASH_TBLSIZE key.bytes

theorem internalHash_lt (seed : Seed) (key : HashString) : internalHash seed key < HASH_TBLSIZE :=
  hashWith_lt seed (by decide) key.bytes

/-! ## In memory -/

def HASH_KEYEXIST : Int := -30996

/-- `hash_put`; the mode is `HASH_NOOVERWRITE` or not. -/
def hashPut (seed : Seed) (key value : HashString) (noOverwrite : Bool) (t : HashTable) :
    Int × HashTable :=
  let h := internalHash seed key
  if (List.lookup key (t h)).isSome && noOverwrite then (HASH_KEYEXIST, t)
  else (0, Function.update t h (Chain.put key value (t h)))

/-- `hash_fetch` while writing. -/
def hashFetchTable (seed : Seed) (t : HashTable) (key : HashString) : Option (List UInt8) :=
  (List.lookup key (t (internalHash seed key))).map HashString.bytes

structure HashPut where
  key : HashString
  value : HashString
  noOverwrite : Bool

/-- The table after the calls of `hash_put`. -/
def putAll (seed : Seed) (puts : List HashPut) : HashTable :=
  puts.foldl (fun t p => (hashPut seed p.key p.value p.noOverwrite t).2) fun _ => []

/-! ## `hash_finish` -/

/-- `fwrite` of a string; writing no bytes is an error. -/
def fwriteString (s : HashString) : Option (List UInt8) :=
  if s.size = 0 then none else some s.bytes

/-- `HASH_DATA_UNIT` -/
def dataUnit (e : HashString × HashString) : List UInt8 :=
  Bytes.putInt e.1.size ++ Bytes.putInt e.2.size

/-- データの書き込み, of one bucket. -/
def writeRecord (c : HashChain) : Option (List UInt8) :=
  if c = [] then some []
  else do
    let keys ← c.mapM fun e => fwriteString e.1
    let values ← c.mapM fun e => fwriteString e.2
    return Bytes.putInt c.length ++ c.flatMap dataUnit ++ keys.flatten ++ values.flatten

/-- What the record of a bucket takes up. -/
def recordSize (c : HashChain) : Nat :=
  if c = [] then 0 else 4 + 8 * c.length + (c.map fun e => e.1.size + e.2.size).sum

/-- ハッシュ配列(アドレス)の書き込み: the positions of the buckets, from `pos`. -/
def positions : Nat → List HashChain → List Nat
  | _, [] => []
  | pos, c :: cs => (if c = [] then 0 else pos) :: positions (pos + recordSize c) cs

/-- The random number `k` of the table. -/
def seedAt (seed : Seed) (k : Nat) : Nat := (seed (k / NSIZE) (k % NSIZE).toUInt8).toNat

/-- SEEDの書き込み -/
def seedBytes (seed : Seed) : List UInt8 :=
  (List.range (NSEED * NSIZE)).flatMap fun k => Bytes.putInt (seedAt seed k)

def buckets (t : HashTable) : List HashChain := (List.range HASH_TBLSIZE).map t

/-- The position of the first record. -/
def dataStart : Nat := 4 * (NSEED * NSIZE) + 4 * HASH_TBLSIZE

/-- `hash_finish`: the file, if the program is not ended. -/
def hashFinish (seed : Seed) (t : HashTable) : Option (List UInt8) := do
  let records ← (buckets t).mapM writeRecord
  return seedBytes seed ++
    ((positions dataStart (buckets t)).flatMap Bytes.putInt ++ records.flatten)

/-! ## `hash_fetch` -/

/-- 個数分のkey, valueのサイズを取得 -/
def readUnits (f : List UInt8) : Nat → List (Nat × Nat)
  | 0 => []
  | num + 1 => (Bytes.getInt (f.take 4), Bytes.getInt ((f.drop 4).take 4)) :: readUnits (f.drop 8) num

/-- マッチするkeyを探す: the first that matches, and the file behind the keys. -/
def scanKeys (key : List UInt8) : Nat → List (Nat × Nat) → Option Nat → List UInt8 →
    Option Nat × List UInt8
  | _, [], target, f => (target, f)
  | i, u :: us, none, f =>
      scanKeys key (i + 1) us (if key.length = u.1 ∧ key = f.take u.1 then some i else none)
        (f.drop u.1)
  | i, u :: us, some target, f => scanKeys key (i + 1) us (some target) (f.drop u.1)

/-- 目的のvalueまでseek -/
def readValue : List (Nat × Nat) → Nat → List UInt8 → List UInt8
  | [], _, _ => []
  | u :: _, 0, f => f.take u.2
  | u :: us, target + 1, f => readValue us target (f.drop u.2)

/-- The search of a record for a key. -/
def fetchRecord (key : List UInt8) (f : List UInt8) : Option (List UInt8) :=
  let num := Bytes.getInt (f.take 4)
  let units := readUnits (f.drop 4) num
  let (target, f) := scanKeys key 0 units none (f.drop (4 + 8 * num))
  target.map fun target => readValue units target f

/-- `read_seed` -/
def readSeed (file : List UInt8) : Seed := fun j c =>
  (Bytes.getInt ((file.drop (4 * (NSIZE * j + c.toNat))).take 4)).toUInt32

/-- `hhdata[h].pos` of `read_hhdata` -/
def readPos (file : List UInt8) (h : Nat) : Nat :=
  Bytes.getInt ((file.drop (4 * (NSEED * NSIZE) + 4 * h)).take 4)

/-- `hash_fetch` from a file opened for reading. -/
def hashFetchFile (file : List UInt8) (key : HashString) : Option (List UInt8) :=
  let pos := readPos file (internalHash (readSeed file) key)
  if pos = 0 then none else fetchRecord key.bytes (file.drop pos)

/-! ## A record read back -/

section Record

variable {c : HashChain} {rest : List UInt8}

/-- The record of a bucket whose strings are not empty. -/
def recordBytes (c : HashChain) : List UInt8 :=
  if c = [] then []
  else Bytes.putInt c.length ++ c.flatMap dataUnit ++ (c.map fun e => e.1.bytes).flatten ++
    (c.map fun e => e.2.bytes).flatten

def units (c : HashChain) : List (Nat × Nat) := c.map fun e => (e.1.size, e.2.size)

theorem dataUnit_length (e : HashString × HashString) : (dataUnit e).length = 8 := rfl

theorem recordBytes_length : ∀ c : HashChain, (recordBytes c).length = recordSize c
  | [] => rfl
  | e :: c => by
      have hstrings : ∀ l : HashChain, (l.map fun e => e.1.bytes).flatten.length +
          (l.map fun e => e.2.bytes).flatten.length = (l.map fun e => e.1.size + e.2.size).sum := by
        intro l
        induction l with
        | nil => rfl
        | cons a l ih =>
            simp only [List.map_cons, List.flatten_cons, List.length_append, List.sum_cons]
            rw [← ih]
            have h₁ : a.1.bytes.length = a.1.size := rfl
            have h₂ : a.2.bytes.length = a.2.size := rfl
            omega
      unfold recordBytes recordSize
      rw [if_neg (List.cons_ne_nil e c), if_neg (List.cons_ne_nil e c)]
      simp only [List.length_append, Bytes.putInt_length, Bytes.length_blocks dataUnit_length]
      rw [← hstrings (e :: c)]
      omega

theorem readUnits_eq : ∀ (c : HashChain) (rest : List UInt8),
    readUnits (c.flatMap dataUnit ++ rest) c.length = units c
  | [], _ => rfl
  | e :: c, rest => by
      have hfirst : Bytes.getInt (((e :: c).flatMap dataUnit ++ rest).take 4) = e.1.size := by
        rw [List.flatMap_cons, dataUnit, List.append_assoc, List.append_assoc]
        exact Bytes.getInt_take_append e.1.size_lt _
      have hdrop : ((e :: c).flatMap dataUnit ++ rest).drop 4 =
          Bytes.putInt e.2.size ++ (c.flatMap dataUnit ++ rest) := rfl
      have hdrop' : ((e :: c).flatMap dataUnit ++ rest).drop 8 = c.flatMap dataUnit ++ rest := rfl
      rw [List.length_cons, readUnits, hfirst, hdrop, Bytes.getInt_take_append e.2.size_lt, hdrop',
        readUnits_eq c rest]
      rfl

/-- The keys are passed whether the key has been found or not. -/
theorem scanKeys_snd (key : List UInt8) : ∀ (c : HashChain) (i : Nat) (target : Option Nat),
    (scanKeys key i (units c) target ((c.map fun e => e.1.bytes).flatten ++ rest)).2 = rest
  | [], _, _ => by
      cases ‹Option Nat› <;> rfl
  | e :: c, i, target => by
      have hdrop : (((e :: c).map fun e => e.1.bytes).flatten ++ rest).drop e.1.size =
          (c.map fun e => e.1.bytes).flatten ++ rest := by
        rw [List.map_cons, List.flatten_cons, List.append_assoc]
        exact List.drop_left
      cases target with
      | none =>
          rw [units, List.map_cons, scanKeys, hdrop]
          exact scanKeys_snd key c (i + 1) _
      | some target =>
          rw [units, List.map_cons, scanKeys, hdrop]
          exact scanKeys_snd key c (i + 1) _

/-- Once found, the key stays found. -/
theorem scanKeys_some (key : List UInt8) (target : Nat) : ∀ (us : List (Nat × Nat)) (i : Nat)
    (f : List UInt8), (scanKeys key i us (some target) f).1 = some target
  | [], _, _ => rfl
  | _ :: us, i, f => scanKeys_some key target us (i + 1) (f.drop _)

theorem scanKeys_ge (key : List UInt8) : ∀ (us : List (Nat × Nat)) (i : Nat) (f : List UInt8)
    {target : Nat}, (scanKeys key i us none f).1 = some target → i ≤ target
  | u :: us, i, f, target, h => by
      rw [scanKeys] at h
      split_ifs at h with hu
      · rw [scanKeys_some] at h
        exact (Option.some.inj h).le
      · exact Nat.le_of_succ_le (scanKeys_ge key us (i + 1) _ h)

/-- The value at the place of the first matching key is the value of the key. -/
theorem scan_value (key : HashString) (krest vrest : List UInt8) : ∀ (c : HashChain) (i : Nat),
    (scanKeys key.bytes i (units c) none ((c.map fun e => e.1.bytes).flatten ++ krest)).1.map
      (fun target => readValue (units c) (target - i)
        ((c.map fun e => e.2.bytes).flatten ++ vrest)) = (List.lookup key c).map HashString.bytes
  | [], _ => rfl
  | e :: c, i => by
      have htake : (((e :: c).map fun e => e.1.bytes).flatten ++ krest).take e.1.size =
          e.1.bytes := by
        rw [List.map_cons, List.flatten_cons, List.append_assoc]
        exact List.take_left
      have hdrop : (((e :: c).map fun e => e.1.bytes).flatten ++ krest).drop e.1.size =
          (c.map fun e => e.1.bytes).flatten ++ krest := by
        rw [List.map_cons, List.flatten_cons, List.append_assoc]
        exact List.drop_left
      have hvtake : (((e :: c).map fun e => e.2.bytes).flatten ++ vrest).take e.2.size =
          e.2.bytes := by
        rw [List.map_cons, List.flatten_cons, List.append_assoc]
        exact List.take_left
      have hvdrop : (((e :: c).map fun e => e.2.bytes).flatten ++ vrest).drop e.2.size =
          (c.map fun e => e.2.bytes).flatten ++ vrest := by
        rw [List.map_cons, List.flatten_cons, List.append_assoc]
        exact List.drop_left
      have hunits : units (e :: c) = (e.1.size, e.2.size) :: units c := rfl
      rw [hunits, scanKeys, htake, hdrop]
      by_cases he : e.1 = key
      · rw [if_pos ⟨by rw [← he]; rfl, by rw [he]⟩, scanKeys_some, Chain.lookup_cons_of_eq e he,
          Option.map_some, Option.map_some, Nat.sub_self, readValue, hvtake]
      · rw [if_neg fun hc => he (HashString.ext_bytes hc.2.symm), Chain.lookup_cons_of_ne e he,
          ← scan_value key krest vrest c (i + 1)]
        refine Option.map_congr fun target htarget => ?_
        have hge := scanKeys_ge key.bytes (units c) (i + 1) _ htarget
        obtain ⟨d, rfl⟩ := Nat.exists_eq_add_of_le hge
        rw [show i + 1 + d - i = d + 1 by omega, show i + 1 + d - (i + 1) = d by omega, readValue,
          hvdrop]

/-- A record gives each key its value in the chain. -/
theorem fetchRecord_recordBytes (key : HashString) (hne : c ≠ []) (hlen : c.length < 2 ^ 32) :
    fetchRecord key.bytes (recordBytes c ++ rest) = (List.lookup key c).map HashString.bytes := by
  have hrecord : recordBytes c ++ rest = Bytes.putInt c.length ++ (c.flatMap dataUnit ++
      ((c.map fun e => e.1.bytes).flatten ++ ((c.map fun e => e.2.bytes).flatten ++ rest))) := by
    rw [recordBytes, if_neg hne]
    simp only [List.append_assoc]
  have hdrop : ∀ f : List UInt8, (Bytes.putInt c.length ++ f).drop 4 = f := fun f => rfl
  have hkeys : (c.flatMap dataUnit ++ ((c.map fun e => e.1.bytes).flatten ++
      ((c.map fun e => e.2.bytes).flatten ++ rest))).drop (8 * c.length) =
      (c.map fun e => e.1.bytes).flatten ++ ((c.map fun e => e.2.bytes).flatten ++ rest) := by
    rw [Bytes.drop_blocks dataUnit_length _ _ _ le_rfl, List.drop_length]
    rfl
  unfold fetchRecord
  dsimp only
  rw [hrecord, Bytes.getInt_take_append hlen, ← List.drop_drop, hdrop, readUnits_eq, hkeys,
    scanKeys_snd]
  exact scan_value key _ _ c 0

end Record

/-! ## The file read back -/

section File

variable {seed : Seed} {t : HashTable}

theorem hashLoop_congr {seed' : Seed} (h : ∀ j < NSEED, ∀ c, seed' j c = seed j c) :
    ∀ (key : List UInt8) (j : Nat) (x : UInt32), j < NSEED →
      hashLoop seed' j x key = hashLoop seed j x key
  | [], _, _, _ => rfl
  | c :: key, j, x, hj => by
      have hnext : (j + 1) &&& (NSEED - 1) < NSEED :=
        lt_of_le_of_lt Nat.and_le_right (by decide)
      rw [hashLoop, hashLoop, h j hj c, hashLoop_congr h key _ _ hnext]

theorem readSeed_eq (rest : List UInt8) {j : Nat} (hj : j < NSEED) (c : UInt8) :
    readSeed (seedBytes seed ++ rest) j c = seed j c := by
  have hc : c.toNat < NSIZE := c.toNat_lt
  have hk : (List.range (NSEED * NSIZE))[NSIZE * j + c.toNat]? = some (NSIZE * j + c.toNat) := by
    refine List.getElem?_range ?_
    unfold NSEED NSIZE at *
    omega
  have hdiv : (NSIZE * j + c.toNat) / NSIZE = j := by
    rw [Nat.mul_add_div (by decide), Nat.div_eq_of_lt hc, Nat.add_zero]
  have hmod : (NSIZE * j + c.toNat) % NSIZE = c.toNat := by
    rw [Nat.mul_add_mod, Nat.mod_eq_of_lt hc]
  have hchar : c.toNat.toUInt8 = c := UInt8.ofNat_toNat
  have hint : seedAt seed (NSIZE * j + c.toNat) = (seed j c).toNat := by
    rw [seedAt, hdiv, hmod, hchar]
  unfold readSeed seedBytes
  rw [Bytes.read_block (f := fun k => Bytes.putInt (seedAt seed k)) (fun _ => rfl) rest hk, hint,
    Bytes.getInt_putInt (seed j c).toNat_lt]
  exact UInt32.ofNat_toNat

theorem positions_length : ∀ (pos : Nat) (cs : List HashChain), (positions pos cs).length = cs.length
  | _, [] => rfl
  | pos, c :: cs => congrArg Nat.succ (positions_length (pos + recordSize c) cs)

/-- A bucket is at the position behind the records before it. -/
theorem positions_getElem? : ∀ (cs : List HashChain) (pos i : Nat) {c : HashChain},
    cs[i]? = some c → (positions pos cs)[i]? =
      some (if c = [] then 0 else pos + ((cs.take i).map recordSize).sum)
  | b :: cs, pos, 0, c, h => by
      obtain rfl : b = c := Option.some.inj h
      rfl
  | b :: cs, pos, i + 1, c, h => by
      have ih := positions_getElem? cs (pos + recordSize b) i (c := c) h
      rw [positions, List.getElem?_cons_succ, ih, List.take_succ_cons, List.map_cons,
        List.sum_cons, Nat.add_assoc]

theorem buckets_getElem? {i : Nat} (h : i < HASH_TBLSIZE) : (buckets t)[i]? = some (t i) := by
  rw [buckets, List.getElem?_map, List.getElem?_range h]
  rfl

/-- The bytes of the file. -/
def fileBytes (seed : Seed) (t : HashTable) : List UInt8 :=
  seedBytes seed ++ ((positions dataStart (buckets t)).flatMap Bytes.putInt ++
    ((buckets t).map recordBytes).flatten)

/-- The size of the file. -/
def fileSize (t : HashTable) : Nat := dataStart + ((buckets t).map recordSize).sum

/-- All strings in the table have bytes. -/
def NoEmptyEntry (t : HashTable) : Prop :=
  ∀ i < HASH_TBLSIZE, ∀ e ∈ t i, e.1.size ≠ 0 ∧ e.2.size ≠ 0

theorem writeRecord_eq {c : HashChain} (h : ∀ e ∈ c, e.1.size ≠ 0 ∧ e.2.size ≠ 0) :
    writeRecord c = some (recordBytes c) := by
  unfold writeRecord recordBytes
  split_ifs with hc
  · rfl
  · have hkeys : c.mapM (fun e => fwriteString e.1) = some (c.map fun e => e.1.bytes) :=
      Loop.mapM_eq_some_map fun e he => if_neg (h e he).1
    have hvalues : c.mapM (fun e => fwriteString e.2) = some (c.map fun e => e.2.bytes) :=
      Loop.mapM_eq_some_map fun e he => if_neg (h e he).2
    rw [hkeys, hvalues]
    rfl

theorem hashFinish_eq (h : NoEmptyEntry t) : hashFinish seed t = some (fileBytes seed t) := by
  have hrecords : (buckets t).mapM writeRecord = some ((buckets t).map recordBytes) := by
    refine Loop.mapM_eq_some_map fun c hc => ?_
    obtain ⟨i, hi, rfl⟩ := List.mem_map.mp hc
    exact writeRecord_eq (h i (List.mem_range.mp hi))
  unfold hashFinish
  rw [hrecords]
  rfl

/-- A table with an empty string is not written to the end. -/
theorem noEmptyEntry_of_hashFinish {file : List UInt8} (h : hashFinish seed t = some file) :
    NoEmptyEntry t := by
  intro i hi e he
  unfold hashFinish at h
  obtain ⟨records, hrecords, -⟩ := Option.bind_eq_some_iff.mp h
  have hmem : t i ∈ buckets t := List.mem_of_getElem? (buckets_getElem? hi)
  obtain ⟨bytes, hbytes⟩ := Option.isSome_iff_exists.mp
    (Loop.isSome_of_mapM hrecords (t i) hmem)
  unfold writeRecord at hbytes
  rw [if_neg (List.ne_nil_of_mem he)] at hbytes
  obtain ⟨keys, hkeys, hrest⟩ := Option.bind_eq_some_iff.mp hbytes
  obtain ⟨values, hvalues, -⟩ := Option.bind_eq_some_iff.mp hrest
  refine ⟨fun hzero => ?_, fun hzero => ?_⟩
  · have := Loop.isSome_of_mapM hkeys e he
    rw [fwriteString, if_pos hzero] at this
    cases this
  · have := Loop.isSome_of_mapM hvalues e he
    rw [fwriteString, if_pos hzero] at this
    cases this

theorem internalHash_readSeed (key : HashString) :
    internalHash (readSeed (fileBytes seed t)) key = internalHash seed key := by
  have hseed : ∀ j < NSEED, ∀ c, readSeed (fileBytes seed t) j c = seed j c :=
    fun j hj c => readSeed_eq _ hj c
  unfold internalHash hashWith
  rw [hashLoop_congr hseed key.bytes 0 0 (by decide)]

theorem seedBytes_length : (seedBytes seed).length = 4 * (NSEED * NSIZE) := by
  unfold seedBytes
  rw [Bytes.length_blocks (k := 4) (fun _ => rfl), List.length_range]

theorem drop_seeds (rest : List UInt8) :
    (seedBytes seed ++ rest).drop (4 * (NSEED * NSIZE)) = rest :=
  List.drop_left' seedBytes_length

theorem buckets_length : (buckets t).length = HASH_TBLSIZE := by
  rw [buckets, List.length_map, List.length_range]

/-- What is behind the first `i` records. -/
theorem drop_records (i : Nat) :
    (fileBytes seed t).drop (dataStart + (((buckets t).take i).map recordSize).sum) =
      (((buckets t).drop i).map recordBytes).flatten := by
  have hpos : (positions dataStart (buckets t)).length = HASH_TBLSIZE :=
    (positions_length _ _).trans buckets_length
  have hstart := Bytes.drop_blocks Bytes.putInt_length HASH_TBLSIZE
    (positions dataStart (buckets t)) ((buckets t).map recordBytes).flatten hpos.ge
  rw [List.drop_eq_nil_of_le hpos.le, List.flatMap_nil, List.nil_append] at hstart
  have hsizes : ((buckets t).take i).map recordSize =
      (((buckets t).map recordBytes).take i).map List.length := by
    rw [← List.map_take, List.map_map]
    exact List.map_congr_left fun c _ => (recordBytes_length c).symm
  have hplace : dataStart + (((buckets t).take i).map recordSize).sum = 4 * (NSEED * NSIZE) +
      (4 * HASH_TBLSIZE + (((buckets t).take i).map recordSize).sum) := Nat.add_assoc _ _ _
  rw [fileBytes, hplace, ← List.drop_drop, drop_seeds, ← List.drop_drop, hstart, hsizes,
    Bytes.drop_flatten, List.map_drop]

/-- The file holds the records before a bucket and its own. -/
theorem record_le_fileSize {h : Nat} (hh : h < HASH_TBLSIZE) :
    dataStart + (((buckets t).take h).map recordSize).sum + recordSize (t h) ≤ fileSize t := by
  obtain ⟨hlt, hget⟩ := List.getElem?_eq_some_iff.mp (buckets_getElem? (t := t) hh)
  have hsplit := congrArg (fun l => (l.map recordSize).sum) (List.take_append_drop h (buckets t))
  rw [List.drop_eq_getElem_cons hlt, hget] at hsplit
  simp only [List.map_append, List.map_cons, List.sum_append, List.sum_cons] at hsplit
  unfold fileSize
  omega

/-- The position of a bucket. -/
theorem readPos_fileBytes {h : Nat} (hh : h < HASH_TBLSIZE) (hsize : fileSize t < 2 ^ 32) :
    readPos (fileBytes seed t) h =
      if t h = [] then 0 else dataStart + (((buckets t).take h).map recordSize).sum := by
  have hle := record_le_fileSize (t := t) hh
  have hlt : (if t h = [] then 0 else
      dataStart + (((buckets t).take h).map recordSize).sum) < 2 ^ 32 := by
    split_ifs <;> omega
  unfold readPos fileBytes
  rw [← List.drop_drop, drop_seeds, Bytes.read_block Bytes.putInt_length _
    (positions_getElem? _ _ _ (buckets_getElem? hh)), Bytes.getInt_putInt hlt]

/-- The file answers as the table. -/
theorem hashFetchFile_fileBytes (hsize : fileSize t < 2 ^ 32) (key : HashString) :
    hashFetchFile (fileBytes seed t) key = hashFetchTable seed t key := by
  have hh := internalHash_lt seed key
  unfold hashFetchFile hashFetchTable
  rw [internalHash_readSeed, readPos_fileBytes hh hsize]
  dsimp only
  generalize internalHash seed key = h at hh
  by_cases hc : t h = []
  · rw [if_pos hc, if_pos rfl, hc]
    rfl
  · have hpos : dataStart + (((buckets t).take h).map recordSize).sum ≠ 0 := by
      have : 0 < dataStart := by decide
      omega
    have hlen : (t h).length < 2 ^ 32 := by
      have hle := record_le_fileSize (t := t) hh
      have hrecord : recordSize (t h) = 4 + 8 * (t h).length +
          ((t h).map fun e => e.1.size + e.2.size).sum := if_neg hc
      omega
    obtain ⟨hlt, hget⟩ := List.getElem?_eq_some_iff.mp (buckets_getElem? (t := t) hh)
    rw [if_neg hc, if_neg hpos, drop_records, List.drop_eq_getElem_cons hlt, hget, List.map_cons,
      List.flatten_cons, fetchRecord_recordBytes key hc hlen]

end File

/-! ## The table that was put -/

section Puts

variable {seed : Seed} {t : HashTable}

/-- The entries of a bucket have distinct keys, which belong there. -/
structure WellPlaced (seed : Seed) (t : HashTable) : Prop where
  nodup : ∀ i, ((t i).map Prod.fst).Nodup
  place : ∀ i, ∀ e ∈ t i, internalHash seed e.1 = i

theorem WellPlaced.put (h : WellPlaced seed t) (key value : HashString) : WellPlaced seed
    (Function.update t (internalHash seed key) (Chain.put key value (t (internalHash seed key)))) where
  nodup i := by
    by_cases hi : i = internalHash seed key
    · rw [hi, Function.update_self]
      exact Chain.nodup_put (h.nodup _)
    · rw [Function.update_of_ne hi]
      exact h.nodup i
  place i e he := by
    by_cases hi : i = internalHash seed key
    · rw [hi, Function.update_self] at he
      rcases Chain.mem_keys_put.mp (List.mem_map_of_mem he) with hkey | hmem
      · rw [hi, hkey]
      · obtain ⟨e', he', hkey⟩ := List.mem_map.mp hmem
        rw [hi, ← hkey, h.place _ e' he']
    · rw [Function.update_of_ne hi] at he
      exact h.place i e he

theorem WellPlaced.hashPut (h : WellPlaced seed t) (key value : HashString) (noOverwrite : Bool) :
    WellPlaced seed (hashPut seed key value noOverwrite t).2 := by
  unfold Knp.hashPut
  dsimp only
  split_ifs
  · exact h
  · exact h.put key value

theorem wellPlaced_putAll (puts : List HashPut) : WellPlaced seed (putAll seed puts) :=
  List.foldlRecOn puts _ ⟨fun _ => List.nodup_nil, fun _ _ he => by cases he⟩
    fun _ ht p _ => ht.hashPut p.key p.value p.noOverwrite

/-- No stored key and no stored value is empty. -/
def NoEmptyString (seed : Seed) (t : HashTable) : Prop :=
  ∀ key value, hashFetchTable seed t key = some value → key.bytes ≠ [] ∧ value ≠ []

theorem WellPlaced.noEmpty_iff (h : WellPlaced seed t) :
    NoEmptyString seed t ↔ NoEmptyEntry t := by
  have hsize : ∀ s : HashString, s.size ≠ 0 ↔ s.bytes ≠ [] := fun s =>
    not_congr List.length_eq_zero_iff
  constructor
  · intro hne i _ e he
    rw [hsize, hsize]
    refine hne e.1 e.2.bytes ?_
    rw [hashFetchTable, h.place i e he, Chain.lookup_of_mem (h.nodup i) he, Option.map_some]
  · intro hne key value hvalue
    obtain ⟨v, hlookup, rfl⟩ := Option.map_eq_some_iff.mp hvalue
    rw [← hsize, ← hsize]
    exact hne _ (internalHash_lt seed key) (key, v) (Chain.mem_of_lookup hlookup)

/-- A file is written, and opened again it answers as the table did. -/
def Reopens (seed : Seed) (t : HashTable) : Prop :=
  ∃ file, hashFinish seed t = some file ∧
    ∀ key, hashFetchFile file key = hashFetchTable seed t key

/-- A reopened table answers as the one that was written only if no stored
string is empty; and then it does, up to the size that positions can address. -/
theorem reopens_putAll (seed : Seed) (puts : List HashPut) :
    (Reopens seed (putAll seed puts) → NoEmptyString seed (putAll seed puts)) ∧
      (NoEmptyString seed (putAll seed puts) → fileSize (putAll seed puts) < 2 ^ 32 →
        Reopens seed (putAll seed puts)) := by
  rw [(wellPlaced_putAll puts).noEmpty_iff]
  constructor
  · rintro ⟨file, hfile, -⟩
    exact noEmptyEntry_of_hashFinish hfile
  · intro hne hsize
    exact ⟨_, hashFinish_eq hne, hashFetchFile_fileBytes hsize⟩

end Puts

/-- One key with an empty value. -/
def emptyValue : HashPut := ⟨⟨[97], by decide, by decide⟩, ⟨[], by decide, by decide⟩, false⟩

theorem emptyValue_not_reopens :
    ¬ Reopens (fun _ _ => 0) (putAll (fun _ _ => 0) [emptyValue]) := by
  rintro ⟨file, hfile, -⟩
  have hmem : (emptyValue.key, emptyValue.value) ∈ putAll (fun _ _ => 0) [emptyValue] 0 :=
    List.mem_singleton.mpr rfl
  exact (noEmptyEntry_of_hashFinish hfile 0 (by decide) _ hmem).2 rfl

end Knp
