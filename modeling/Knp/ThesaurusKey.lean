import Knp.AltMrph
import Knp.Loop
import Knp.Tokens

/-!
# The keys of a word in the thesaurus (`thesaurus.c`)

`make_key_and_get_code` puts the morphemes of a word together in one buffer, looks the key
up, and takes the last morpheme away again, for the representation of the last morpheme and
for each of its other readings (`ALT`).

> A reading with the same representation is not looked up, but it is not taken
> away either. All readings behind it get a wrong key.

Strings are lists of bytes. `add_rep_str` is called with `org_flag` set.
-/

namespace Knp

open Tokens

def BNST_LENGTH_MAX : Nat := 256

def PLUS : UInt8 := 43

/-- What the functions read beside the word. -/
structure KeyEnv where
  japanese : Bool
  /-- `flag & USE_RN` -/
  useRn : Bool
  /-- `Class[..][0].id` and `Type[..].name` -/
  className : Int → List UInt8
  typeName : Int → List UInt8
  /-- `get_str_code` -/
  getStrCode : List UInt8 → Option (List UInt8)

/-- `get_mrph_rep` -/
def mrphRep (m : MrphFields) : Option (List UInt8) := (cutAt (utf8 "代表表記:") m.imi).map (·.2)

/-- `strchr`: what stands in front of the character. -/
def textTo? (c : UInt8) (s : List UInt8) : Option (List UInt8) :=
  if c ∈ s then some (s.takeWhile (· ≠ c)) else none

section Representation

variable (env : KeyEnv) (m : MrphFields)

/-- ナ形容詞の場合は語幹で検索 -/
def stemOnly : Bool :=
  env.japanese && env.className m.hinshi = utf8 "形容詞" &&
    [utf8 "ナ形容詞", utf8 "ナ形容詞特殊", utf8 "ナノ形容詞"].contains (env.typeName m.katuyouKata)

/-- The part of `代表表記` that is used: up to the blank or the quote, or up to the slash. -/
def repPart : Option (List UInt8) :=
  (mrphRep m).bind fun rep =>
    if env.useRn then (textTo? 32 rep).or (textTo? 34 rep) else textTo? 47 rep

/-- What `add_rep_str` appends. -/
def repStr : List UInt8 :=
  match repPart env m with
  | some rep => rep
  | none => if stemOnly env m then m.goi.take (m.goi.length - 2) else m.goi

/-- The length that is compared with the room in the buffer: of the base form the whole. -/
def repRoom : Nat :=
  match repPart env m with
  | some rep => rep.length
  | none => m.goi.length

/-- `add_rep_str`: the buffer with the representation, `none` where it returns 0. -/
def addRepStr (strBuffer : List UInt8) : Option (List UInt8) :=
  if BNST_LENGTH_MAX < strBuffer.length + repRoom env m + 2 then none
  else if (repStr env m).length = 0 then none
  else some (strBuffer ++ repStr env m)

end Representation

/-! ## The word -/

/-- A morpheme in front of the last one: the value of its feature `代表表記`, its surface. -/
structure KeyPrefix where
  rep : Option (List UInt8)
  goi2 : List UInt8

/-- The word: the morphemes `strt .. end`. The pattern reads all fields of an `ALT` feature. -/
structure KeyWord where
  pre : List KeyPrefix
  head : MrphFields
  /-- `(ptr->mrph_ptr + end)->f`, and the value of `代表表記変更` in it -/
  features : List (List UInt8)
  repChanged : Option (List UInt8)
  /-- `end` -/
  last : Nat
  readable : ∀ cp ∈ features, ∀ m, readAlt emptyFields cp = some m → ∀ old, readAlt old cp = some m

/-- The other readings of the last morpheme. -/
def KeyWord.alternatives (w : KeyWord) : List MrphFields :=
  w.features.filterMap (readAlt emptyFields)

/-- The key that is built for a reading, and what is looked up. -/
structure KeyTry where
  built : List UInt8
  asked : Option (List UInt8)
deriving DecidableEq

/-- The buffers; `strBuffer` is `none` after a write in front of it. `m` is the record of the
readings, `tried` what was done for each of them. -/
structure KeyState where
  strBuffer : Option (List UInt8)
  retBuffer : List UInt8
  usedKey : List UInt8
  m : MrphFields
  tried : List KeyTry

/-! ## The function -/

section Keys

variable (env : KeyEnv) (w : KeyWord)

/-- The key that is looked up: not 「する」 alone, and without the last `+`. -/
def askedKey (last : Nat) (strBuffer : List UInt8) : Option (List UInt8) :=
  -- 「サ変+する」がなく「する」だけになるような場合はskip
  if 0 < last ∧ strBuffer = utf8 "する" then none
  else if strBuffer.getLast? = some PLUS then some strBuffer.dropLast
  else some strBuffer

/-- 末尾まで文字列を作り出し終わり、DBを引く -/
def lookUpKey (strBuffer : List UInt8) (s : KeyState) : KeyState :=
  match askedKey w.last strBuffer with
  | none => { s with strBuffer := some strBuffer }
  | some key =>
      match env.getStrCode key with
      | none => { s with strBuffer := some key }
      | some code =>
          let used := if s.usedKey = [] then key else s.usedKey ++ utf8 "|" ++ key
          let full := BNST_LENGTH_MAX < s.usedKey.length + key.length + 3
          { s with
            strBuffer := some key
            retBuffer := s.retBuffer ++ code
            usedKey := if full then s.usedKey else used }

/-- `str_buffer[strlen(str_buffer) - add_len] = '\0'` -/
def restoreEnd (addLen : Nat) (s : KeyState) : KeyState :=
  { s with strBuffer := s.strBuffer.bind fun strBuffer =>
      if strBuffer.length < addLen then none
      else some (strBuffer.take (strBuffer.length - addLen)) }

/-- ALTの代表表記; whether the function has returned. -/
def altLoop (lastKey : List UInt8) : List (List UInt8) → KeyState → KeyState × Bool
  | [], s => (s, false)
  | cp :: fs, s =>
      match readAlt s.m cp, s.strBuffer with
      | none, _ => altLoop lastKey fs s
      | some m, none => ({ s with m := m }, true)
      | some m, some strBuffer =>
          match addRepStr env m strBuffer with
          | none => ({ s with m := m }, true)
          | some key =>
              if key = lastKey then
                altLoop lastKey fs
                  { s with strBuffer := some key, m := m, tried := s.tried ++ [⟨key, none⟩] }
              else -- 異なる場合のみ調べる
                altLoop lastKey fs (restoreEnd (repStr env m).length (lookUpKey env w key
                  { s with m := m, tried := s.tried ++ [⟨key, askedKey w.last key⟩] }))

/-- `strt == end`: 最後原形 -/
def lastMrph (strBuffer : List UInt8) (s : KeyState) : KeyState :=
  match addRepStr env w.head strBuffer with
  | none => { s with strBuffer := some strBuffer }
  | some key =>
      let lastKey := (askedKey w.last key).getD key
      let (s, returned) := altLoop env w lastKey w.features
        (restoreEnd (repStr env w.head).length (lookUpKey env w key s))
      match returned, s.strBuffer, w.repChanged with
      | false, some [], some rep =>
          if rep = lastKey then { s with strBuffer := some rep }
          else { lookUpKey env w rep s with strBuffer := some [] }
      | _, _, _ => s

/-- The text of a morpheme in front of the last one. -/
def KeyPrefix.text (p : KeyPrefix) : List UInt8 := if env.useRn then p.rep.getD p.goi2 else p.goi2

/-- `strt < end`: 複合名詞の前の部分 -/
def makeKey : List KeyPrefix → List UInt8 → KeyState → KeyState
  | [], strBuffer, s => lastMrph env w strBuffer s
  | p :: ps, strBuffer, s =>
      if BNST_LENGTH_MAX < strBuffer.length + (p.text env).length + 3 then
        { s with strBuffer := some strBuffer }
      else restoreEnd (p.text env).length (makeKey ps
        (strBuffer ++ p.text env ++ if env.useRn then [PLUS] else []) s)

/-- `make_key_and_get_code`, with what the other buffers and the record have. -/
def makeKeyAndGetCode (retBuffer usedKey : List UInt8) (m : MrphFields) : KeyState :=
  makeKey env w w.pre [] ⟨some [], retBuffer, usedKey, m, []⟩

end Keys

/-! ## The keys that are tried -/

/-- What stands in the buffer when a key has been looked up, and its end taken away. -/
def afterLookUp (last : Nat) (key : List UInt8) (addLen : Nat) : Option (List UInt8) :=
  let strBuffer := (askedKey last key).getD key
  if strBuffer.length < addLen then none else some (strBuffer.take (strBuffer.length - addLen))

/-- The keys for the readings, by what the buffer has. -/
def tries (env : KeyEnv) (last : Nat) (lastKey : List UInt8) :
    List MrphFields → Option (List UInt8) → List KeyTry
  | [], _ => []
  | _ :: _, none => []
  | m :: ms, some strBuffer =>
      match addRepStr env m strBuffer with
      | none => []
      | some key =>
          if key = lastKey then ⟨key, none⟩ :: tries env last lastKey ms (some key)
          else ⟨key, askedKey last key⟩ ::
            tries env last lastKey ms (afterLookUp last key (repStr env m).length)

section Tries

variable {env : KeyEnv} {w : KeyWord} {s : KeyState} {key : List UInt8}

theorem lookUpKey_strBuffer :
    (lookUpKey env w key s).strBuffer = some ((askedKey w.last key).getD key) := by
  unfold lookUpKey
  cases askedKey w.last key with
  | none => rfl
  | some asked =>
      dsimp only
      cases env.getStrCode asked <;> rfl

theorem lookUpKey_tried : (lookUpKey env w key s).tried = s.tried := by
  unfold lookUpKey
  cases askedKey w.last key with
  | none => rfl
  | some asked =>
      dsimp only
      cases env.getStrCode asked <;> rfl

theorem lookUpKey_restoreEnd (addLen : Nat) :
    (restoreEnd addLen (lookUpKey env w key s)).strBuffer = afterLookUp w.last key addLen := by
  rw [restoreEnd, lookUpKey_strBuffer]
  rfl

theorem readAlt_none {cp : List UInt8} (old : MrphFields) :
    readAlt old cp = none ↔ ¬ (utf8 "ALT-").isPrefixOf cp := by
  unfold readAlt
  split <;> simp_all

/-- The loop over the features tries the keys of the readings. -/
theorem altLoop_tried (lastKey : List UInt8) : ∀ {fs : List (List UInt8)} {s : KeyState},
    (∀ cp ∈ fs, ∀ m, readAlt emptyFields cp = some m → ∀ old, readAlt old cp = some m) →
      (altLoop env w lastKey fs s).1.tried =
        s.tried ++ tries env w.last lastKey (fs.filterMap (readAlt emptyFields)) s.strBuffer
  | [], s, _ => by
      rw [altLoop, List.filterMap_nil, tries, List.append_nil]
  | cp :: fs, s, h => by
      have hrest := fun cp hcp => h cp (List.mem_cons_of_mem _ hcp)
      unfold altLoop
      cases hm : readAlt emptyFields cp with
      | none =>
          rw [List.filterMap_cons_none hm, (readAlt_none s.m).mpr ((readAlt_none _).mp hm)]
          exact altLoop_tried lastKey hrest
      | some m =>
          rw [List.filterMap_cons_some hm, h cp List.mem_cons_self m hm s.m]
          cases hbuf : s.strBuffer with
          | none => simp [tries]
          | some strBuffer =>
              rw [tries]
              dsimp only
              cases haddd : addRepStr env m strBuffer with
              | none => simp
              | some key =>
                  dsimp only
                  split
                  · rw [altLoop_tried lastKey hrest, List.append_assoc]
                    rfl
                  · rw [altLoop_tried lastKey hrest, lookUpKey_restoreEnd]
                    simp [restoreEnd, lookUpKey_tried]

theorem lastMrph_tried (strBuffer : List UInt8) : (lastMrph env w strBuffer s).tried = s.tried ++
    match addRepStr env w.head strBuffer with
    | none => []
    | some key => tries env w.last ((askedKey w.last key).getD key) w.alternatives
        (afterLookUp w.last key (repStr env w.head).length) := by
  unfold lastMrph
  cases addRepStr env w.head strBuffer with
  | none => exact (List.append_nil _).symm
  | some key =>
      have hloop : (altLoop env w ((askedKey w.last key).getD key) w.features
          (restoreEnd (repStr env w.head).length (lookUpKey env w key s))).1.tried = _ :=
        altLoop_tried _ w.readable
      have htried : (lookUpKey env w key s).tried = s.tried := lookUpKey_tried
      rw [lookUpKey_restoreEnd] at hloop
      dsimp only
      rw [KeyWord.alternatives, ← htried]
      refine Eq.trans ?_ hloop
      split
      · split <;> simp [lookUpKey_tried]
      · rfl

/-- The morphemes in front of the last one have room in the buffer. -/
def PrefixFits (env : KeyEnv) : List UInt8 → List KeyPrefix → Prop
  | _, [] => True
  | strBuffer, p :: ps => strBuffer.length + (p.text env).length + 3 ≤ BNST_LENGTH_MAX ∧
      PrefixFits env (strBuffer ++ p.text env ++ if env.useRn then [PLUS] else []) ps

/-- The morphemes in front of the last one. -/
def prefixKey (env : KeyEnv) (ps : List KeyPrefix) : List UInt8 :=
  ps.flatMap fun p => p.text env ++ if env.useRn then [PLUS] else []

theorem makeKey_fits : ∀ {ps : List KeyPrefix} {strBuffer : List UInt8},
    PrefixFits env strBuffer ps → (makeKey env w ps strBuffer s).tried =
      (lastMrph env w (strBuffer ++ prefixKey env ps) s).tried
  | [], strBuffer, _ => by
      rw [prefixKey, List.flatMap_nil, List.append_nil]
      rfl
  | p :: ps, strBuffer, ⟨hp, hps⟩ => by
      rw [makeKey, if_neg (Nat.not_lt_of_le hp), prefixKey, List.flatMap_cons]
      refine (makeKey_fits hps).trans ?_
      simp only [prefixKey, List.append_assoc]

theorem makeKey_full : ∀ {ps : List KeyPrefix} {strBuffer : List UInt8},
    ¬ PrefixFits env strBuffer ps → (makeKey env w ps strBuffer s).tried = s.tried
  | [], _, h => absurd trivial h
  | p :: ps, strBuffer, h => by
      rw [makeKey]
      by_cases hp : BNST_LENGTH_MAX < strBuffer.length + (p.text env).length + 3
      · rw [if_pos hp]
      · rw [if_neg hp]
        exact makeKey_full fun hps => h ⟨Nat.le_of_not_lt hp, hps⟩

end Tries

/-! ## Own keys -/

/-- The key of a reading is the morphemes in front and the representation. It is looked up
if it is another one than that of the morpheme itself. -/
def ownTry (env : KeyEnv) (w : KeyWord) (m : MrphFields) : KeyTry :=
  let key := prefixKey env w.pre ++ repStr env m
  ⟨key, if repStr env m = repStr env w.head then none else some key⟩

/-- Each reading has its own key, whatever the buffers and the record have. -/
def OwnKeys (env : KeyEnv) (w : KeyWord) : Prop :=
  ∀ retBuffer usedKey m, (makeKeyAndGetCode env w retBuffer usedKey m).tried =
    w.alternatives.map (ownTry env w)

/-- The representation has room in the buffer, and is not empty. -/
def RepFits (env : KeyEnv) (w : KeyWord) (m : MrphFields) : Prop :=
  (prefixKey env w.pre).length + repRoom env m + 2 ≤ BNST_LENGTH_MAX ∧ repStr env m ≠ []

/-- A reading with the representation of the morpheme itself is the last one; any other one is
not 「する」 alone, and does not end with `+`. -/
def GoodReading (env : KeyEnv) (w : KeyWord) (m : MrphFields) (post : List MrphFields) : Prop :=
  RepFits env w m ∧ if repStr env m = repStr env w.head then post = [] else
    ¬ (0 < w.last ∧ prefixKey env w.pre ++ repStr env m = utf8 "する") ∧
      (repStr env m).getLast? ≠ some PLUS

/-- Everything fits into the buffer, the morpheme's own representation does not end with `+`, and
all readings are good. -/
def GoodReadings (env : KeyEnv) (w : KeyWord) : Prop :=
  w.alternatives ≠ [] → PrefixFits env [] w.pre ∧ RepFits env w w.head ∧
    (repStr env w.head).getLast? ≠ some PLUS ∧
    ∀ pre m post, w.alternatives = pre ++ m :: post → GoodReading env w m post

section Own

variable {env : KeyEnv} {w : KeyWord} {m : MrphFields} {ms : List MrphFields}
  {lastKey : List UInt8} {strBuffer : Option (List UInt8)}

/-- Behind a reading that leaves another text in the buffer, no key is right. -/
theorem tries_spoiled (hspoiled : strBuffer ≠ some (prefixKey env w.pre))
    (h : tries env w.last lastKey ms strBuffer = ms.map (ownTry env w)) : ms = [] := by
  cases ms with
  | nil => rfl
  | cons m ms =>
      exfalso
      cases strBuffer with
      | none => simp [tries] at h
      | some strBuffer =>
          have hkey : ∀ key, addRepStr env m strBuffer = some key →
              key ≠ prefixKey env w.pre ++ repStr env m := fun key hkey heq => by
            simp only [addRepStr, Option.ite_none_left_eq_some, Option.some.injEq] at hkey
            obtain ⟨-, -, rfl⟩ := hkey
            exact hspoiled (congrArg some (List.append_cancel_right heq))
          rw [tries, List.map_cons] at h
          cases hadd : addRepStr env m strBuffer with
          | none => simp [hadd] at h
          | some key =>
              simp only [hadd] at h
              split at h
              · exact hkey key hadd (congrArg KeyTry.built (List.cons.inj h).1)
              · exact hkey key hadd (congrArg KeyTry.built (List.cons.inj h).1)

theorem addRepStr_fits (h : RepFits env w m) : addRepStr env m (prefixKey env w.pre) =
    some (prefixKey env w.pre ++ repStr env m) := by
  have hne : (repStr env m).length ≠ 0 := fun hlen => h.2 (List.length_eq_zero_iff.mp hlen)
  rw [addRepStr, if_neg (Nat.not_lt_of_le h.1), if_neg hne]

theorem addRepStr_not_fits (h : ¬ RepFits env w m) :
    addRepStr env m (prefixKey env w.pre) = none := by
  rw [addRepStr]
  by_cases hroom : BNST_LENGTH_MAX < (prefixKey env w.pre).length + repRoom env m + 2
  · rw [if_pos hroom]
  · rw [if_neg hroom, if_pos]
    rw [List.length_eq_zero_iff]
    by_contra hne
    exact h ⟨Nat.le_of_not_lt hroom, hne⟩

theorem getLast?_suffix {b r : List UInt8} (hr : r ≠ []) : (b ++ r).getLast? = r.getLast? := by
  rw [List.getLast?_append, List.getLast?_eq_some_getLast hr]
  rfl

/-- A key that does not end with `+` is looked up as it is, and its end is taken away. -/
theorem askedKey_getD {last : Nat} {key : List UInt8} (hplus : key.getLast? ≠ some PLUS) :
    (askedKey last key).getD key = key := by
  unfold askedKey
  split_ifs
  · rfl
  · rfl

theorem askedKey_eq_self {last : Nat} {b r : List UInt8} (hr : r ≠ []) :
    askedKey last (b ++ r) = some (b ++ r) ↔
      ¬ (0 < last ∧ b ++ r = utf8 "する") ∧ r.getLast? ≠ some PLUS := by
  rw [← getLast?_suffix (b := b) hr]
  unfold askedKey
  split_ifs with hsuru hplus
  · simp [hsuru]
  · refine iff_of_false (fun heq => ?_) fun h => h.2 hplus
    have := congrArg List.length (Option.some.inj heq)
    have hlen := List.length_pos_iff.mpr hr
    simp only [List.length_dropLast, List.length_append] at this
    omega
  · exact iff_of_true rfl ⟨hsuru, hplus⟩

theorem afterLookUp_clean {last : Nat} {b r : List UInt8} (hr : r ≠ [])
    (hplus : r.getLast? ≠ some PLUS) : afterLookUp last (b ++ r) r.length = some b := by
  rw [← getLast?_suffix (b := b) hr] at hplus
  rw [afterLookUp, askedKey_getD hplus]
  simp

/-- The `+` is not put back, so that a byte too much is taken away. -/
theorem afterLookUp_plus {last : Nat} {b r : List UInt8} (hplus : r.getLast? = some PLUS) :
    afterLookUp last (b ++ r) r.length ≠ some b := by
  have hr : r ≠ [] := by
    rintro rfl
    cases hplus
  have hend := (getLast?_suffix (b := b) hr).trans hplus
  have hsuru : ¬ (0 < last ∧ b ++ r = utf8 "する") := by
    rintro ⟨-, heq⟩
    rw [heq] at hend
    exact absurd hend (by decide)
  have hlen := List.length_pos_iff.mpr hr
  rw [afterLookUp, askedKey, if_neg hsuru, if_pos hend]
  dsimp only [Option.getD_some]
  split_ifs with hshort
  · exact (Option.some_ne_none b).symm
  · intro heq
    have := congrArg List.length (Option.some.inj heq)
    simp only [List.length_take, List.length_dropLast, List.length_append] at this hshort
    omega

/-- From a buffer with the morphemes in front, the readings have their own keys exactly if they
are good. -/
theorem tries_eq_iff (hhead : repStr env w.head ≠ []) : ∀ {ms : List MrphFields},
    tries env w.last (prefixKey env w.pre ++ repStr env w.head) ms (some (prefixKey env w.pre)) =
      ms.map (ownTry env w) ↔ ∀ pre m post, ms = pre ++ m :: post → GoodReading env w m post
  | [] => by simp [tries]
  | m :: ms => by
      rw [Loop.forall_split_cons (P := GoodReading env w), tries, List.map_cons]
      by_cases hfits : RepFits env w m
      · rw [addRepStr_fits hfits]
        simp only [List.append_cancel_left_eq]
        by_cases hsame : repStr env m = repStr env w.head
        · have hown : ownTry env w m = ⟨prefixKey env w.pre ++ repStr env m, none⟩ := by
            rw [ownTry, if_pos hsame]
          rw [if_pos hsame, hown, List.cons.injEq, and_iff_right rfl]
          constructor
          · intro h
            have hspoiled : some (prefixKey env w.pre ++ repStr env m) ≠
                some (prefixKey env w.pre) := by
              rw [hsame]
              simpa using hhead
            obtain rfl := tries_spoiled hspoiled h
            exact ⟨⟨hfits, by rw [if_pos hsame]⟩, by simp⟩
          · rintro ⟨⟨-, hlast⟩, -⟩
            rw [if_pos hsame] at hlast
            rw [hlast]
            rfl
        · have hown : ownTry env w m =
              ⟨prefixKey env w.pre ++ repStr env m, some (prefixKey env w.pre ++ repStr env m)⟩ := by
            rw [ownTry, if_neg hsame]
          rw [if_neg hsame, hown, List.cons.injEq, KeyTry.mk.injEq, and_iff_right rfl,
            askedKey_eq_self hfits.2, GoodReading, and_iff_right hfits, if_neg hsame]
          refine and_congr_right fun hgood => ?_
          rw [afterLookUp_clean hfits.2 hgood.2, tries_eq_iff hhead]
      · rw [addRepStr_not_fits hfits]
        exact iff_of_false (List.cons_ne_nil _ _).symm fun h => hfits h.1.1

end Own

/-- What is tried where the morphemes in front have room. -/
theorem ownKeys_of_tried {env : KeyEnv} {w : KeyWord} {tried : List KeyTry}
    (h : ∀ retBuffer usedKey m, (makeKeyAndGetCode env w retBuffer usedKey m).tried = tried) :
    OwnKeys env w ↔ tried = w.alternatives.map (ownTry env w) :=
  ⟨fun hown => (h [] [] emptyFields).symm.trans (hown [] [] emptyFields),
    fun heq retBuffer usedKey m => (h retBuffer usedKey m).trans heq⟩

/-- Each reading has its own key, whatever came before it, exactly if all readings are good. -/
theorem ownKeys_iff (env : KeyEnv) (w : KeyWord) : OwnKeys env w ↔ GoodReadings env w := by
  by_cases hpre : PrefixFits env [] w.pre
  case neg =>
    rw [ownKeys_of_tried fun _ _ _ => makeKey_full hpre, eq_comm, List.map_eq_nil_iff]
    exact ⟨fun hnil hne => absurd hnil hne, fun h => by_contra fun hne => hpre (h hne).1⟩
  have htried : ∀ retBuffer usedKey m, (makeKeyAndGetCode env w retBuffer usedKey m).tried =
      match addRepStr env w.head (prefixKey env w.pre) with
      | none => []
      | some key => tries env w.last ((askedKey w.last key).getD key) w.alternatives
          (afterLookUp w.last key (repStr env w.head).length) := fun retBuffer usedKey m => by
    rw [makeKeyAndGetCode, makeKey_fits hpre, List.nil_append, lastMrph_tried]
    rfl
  rw [ownKeys_of_tried htried]
  by_cases hfits : RepFits env w w.head
  case neg =>
    rw [addRepStr_not_fits hfits, eq_comm, List.map_eq_nil_iff]
    exact ⟨fun hnil hne => absurd hnil hne, fun h => by_contra fun hne => hfits (h hne).2.1⟩
  rw [addRepStr_fits hfits]
  dsimp only
  by_cases hplus : (repStr env w.head).getLast? = some PLUS
  case pos =>
    constructor
    · exact fun heq hne => absurd (tries_spoiled (afterLookUp_plus hplus) heq) hne
    · intro h
      by_cases hnone : w.alternatives = []
      · rw [hnone]
        rfl
      · exact absurd hplus (h hnone).2.2.1
  rw [askedKey_getD (by rwa [getLast?_suffix hfits.2]), afterLookUp_clean hfits.2 hplus,
    tries_eq_iff hfits.2]
  constructor
  · exact fun h _ => ⟨hpre, hfits, hplus, h⟩
  · intro h pre m post heq
    refine (h fun hnone => ?_).2.2.2 pre m post heq
    rw [hnone] at heq
    exact List.append_ne_nil_of_right_ne_nil pre (List.cons_ne_nil m post) heq.symm

/-! ## A reading equal to the morpheme itself -/

/-- All fields are read from the features of readings without hyphens in their words. -/
theorem readable_features {ms : List MrphFields}
    (h : ∀ m ∈ ms, m.Readable ∧ 45 ∉ m.goi2 ∧ 45 ∉ m.yomi ∧ 45 ∉ m.goi) :
    ∀ cp ∈ ms.map altFeature, ∀ m, readAlt emptyFields cp = some m →
      ∀ old, readAlt old cp = some m := by
  intro cp hcp m hm old
  obtain ⟨m', hm', rfl⟩ := List.mem_map.mp hcp
  obtain ⟨hread, hgoi2, hyomi, hgoi⟩ := h m' hm'
  have hall (old : MrphFields) : readAlt old (altFeature m') = some m' := by
    rw [readAlt_altFeature, scan_altFeature hread hgoi2 hyomi hgoi]
    rfl
  rw [hall old, ← hm, hall emptyFields]

def auReading (kanji : String) : MrphFields :=
  ⟨utf8 kanji, utf8 "あう", utf8 kanji, 2, 0, 12, 2, utf8 ("代表表記:" ++ kanji ++ "/あう")⟩

/-- 「会う」, with the readings 「会う」 and 「合う」. -/
def au : KeyWord where
  pre := []
  head := auReading "会う"
  features := [auReading "会う", auReading "合う"].map altFeature
  repChanged := none
  last := 0
  readable := readable_features fun m hm => by
    obtain rfl | rfl : m = auReading "会う" ∨ m = auReading "合う" := by simpa using hm
    all_goals exact ⟨⟨⟨by decide, by decide +kernel⟩, ⟨by decide, by decide +kernel⟩,
      ⟨by decide, by decide +kernel⟩, by decide, by decide +kernel⟩, by decide +kernel,
      by decide +kernel, by decide +kernel⟩

def verbEnv : KeyEnv where
  japanese := true
  useRn := false
  className := fun _ => utf8 "動詞"
  typeName := fun _ => utf8 "子音動詞ワ行"
  getStrCode := fun _ => none

/-- The second reading is looked up with 「会う合う」. -/
theorem au_not_ownKeys : ¬ OwnKeys verbEnv au ∧
    (makeKeyAndGetCode verbEnv au [] [] emptyFields).tried =
      [⟨utf8 "会う", none⟩, ⟨utf8 "会う合う", some (utf8 "会う合う")⟩] := by
  have htried : (makeKeyAndGetCode verbEnv au [] [] emptyFields).tried =
      [⟨utf8 "会う", none⟩, ⟨utf8 "会う合う", some (utf8 "会う合う")⟩] := by decide +kernel
  refine ⟨fun hown => ?_, htried⟩
  have hsecond := congrArg (·[1]?) ((hown [] [] emptyFields).symm.trans htried)
  have hau : (au.alternatives.map (ownTry verbEnv au))[1]? =
      some ⟨utf8 "合う", some (utf8 "合う")⟩ := by decide +kernel
  rw [hau] at hsecond
  exact absurd hsecond (by decide)

end Knp
