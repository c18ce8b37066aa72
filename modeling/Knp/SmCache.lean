import Knp.Chain
import Knp.Hash
import Knp.Loop

/-!
# The cache of semantic markers (`lib_sm.c`)

`smlist` has a bucket for each hash value. The first entry of a bucket is in
the array itself, further ones are chained behind it. `ClearSMList` frees them
all, but leaves the pointer to the second entry in the array.

> A call answers with the value registered last since the last clear, as long
> as no call follows a pointer that a clear has left behind.

The calls are listed with the latest first.
-/

namespace Knp

abbrev CStr := List UInt8

/-- `SMLIST`: an element of the array. `next` is `none` where it points to
entries that have been freed. -/
structure SmBucket where
  entry : Option (CStr × CStr)
  next : Option (List (CStr × CStr))

abbrev SmList := Nat → SmBucket

/-- The array as the program starts. -/
def initSmList : SmList := fun _ => ⟨none, some []⟩

/-- The loop over the bucket `slp` in `register_noun_sm`; `none` where it reads
freed memory. -/
def registerIn (key sm : CStr) (slp : SmBucket) : Option SmBucket :=
  match slp.entry with
  | none => some { slp with entry := some (key, sm) }
  | some e =>
      if e.1 = key then some { slp with entry := some (e.1, sm) }
      else slp.next.map fun chain => { slp with next := some (Chain.put key sm chain) }

/-- The loop over the bucket `slp` in `check_noun_sm`. -/
def checkIn (key : CStr) (slp : SmBucket) : Option (Option CStr) :=
  match slp.entry with
  | none => some none
  | some e => if e.1 = key then some (some e.2) else slp.next.map (List.lookup key)

/-- What `ClearSMList` does to one bucket. -/
def clearBucket (slp : SmBucket) : Option SmBucket :=
  slp.next.map fun chain => ⟨none, if chain = [] then some [] else none⟩

section Calls

variable (seed : Seed)

/-- `register_noun_sm`; the key may be `NULL`. -/
def registerNounSm (key : Option CStr) (sm : CStr) (l : SmList) : Option SmList :=
  match key with
  | none => some l
  | some key => (registerIn key sm (l (hash seed key))).map (Function.update l (hash seed key))

/-- `check_noun_sm` -/
def checkNounSm (key : CStr) (l : SmList) : Option (Option CStr) := checkIn key (l (hash seed key))

/-- `ClearSMList` -/
def clearSMList (l : SmList) : Option SmList :=
  if ∀ i < TBLSIZE, (clearBucket (l i)).isSome then
    some fun i => if i < TBLSIZE then (clearBucket (l i)).getD (l i) else l i
  else none

inductive SmCall
  | register (key : Option CStr) (sm : CStr)
  | check (key : CStr)
  | clear
deriving DecidableEq

/-- The array after a call. -/
def SmCall.run (l : SmList) : SmCall → Option SmList
  | .register key sm => registerNounSm seed key sm l
  | .check key => (checkNounSm seed key l).map fun _ => l
  | .clear => clearSMList l

/-- The array after all calls. -/
def runCalls : List SmCall → Option SmList
  | [] => some initSmList
  | call :: past => (runCalls past).bind fun l => call.run seed l

end Calls

/-! ## What the calls mean -/

/-- The value registered last for a key since the most recent clear. -/
def registered (key : CStr) : List SmCall → Option CStr
  | [] => none
  | .clear :: _ => none
  | .check _ :: past => registered key past
  | .register k sm :: past => if k = some key then some sm else registered key past

section Meaning

variable (seed : Seed)

/-- The entries of bucket `h`, the first registered first. -/
def bucketEntries (h : Nat) : List SmCall → List (CStr × CStr)
  | [] => []
  | .clear :: _ => []
  | .check _ :: past => bucketEntries h past
  | .register none _ :: past => bucketEntries h past
  | .register (some k) sm :: past =>
      if hash seed k = h then Chain.put k sm (bucketEntries h past) else bucketEntries h past

/-- At some clear, bucket `h` had more than one entry. -/
def LeftPointer (h : Nat) : List SmCall → Prop
  | [] => False
  | .clear :: past => 1 < (bucketEntries seed h past).length ∨ LeftPointer h past
  | _ :: past => LeftPointer h past

/-- The call follows a pointer that a clear has left: a clear does so in any
such bucket, the other calls where the first entry has another key. -/
def FollowsLeftPointer (past : List SmCall) : SmCall → Prop
  | .clear => ∃ h < TBLSIZE, LeftPointer seed h past
  | .check key => LeftPointer seed (hash seed key) past ∧
      ∃ e ∈ (bucketEntries seed (hash seed key) past).head?, e.1 ≠ key
  | .register none _ => False
  | .register (some key) _ => LeftPointer seed (hash seed key) past ∧
      ∃ e ∈ (bucketEntries seed (hash seed key) past).head?, e.1 ≠ key

/-- No call of `calls` follows a pointer that an earlier clear has left. -/
def Unspoiled (calls : List SmCall) : Prop :=
  ∀ later call past, calls = later ++ call :: past → ¬ FollowsLeftPointer seed past call

/-- Every call of `calls` returns, and every check answers with the value
registered last. -/
def AnswersLast (calls : List SmCall) : Prop :=
  ∀ later call past, calls = later ++ call :: past → ∃ l, runCalls seed past = some l ∧
    (call.run seed l).isSome ∧
    ∀ key, call = .check key → checkNounSm seed key l = some (registered key past)

end Meaning

/-! ## The array and the calls so far -/

section Holds

variable {seed : Seed} {h : Nat} {past : List SmCall} {slp : SmBucket} {key sm : CStr}

/-- A bucket after the calls `past`. -/
structure Holds (seed : Seed) (h : Nat) (past : List SmCall) (slp : SmBucket) : Prop where
  entry_eq : slp.entry = (bucketEntries seed h past).head?
  next_eq : ¬ LeftPointer seed h past → slp.next = some (bucketEntries seed h past).tail
  next_left : LeftPointer seed h past →
    slp.next = none ∧ (bucketEntries seed h past).length ≤ 1

theorem Holds.init : Holds seed h [] ⟨none, some []⟩ where
  entry_eq := rfl
  next_eq _ := rfl
  next_left hleft := hleft.elim

/-- A call that does not concern the bucket. -/
theorem Holds.congr {past' : List SmCall} (hslp : Holds seed h past slp)
    (hentries : bucketEntries seed h past' = bucketEntries seed h past)
    (hleft : LeftPointer seed h past' ↔ LeftPointer seed h past) : Holds seed h past' slp where
  entry_eq := hentries ▸ hslp.entry_eq
  next_eq hnot := hentries ▸ hslp.next_eq fun hc => hnot (hleft.mpr hc)
  next_left hc := hentries ▸ hslp.next_left (hleft.mp hc)

theorem bucketEntries_register_self :
    bucketEntries seed (hash seed key) (.register (some key) sm :: past) =
      Chain.put key sm (bucketEntries seed (hash seed key) past) := if_pos rfl

theorem bucketEntries_register_of_ne (hne : hash seed key ≠ h) :
    bucketEntries seed h (.register (some key) sm :: past) = bucketEntries seed h past := if_neg hne

/-- The entries of its bucket give the value registered last for a key. -/
theorem lookup_bucketEntries (key : CStr) : ∀ past : List SmCall,
    List.lookup key (bucketEntries seed (hash seed key) past) = registered key past
  | [] => rfl
  | .clear :: _ => rfl
  | .check _ :: past => lookup_bucketEntries key past
  | .register none _ :: past => by
      unfold registered
      rw [if_neg (by simp)]
      exact lookup_bucketEntries key past
  | .register (some k) sm :: past => by
      unfold registered
      by_cases hk : k = key
      · rw [if_pos (congrArg some hk), ← hk, bucketEntries_register_self, Chain.lookup_put_self]
      · rw [if_neg fun heq => hk (Option.some.inj heq), ← lookup_bucketEntries key past]
        by_cases hh : hash seed k = hash seed key
        · rw [← hh, bucketEntries_register_self, Chain.lookup_put_of_ne fun heq => hk heq.symm]
        · rw [bucketEntries_register_of_ne hh]

/-- A check walks the entries of its bucket, unless it would follow a pointer
left by a clear. -/
theorem Holds.checkIn_eq (hslp : Holds seed (hash seed key) past slp)
    (hcall : ¬ FollowsLeftPointer seed past (.check key)) :
    checkIn key slp = some (registered key past) := by
  have hlookup : List.lookup key (bucketEntries seed (hash seed key) past) = registered key past :=
    lookup_bucketEntries key past
  rw [← hlookup]
  unfold checkIn
  rw [hslp.entry_eq]
  cases hentries : bucketEntries seed (hash seed key) past with
  | nil => rfl
  | cons e c =>
      dsimp only [List.head?_cons]
      by_cases he : e.1 = key
      · rw [if_pos he, Chain.lookup_cons_of_eq e he]
      · have hnot : ¬ LeftPointer seed (hash seed key) past := fun hleft =>
          hcall ⟨hleft, e, by rw [hentries]; exact rfl, he⟩
        rw [if_neg he, hslp.next_eq hnot, hentries, Chain.lookup_cons_of_ne e he]
        rfl

/-- Freed memory is read where the call follows a pointer left by a clear. -/
theorem Holds.next_eq_none (sm : CStr) (hslp : Holds seed (hash seed key) past slp)
    (hleft : LeftPointer seed (hash seed key) past)
    (hfirst : ∃ e ∈ (bucketEntries seed (hash seed key) past).head?, e.1 ≠ key) :
    checkIn key slp = none ∧ registerIn key sm slp = none := by
  obtain ⟨e, he, hne⟩ := hfirst
  have hentry : slp.entry = some e := hslp.entry_eq.trans he
  unfold checkIn registerIn
  rw [hentry, (hslp.next_left hleft).1]
  dsimp only
  rw [if_neg hne, if_neg hne]
  exact ⟨rfl, rfl⟩

/-- A registration puts its entry. -/
theorem Holds.register (hslp : Holds seed (hash seed key) past slp)
    (hcall : ¬ FollowsLeftPointer seed past (.register (some key) sm)) :
    ∃ slp', registerIn key sm slp = some slp' ∧
      Holds seed (hash seed key) (.register (some key) sm :: past) slp' := by
  unfold registerIn
  rw [hslp.entry_eq]
  cases hentries : bucketEntries seed (hash seed key) past with
  | nil =>
      refine ⟨_, rfl, ?_, fun hnot => ?_, fun hleft => ?_⟩
      · rw [bucketEntries_register_self, hentries]
        rfl
      · rw [bucketEntries_register_self, hentries]
        have := hslp.next_eq hnot
        rwa [hentries] at this
      · rw [bucketEntries_register_self, hentries]
        exact ⟨(hslp.next_left hleft).1, le_rfl⟩
  | cons e c =>
      dsimp only [List.head?_cons]
      by_cases he : e.1 = key
      · have hput : Chain.put key sm (e :: c) = (key, sm) :: c := if_pos he
        rw [if_pos he]
        refine ⟨_, rfl, ?_, fun hnot => ?_, fun hleft => ?_⟩
        · rw [bucketEntries_register_self, hentries, hput, he]
          rfl
        · rw [bucketEntries_register_self, hentries, hput]
          have := hslp.next_eq hnot
          rwa [hentries] at this
        · have := hslp.next_left hleft
          rw [hentries] at this
          rw [bucketEntries_register_self, hentries, hput]
          exact this
      · have hput : Chain.put key sm (e :: c) = e :: Chain.put key sm c := if_neg he
        have hnot : ¬ LeftPointer seed (hash seed key) past := fun hleft =>
          hcall ⟨hleft, e, by rw [hentries]; exact rfl, he⟩
        have hnext := hslp.next_eq hnot
        rw [hentries] at hnext
        rw [if_neg he, hnext]
        refine ⟨_, rfl, ?_, fun _ => ?_, fun hleft => absurd hleft hnot⟩
        · rw [bucketEntries_register_self, hentries, hput]
          rfl
        · rw [bucketEntries_register_self, hentries, hput]
          rfl

/-- A clear empties a bucket, and leaves a pointer if it had several entries. -/
theorem Holds.clear (hslp : Holds seed h past slp) (hnot : ¬ LeftPointer seed h past) :
    ∃ slp', clearBucket slp = some slp' ∧ Holds seed h (.clear :: past) slp' := by
  unfold clearBucket
  rw [hslp.next_eq hnot]
  refine ⟨_, rfl, rfl, fun hleft => ?_, fun hleft => ?_⟩
  · have hlen : ¬ 1 < (bucketEntries seed h past).length := fun hlt => hleft (Or.inl hlt)
    have htail : (bucketEntries seed h past).tail = [] :=
      List.eq_nil_of_length_eq_zero (by rw [List.length_tail]; omega)
    exact if_pos htail
  · have hlen : 1 < (bucketEntries seed h past).length := hleft.resolve_right hnot
    refine ⟨if_neg fun htail => ?_, Nat.zero_le 1⟩
    have := congrArg List.length htail
    rw [List.length_tail, List.length_nil] at this
    omega

end Holds

/-! ## All calls -/

section Runs

variable {seed : Seed} {past : List SmCall} {l : SmList}

theorem clearSMList_of_isSome (hall : ∀ h < TBLSIZE, (clearBucket (l h)).isSome) :
    clearSMList l = some fun i => if i < TBLSIZE then (clearBucket (l i)).getD (l i) else l i := by
  unfold clearSMList
  rw [if_pos hall]

/-- A call that follows no pointer left by a clear. -/
theorem run_of_not_follows (hl : ∀ h < TBLSIZE, Holds seed h past (l h)) (call : SmCall)
    (hcall : ¬ FollowsLeftPointer seed past call) :
    ∃ l', call.run seed l = some l' ∧ ∀ h < TBLSIZE, Holds seed h (call :: past) (l' h) := by
  cases call with
  | clear =>
      have hnot : ∀ h < TBLSIZE, ¬ LeftPointer seed h past := fun h hlt hleft => hcall ⟨h, hlt, hleft⟩
      have hrun := fun h hlt => (hl h hlt).clear (hnot h hlt)
      have hall : ∀ h < TBLSIZE, (clearBucket (l h)).isSome := fun h hlt => by
        obtain ⟨slp', heq, -⟩ := hrun h hlt
        rw [heq]
        rfl
      refine ⟨_, clearSMList_of_isSome hall, fun h hlt => ?_⟩
      obtain ⟨slp', heq, hholds⟩ := hrun h hlt
      rw [if_pos hlt, heq]
      exact hholds
  | check key =>
      have hcheck := (hl _ (hash_lt seed key)).checkIn_eq hcall
      refine ⟨l, ?_, fun h hlt => (hl h hlt).congr rfl Iff.rfl⟩
      show (checkIn key (l (hash seed key))).map _ = some l
      rw [hcheck]
      rfl
  | register key sm =>
      cases key with
      | none => exact ⟨l, rfl, fun h hlt => (hl h hlt).congr rfl Iff.rfl⟩
      | some key =>
          obtain ⟨slp', heq, hholds⟩ := (hl _ (hash_lt seed key)).register hcall
          refine ⟨Function.update l (hash seed key) slp', ?_, fun h hlt => ?_⟩
          · show (registerIn key sm (l (hash seed key))).map _ = _
            rw [heq]
            rfl
          · by_cases hh : h = hash seed key
            · rw [hh, Function.update_self]
              exact hholds
            · rw [Function.update_of_ne hh]
              exact (hl h hlt).congr (bucketEntries_register_of_ne fun heq => hh heq.symm) Iff.rfl

/-- A call that follows a pointer left by a clear reads freed memory. -/
theorem run_of_follows (hl : ∀ h < TBLSIZE, Holds seed h past (l h)) (call : SmCall)
    (hcall : FollowsLeftPointer seed past call) : call.run seed l = none := by
  cases call with
  | clear =>
      obtain ⟨h, hlt, hleft⟩ := hcall
      have hnot : ¬ ∀ i < TBLSIZE, (clearBucket (l i)).isSome := fun hall => by
        have := hall h hlt
        rw [clearBucket, ((hl h hlt).next_left hleft).1] at this
        cases this
      show clearSMList l = none
      unfold clearSMList
      rw [if_neg hnot]
  | check key =>
      obtain ⟨hleft, hfirst⟩ := hcall
      have hnone : checkIn key (l (hash seed key)) = none :=
        ((hl _ (hash_lt seed key)).next_eq_none [] hleft hfirst).1
      show (checkIn key (l (hash seed key))).map _ = none
      rw [hnone]
      rfl
  | register key sm =>
      cases key with
      | none => exact hcall.elim
      | some key =>
          obtain ⟨hleft, hfirst⟩ := hcall
          have hnone : registerIn key sm (l (hash seed key)) = none :=
            ((hl _ (hash_lt seed key)).next_eq_none sm hleft hfirst).2
          show (registerIn key sm (l (hash seed key))).map _ = none
          rw [hnone]
          rfl

/-- The array after calls that follow no pointer left by a clear. -/
theorem runCalls_holds : ∀ {calls : List SmCall}, Unspoiled seed calls →
    ∃ l, runCalls seed calls = some l ∧ ∀ h < TBLSIZE, Holds seed h calls (l h)
  | [], _ => ⟨initSmList, rfl, fun _ _ => Holds.init⟩
  | call :: past, hcalls => by
      obtain ⟨hcall, hpast⟩ := Loop.forall_split_cons.mp hcalls
      obtain ⟨l, hrun, hl⟩ := runCalls_holds hpast
      obtain ⟨l', hstep, hl'⟩ := run_of_not_follows hl call hcall
      exact ⟨l', by rw [runCalls, hrun]; exact hstep, hl'⟩

/-- The cache answers right exactly as long as no call follows a pointer that a
clear has left behind. -/
theorem answersLast_iff (calls : List SmCall) : AnswersLast seed calls ↔ Unspoiled seed calls := by
  induction calls with
  | nil => simp [AnswersLast, Unspoiled]
  | cons call past ih =>
      rw [AnswersLast, Loop.forall_split_cons, Unspoiled, Loop.forall_split_cons]
      change _ ∧ AnswersLast seed past ↔ _ ∧ Unspoiled seed past
      rw [ih]
      refine and_congr_left fun hpast => ?_
      obtain ⟨l, hrun, hl⟩ := runCalls_holds hpast
      constructor
      · rintro ⟨l', hrun', hreturns, -⟩ hcall
        obtain rfl := Option.some.inj (hrun.symm.trans hrun')
        rw [run_of_follows hl call hcall] at hreturns
        cases hreturns
      · intro hcall
        obtain ⟨l', hstep, -⟩ := run_of_not_follows hl call hcall
        refine ⟨l, hrun, by rw [hstep]; rfl, fun key hkey => ?_⟩
        subst hkey
        exact (hl _ (hash_lt seed key)).checkIn_eq hcall

end Runs

/-- Three keys that share a bucket, since all random numbers are 0. -/
def sharedBucket : List SmCall :=
  [.register (some [99]) [51], .clear, .register (some [98]) [50], .register (some [97]) [49]]

/-- The check of the second key reads the entry freed by the clear. -/
theorem sharedBucket_not_answersLast :
    ¬ AnswersLast (fun _ _ => 0) (.check [98] :: sharedBucket) := by
  have hpast : Unspoiled (fun _ _ => 0) sharedBucket := by
    refine Loop.forall_split_cons.mpr ⟨?_, Loop.forall_split_cons.mpr ⟨?_, Loop.forall_split_cons.mpr ⟨?_,
      Loop.forall_split_cons.mpr ⟨?_, by simp⟩⟩⟩⟩
    · rintro ⟨-, e, he, -⟩
      cases he
    · rintro ⟨h, -, hleft⟩
      exact hleft
    · rintro ⟨hleft, -⟩
      exact hleft
    · rintro ⟨hleft, -⟩
      exact hleft
  obtain ⟨l, hrun, hl⟩ := runCalls_holds hpast
  have hfollows : FollowsLeftPointer (fun _ _ => 0) sharedBucket (.check [98]) :=
    ⟨Or.inl (by decide), ([99], [51]), by decide, by decide⟩
  intro hanswers
  obtain ⟨l', hrun', hreturns, -⟩ := hanswers [] (.check [98]) sharedBucket rfl
  obtain rfl := Option.some.inj (hrun.symm.trans hrun')
  rw [run_of_follows hl _ hfollows] at hreturns
  cases hreturns

end Knp
