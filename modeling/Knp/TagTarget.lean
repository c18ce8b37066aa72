import Knp.CaseMatch
import Knp.Hash
import Knp.Ledger

/-!
# The memory of predicates and their arguments (`context.c`)

`RegisterTagTarget` stores a word under a predicate, its voice, the address of
its case frame and a case; `CheckTagTarget` looks it up. `palist` is a hash
table with a chain of predicates in each bucket, and each predicate has a table
of lists of components, one list for each case.

> What is looked up is what was registered, if a predicate has one case frame
> in each voice, no case is ノ格, and a component without a particle does not
> come before the one with the particle that is looked for.

`RegisterTagTarget` compares `cf_addr` with itself, and `CheckBasicPP` accepts
the case 41, which the table of components does not have: an access outside it
is `none`.
-/

namespace Knp

def CASE_MAX_NUM : Nat := 20

def CREL : Int := 1

def EREL : Int := 2

/-- `CASE_COMPONENT` -/
structure CaseComponent where
  word : List UInt8
  ppStr : Option (List UInt8)
  sentNum : Int
  tagNum : Int
  count : Nat
  flag : Int
deriving DecidableEq

/-- `PALIST`: the lists of components are the first `CASE_MAX_NUM` ones. -/
structure PaList where
  key : List UInt8
  voice : Int
  cfAddr : Int
  cc : Nat → List CaseComponent

/-- The arguments of `RegisterTagTarget`. -/
structure Registration where
  key : List UInt8
  voice : Int
  cfAddr : Int
  pp : Int
  ppStr : Option (List UInt8)
  word : Option (List UInt8)
  sentN : Int
  tagN : Int
  flag : Int

/-- The arguments of `CheckTagTarget`. -/
structure TagTargetQuery where
  key : List UInt8
  voice : Int
  cfAddr : Int
  pp : Int
  ppStr : Option (List UInt8)

/-! ## The program -/

def checkBasicPP (pp : Int) : Bool :=
  if pp = 41 then true -- ノ格 ok
  else if pp = END_M || pp > 8 || pp < 0 then false
  else true

def newComponent (word : List UInt8) (r : Registration) : CaseComponent :=
  ⟨word, r.ppStr, r.sentN, r.tagN, 1, r.flag⟩

def storeCaseComponent (word : List UInt8) (r : Registration) :
    List CaseComponent → List CaseComponent
  | [] => [newComponent word r]
  | c :: ccp =>
      -- ノ格格指定あり: 上書き
      if r.ppStr ≠ none ∧ c.ppStr ≠ none ∧ c.ppStr = r.ppStr then
        { c with word, sentNum := r.sentN, tagNum := r.tagN, count := 1, flag := r.flag } :: ccp
      -- すでに登録されているとき: 同じ単語があれば
      else if r.ppStr = none ∧ c.ppStr = none ∧ c.word = word then
        { c with
          flag := if c.flag = EREL ∧ r.flag = CREL then CREL else c.flag
          count := c.count + 1 } :: ccp
      else c :: storeCaseComponent word r ccp

/-- The list at `cc[pp]`, replaced; `none` outside the table. -/
def PaList.store (word : List UInt8) (r : Registration) (pa : PaList) : Option PaList :=
  if 0 ≤ r.pp ∧ r.pp < CASE_MAX_NUM then
    some { pa with
      cc := Function.update pa.cc r.pp.toNat (storeCaseComponent word r (pa.cc r.pp.toNat)) }
  else none

/-- The loop over the predicates of a bucket. The third comparison is the one of the source. -/
def registerChain (word : List UInt8) (r : Registration) : List PaList → Option (List PaList)
  | [] => do
      let pa ← PaList.store word r ⟨r.key, r.voice, r.cfAddr, fun _ => []⟩
      return [pa]
  | pa :: papp =>
      if pa.key = r.key ∧ pa.voice = r.voice ∧ pa.cfAddr = pa.cfAddr then do
        let pa ← pa.store word r
        return pa :: papp
      else do
        let papp ← registerChain word r papp
        return pa :: papp

abbrev PaTable := Nat → List PaList

/-- `InitContextHash` -/
def initContextHash : PaTable := fun _ => []

def registerTagTarget (seed : Seed) (r : Registration) (palist : PaTable) : Option PaTable :=
  match r.word with
  | none => some palist
  | some word =>
      if checkBasicPP r.pp = false then some palist
      else do
        let h := hash seed r.key
        let pap ← registerChain word r (palist h)
        return Function.update palist h pap

def registerAll (seed : Seed) (regs : List Registration) : Option PaTable :=
  regs.foldlM (fun palist r => registerTagTarget seed r palist) initContextHash

/-- The list at `cc[pp]`; `none` outside the table. -/
def PaList.at? (pa : PaList) (pp : Int) : Option (List CaseComponent) :=
  if 0 ≤ pp ∧ pp < CASE_MAX_NUM then some (pa.cc pp.toNat) else none

/-- The loops of `CheckTagTarget` over the components of a case. -/
def searchComponents (ppStr : Option (List UInt8)) (ccp : List CaseComponent) :
    Option CaseComponent :=
  match ppStr with
  | some ppStr => ccp.find? fun c => c.ppStr = none ∨ c.ppStr = some ppStr -- ノ格の格指定あるとき
  | none => ccp.getLast? -- 最後の要素を返す

/-- The loop of `CheckTagTarget` over the predicates of a bucket. -/
def checkChain (q : TagTargetQuery) : List PaList → Option (Option CaseComponent)
  | [] => some none
  | pa :: pap =>
      if pa.key = q.key ∧ pa.voice = q.voice ∧ pa.cfAddr = q.cfAddr then do
        let ccp ← pa.at? q.pp
        return searchComponents q.ppStr ccp
      else checkChain q pap

/-- `CheckTagTarget`: the inner option is the pointer. -/
def checkTagTarget (seed : Seed) (q : TagTargetQuery) (palist : PaTable) :
    Option (Option CaseComponent) :=
  if checkBasicPP q.pp = false then some none
  else checkChain q (palist (hash seed q.key))

/-! ## The lists as ledgers -/

namespace Registration

/-- The word is stored. -/
def Accepted (r : Registration) : Prop := r.word ≠ none ∧ checkBasicPP r.pp = true

instance (r : Registration) : Decidable r.Accepted := inferInstanceAs (Decidable (_ ∧ _))

/-- What tells components apart: the particle, and the word where there is none. -/
def entry (r : Registration) : List UInt8 ⊕ List UInt8 :=
  match r.ppStr with
  | some ppStr => .inl ppStr
  | none => .inr (r.word.getD [])

end Registration

def CaseComponent.entry (c : CaseComponent) : List UInt8 ⊕ List UInt8 :=
  match c.ppStr with
  | some ppStr => .inl ppStr
  | none => .inr c.word

def touchComponent (r : Registration) (c : CaseComponent) : CaseComponent :=
  match r.ppStr with
  | some _ => { c with
      word := r.word.getD [], sentNum := r.sentN, tagNum := r.tagN, count := 1, flag := r.flag }
  | none => { c with
      flag := if c.flag = EREL ∧ r.flag = CREL then CREL else c.flag
      count := c.count + 1 }

/-- The components of a case. -/
def componentLedger : Ledger Registration CaseComponent (List UInt8 ⊕ List UInt8) where
  key := Registration.entry
  keyOf := CaseComponent.entry
  new r := newComponent (r.word.getD []) r
  touch := touchComponent
  keyOf_new _ := rfl
  keyOf_touch r c h := by
    rw [← h]
    unfold touchComponent
    cases hr : r.ppStr with
    | none => rfl
    | some ppStr =>
        unfold Registration.entry CaseComponent.entry at h
        rw [hr] at h
        cases hc : c.ppStr with
        | none => rw [hc] at h; cases h
        | some _ => simp [CaseComponent.entry, hc]

/-- The two comparisons of `StoreCaseComponent`. -/
theorem entry_eq_iff {r : Registration} {c : CaseComponent} :
    c.entry = r.entry ↔ (r.ppStr ≠ none ∧ c.ppStr ≠ none ∧ c.ppStr = r.ppStr) ∨
      (r.ppStr = none ∧ c.ppStr = none ∧ c.word = r.word.getD []) := by
  unfold Registration.entry CaseComponent.entry
  cases r.ppStr <;> cases c.ppStr <;> simp

theorem storeCaseComponent_eq (r : Registration) : ∀ ccp : List CaseComponent,
    storeCaseComponent (r.word.getD []) r ccp = componentLedger.record r ccp
  | [] => rfl
  | c :: ccp => by
      have hkey : componentLedger.keyOf c = componentLedger.key r ↔ _ := entry_eq_iff
      unfold storeCaseComponent Ledger.record
      rw [storeCaseComponent_eq r ccp]
      by_cases hpp : r.ppStr ≠ none ∧ c.ppStr ≠ none ∧ c.ppStr = r.ppStr
      · rw [if_pos hpp, if_pos (hkey.mpr (.inl hpp))]
        simp only [componentLedger, touchComponent]
        cases h : r.ppStr with
        | none => exact absurd h hpp.1
        | some _ => rfl
      · rw [if_neg hpp]
        by_cases hword : r.ppStr = none ∧ c.ppStr = none ∧ c.word = r.word.getD []
        · rw [if_pos hword, if_pos (hkey.mpr (.inr hword))]
          simp only [componentLedger, touchComponent, hword.1]
        · rw [if_neg hword, if_neg fun h => (hkey.mp h).elim hpp hword]

/-- The predicates of a bucket: the address of the case frame is not part of the key. -/
def predicateLedger : Ledger Registration PaList (List UInt8 × Int) where
  key r := (r.key, r.voice)
  keyOf pa := (pa.key, pa.voice)
  new r := ⟨r.key, r.voice, r.cfAddr,
    Function.update (fun _ => []) r.pp.toNat (componentLedger.record r [])⟩
  touch r pa := { pa with
    cc := Function.update pa.cc r.pp.toNat (componentLedger.record r (pa.cc r.pp.toNat)) }
  keyOf_new _ := rfl
  keyOf_touch _ _ h := h

theorem registerChain_eq {r : Registration} (hpp : 0 ≤ r.pp ∧ r.pp < CASE_MAX_NUM) :
    ∀ pap : List PaList, registerChain (r.word.getD []) r pap = some (predicateLedger.record r pap)
  | [] => by
      simp only [registerChain, PaList.store, if_pos hpp, storeCaseComponent_eq]
      rfl
  | pa :: pap => by
      unfold registerChain Ledger.record
      rw [registerChain_eq hpp pap]
      simp only [PaList.store, if_pos hpp, storeCaseComponent_eq, predicateLedger, Prod.mk.injEq,
        and_true]
      split_ifs <;> rfl

/-- Of the accepted cases only ノ格 is outside the table. -/
theorem checkBasicPP_index {pp : Int} (h : checkBasicPP pp = true) (hno : pp ≠ 41) :
    0 ≤ pp ∧ pp < CASE_MAX_NUM := by
  unfold checkBasicPP at h
  rw [if_neg hno] at h
  have : CASE_MAX_NUM = 20 := rfl
  split_ifs at h with hc
  simp only [Bool.or_eq_true, decide_eq_true_eq] at hc
  omega

theorem registerTagTarget_eq (seed : Seed) {r : Registration} (hno : r.Accepted → r.pp ≠ 41)
    (palist : PaTable) : registerTagTarget seed r palist =
      some (if r.Accepted then Function.update palist (hash seed r.key)
        (predicateLedger.record r (palist (hash seed r.key))) else palist) := by
  unfold registerTagTarget
  cases hw : r.word with
  | none => simp [Registration.Accepted, hw]
  | some word =>
      by_cases hc : checkBasicPP r.pp = true
      · have hacc : r.Accepted := ⟨by simp [hw], hc⟩
        have := registerChain_eq (checkBasicPP_index hc (hno hacc)) (palist (hash seed r.key))
        rw [hw, Option.getD_some] at this
        simp [hc, hacc, this]
      · simp [Registration.Accepted, hc]

/-- The table after registrations none of which is of ノ格. -/
theorem registerAll_spec (seed : Seed) {regs : List Registration}
    (hno : ∀ r ∈ regs, r.Accepted → r.pp ≠ 41) :
    ∃ palist, registerAll seed regs = some palist ∧ ∀ h, palist h =
      predicateLedger.recordAll (regs.filter fun r => r.Accepted ∧ hash seed r.key = h) := by
  refine Loop.foldlM_total (fun done (palist : PaTable) => ∀ h, palist h =
    predicateLedger.recordAll (done.filter fun r => r.Accepted ∧ hash seed r.key = h)) regs []
    initContextHash ?_ fun _ => rfl
  intro done r palist hr ih
  refine ⟨_, registerTagTarget_eq seed (hno r hr) palist, fun h => ?_⟩
  rw [List.filter_append]
  by_cases hacc : r.Accepted
  · rw [if_pos hacc]
    by_cases hh : hash seed r.key = h
    · subst hh
      rw [Function.update_self, ih, List.filter_cons_of_pos (by simp [hacc]), List.filter_nil,
        Ledger.recordAll_concat]
    · rw [Function.update_of_ne (Ne.symm hh), ih, List.filter_cons_of_neg (by simp [hh]),
        List.filter_nil, List.append_nil]
  · rw [if_neg hacc, ih, List.filter_cons_of_neg (by simp [hacc]), List.filter_nil,
      List.append_nil]

/-! ## What should be found -/

/-- The registrations of a query's predicate, voice, address and case. -/
def history (regs : List Registration) (q : TagTargetQuery) : List Registration :=
  regs.filter fun r => r.Accepted ∧ r.key = q.key ∧ r.voice = q.voice ∧ r.cfAddr = q.cfAddr ∧
    r.pp = q.pp

/-- With a particle, what was stored last under it; without, the component that was added last, as
the registrations of its particle or word have made it. -/
def recalled (hs : List Registration) : Option (List UInt8) → Option CaseComponent
  | some ppStr => (hs.filter fun r => r.ppStr = some ppStr).getLast?.map fun r =>
      newComponent (r.word.getD []) r
  | none => (componentLedger.newest hs).bind fun e =>
      componentLedger.entry (hs.filter fun r => r.entry = e)

/-- The predicate of the query has one case frame in its voice. -/
def OneAddress (regs : List Registration) (q : TagTargetQuery) : Prop :=
  ∀ r ∈ regs, ∀ r' ∈ regs, r.Accepted → r'.Accepted → r.key = q.key → r'.key = q.key →
    r.voice = q.voice → r'.voice = q.voice → r.cfAddr = r'.cfAddr

instance (regs : List Registration) (q : TagTargetQuery) : Decidable (OneAddress regs q) :=
  inferInstanceAs (Decidable (∀ r ∈ regs, ∀ r' ∈ regs, _))

/-- The first registration that has the particle of the query or none has the particle. -/
def ParticleFirst (hs : List Registration) (ppStr : Option (List UInt8)) : Prop :=
  ∀ s, ppStr = some s → ∀ r, (hs.find? fun r => r.ppStr = none ∨ r.ppStr = some s) = some r →
    r.ppStr = some s

/-! ## Components -/

theorem entry_eq_inl {r : Registration} {s : List UInt8} : r.entry = .inl s ↔ r.ppStr = some s := by
  unfold Registration.entry
  cases r.ppStr <;> simp

theorem CaseComponent.entry_eq_inl {c : CaseComponent} {s : List UInt8} :
    c.entry = .inl s ↔ c.ppStr = some s := by
  unfold CaseComponent.entry
  cases c.ppStr <;> simp

/-- The component of a particle is the one of its last registration. -/
theorem entry_particle (s : List UInt8) (hs : List Registration)
    (h : ∀ r ∈ hs, r.ppStr = some s) :
    componentLedger.entry hs = hs.getLast?.map fun r => newComponent (r.word.getD []) r := by
  induction hs using List.reverseRecOn with
  | nil => rfl
  | append_singleton hs r ih =>
      have hr := h r (by simp)
      rw [Ledger.entry_concat, ih fun r' hr' => h r' (List.mem_append_left _ hr'),
        List.getLast?_concat, Option.map_some]
      cases hl : hs.getLast? with
      | none => rfl
      | some r' =>
          have hr' := h r' (List.mem_append_left _ (List.mem_of_getLast? hl))
          simp [componentLedger, touchComponent, newComponent, hr, hr']

/-- The particle of the query or none, as a property of keys. -/
def sought (s : List UInt8) (e : List UInt8 ⊕ List UInt8) : Bool := e = .inl s || e.isRight

theorem sought_entry {s : List UInt8} (r : Registration) :
    sought s r.entry = decide (r.ppStr = none ∨ r.ppStr = some s) := by
  unfold sought Registration.entry
  cases r.ppStr <;> simp

theorem CaseComponent.sought_entry {s : List UInt8} (c : CaseComponent) :
    sought s c.entry = decide (c.ppStr = none ∨ c.ppStr = some s) := by
  unfold sought CaseComponent.entry
  cases c.ppStr <;> simp

/-- Where the search for a particle stops, the first of the registrations decides. -/
theorem search_particle {hs : List Registration} {s : List UInt8}
    (hfirst : ParticleFirst hs (some s)) :
    searchComponents (some s) (componentLedger.recordAll hs) =
      componentLedger.find (.inl s) (componentLedger.recordAll hs) := by
  have hkeys := componentLedger.find?_keys_recordAll (sought s) hs
  rw [List.find?_map, List.find?_map] at hkeys
  simp only [Function.comp_def, componentLedger, sought_entry, CaseComponent.sought_entry] at hkeys
  change Option.map _ (searchComponents (some s) (componentLedger.recordAll hs)) = _ at hkeys
  cases h : searchComponents (some s) (componentLedger.recordAll hs) with
  | none =>
      symm
      refine List.find?_eq_none.mpr fun c hc => ?_
      have := List.find?_eq_none.mp h c hc
      simp only [decide_eq_true_eq, not_or] at this
      exact fun heq => this.2 (CaseComponent.entry_eq_inl.mp (of_decide_eq_true heq))
  | some c =>
      rw [h, Option.map_some] at hkeys
      obtain ⟨r, hr, hrc⟩ := Option.map_eq_some_iff.mp hkeys.symm
      have hs := entry_eq_inl.mpr (hfirst s rfl r hr)
      rw [hrc] at hs
      rw [← hs]
      exact (componentLedger.find_keyOf (componentLedger.nodup_keys_recordAll _)
        (List.mem_of_find?_eq_some h)).symm

/-- The search in the components of a case. -/
theorem search_eq_recalled {hs : List Registration} {ppStr : Option (List UInt8)}
    (hfirst : ParticleFirst hs ppStr) :
    searchComponents ppStr (componentLedger.recordAll hs) = recalled hs ppStr := by
  cases ppStr with
  | none => exact componentLedger.getLast?_recordAll hs
  | some s =>
      have hfilter : (hs.filter fun r => componentLedger.key r = .inl s) =
          hs.filter fun r => r.ppStr = some s :=
        List.filter_congr fun r _ => decide_eq_decide.mpr entry_eq_inl
      rw [search_particle hfirst, componentLedger.find_recordAll, hfilter]
      exact entry_particle s _ fun r hr => of_decide_eq_true (List.mem_filter.mp hr).2

/-! ## Predicates -/

/-- What the registrations of a predicate and voice make of its record: the components of each
case, under the address of the first. -/
theorem predicate_entry (rs : List Registration) :
    predicateLedger.entry rs = rs.head?.map fun r => ⟨r.key, r.voice, r.cfAddr, fun pp =>
      componentLedger.recordAll (rs.filter fun r => r.pp.toNat = pp)⟩ := by
  induction rs using List.reverseRecOn with
  | nil => rfl
  | append_singleton rs r ih =>
      have hcc : ∀ pp, componentLedger.recordAll ((rs ++ [r]).filter fun r => r.pp.toNat = pp) =
          Function.update (fun pp => componentLedger.recordAll (rs.filter fun r => r.pp.toNat = pp))
            r.pp.toNat (componentLedger.record r
              (componentLedger.recordAll (rs.filter fun r' => r'.pp.toNat = r.pp.toNat))) pp := by
        intro pp
        rw [List.filter_append]
        by_cases h : r.pp.toNat = pp
        · subst h
          rw [Function.update_self, List.filter_cons_of_pos (by simp), List.filter_nil,
            Ledger.recordAll_concat]
        · rw [Function.update_of_ne (Ne.symm h), List.filter_cons_of_neg (by simpa using h),
            List.filter_nil, List.append_nil]
      rw [Ledger.entry_concat, ih, funext hcc]
      cases rs with
      | nil => rfl
      | cons r' rs => rfl

/-- The walk along the predicates of a bucket. -/
theorem checkChain_eq {q : TagTargetQuery} (hpp : 0 ≤ q.pp ∧ q.pp < CASE_MAX_NUM) :
    ∀ {pap : List PaList}, (pap.map predicateLedger.keyOf).Nodup → checkChain q pap = some
      ((predicateLedger.find (q.key, q.voice) pap).bind fun pa =>
        if pa.cfAddr = q.cfAddr then searchComponents q.ppStr (pa.cc q.pp.toNat) else none)
  | [], _ => rfl
  | pa :: pap, hnd => by
      obtain ⟨hnot, hnd⟩ := List.nodup_cons.mp hnd
      unfold checkChain
      by_cases hkey : predicateLedger.keyOf pa = (q.key, q.voice)
      · obtain ⟨hk, hv⟩ := Prod.mk.inj hkey
        rw [predicateLedger.find_cons_of_eq hkey, Option.bind_some]
        by_cases haddr : pa.cfAddr = q.cfAddr
        · rw [if_pos ⟨hk, hv, haddr⟩, if_pos haddr, PaList.at?, if_pos hpp]
          rfl
        · -- no other predicate of the bucket has the key and the voice
          have hnone : predicateLedger.find (q.key, q.voice) pap = none :=
            List.find?_eq_none.mpr fun pa' hpa' heq =>
              hnot (hkey ▸ of_decide_eq_true heq ▸ List.mem_map_of_mem hpa')
          rw [if_neg fun h => haddr h.2.2, if_neg haddr, checkChain_eq hpp hnd, hnone]
          rfl
      · rw [predicateLedger.find_cons_of_ne hkey, if_neg fun h => hkey (by rw [← h.1, ← h.2.1]; rfl),
          checkChain_eq hpp hnd]

/-- The registrations of the query's predicate and voice. -/
def predicateHistory (regs : List Registration) (q : TagTargetQuery) : List Registration :=
  regs.filter fun r => r.Accepted ∧ predicateLedger.key r = (q.key, q.voice)

theorem mem_predicateHistory {regs : List Registration} {q : TagTargetQuery} {r : Registration} :
    r ∈ predicateHistory regs q ↔ r ∈ regs ∧ r.Accepted ∧ r.key = q.key ∧ r.voice = q.voice := by
  simp [predicateHistory, predicateLedger]

/-- Of these, those of the query's address and case. -/
theorem filter_predicateHistory {regs : List Registration} {q : TagTargetQuery}
    (hno : ∀ r ∈ regs, r.Accepted → r.pp ≠ 41) (hpp : 0 ≤ q.pp)
    (haddr : ∀ r ∈ predicateHistory regs q, r.cfAddr = q.cfAddr) :
    (predicateHistory regs q).filter (fun r => r.pp.toNat = q.pp.toNat) = history regs q := by
  unfold history predicateHistory
  rw [List.filter_filter]
  refine List.filter_congr fun r hr => ?_
  rw [← Bool.decide_and, decide_eq_decide]
  constructor
  · rintro ⟨hpp', hacc, hkey⟩
    obtain ⟨hk, hv⟩ := Prod.mk.inj hkey
    have hidx := checkBasicPP_index hacc.2 (hno r hr hacc)
    exact ⟨hacc, hk, hv, haddr r (mem_predicateHistory.mpr ⟨hr, hacc, hk, hv⟩), by omega⟩
  · rintro ⟨hacc, hk, hv, -, hpp'⟩
    exact ⟨by rw [hpp'], hacc, Prod.ext hk hv⟩

/-- The predicate of a query, in its bucket. -/
theorem find_predicate (seed : Seed) (regs : List Registration) (q : TagTargetQuery) :
    predicateLedger.find (q.key, q.voice) (predicateLedger.recordAll
      (regs.filter fun r => r.Accepted ∧ hash seed r.key = hash seed q.key)) =
      predicateLedger.entry (predicateHistory regs q) := by
  rw [Ledger.find_recordAll, List.filter_filter]
  congr 1
  refine List.filter_congr fun r _ => ?_
  rw [← Bool.decide_and, decide_eq_decide]
  constructor
  · rintro ⟨hkey, hacc, -⟩
    exact ⟨hacc, hkey⟩
  · rintro ⟨hacc, hkey⟩
    exact ⟨hkey, hacc, by rw [(Prod.mk.inj hkey).1]⟩

/-! ## Looking up -/

/-- The answer to a query after registrations. -/
def answer (seed : Seed) (regs : List Registration) (q : TagTargetQuery) :
    Option (Option CaseComponent) :=
  (registerAll seed regs).bind (checkTagTarget seed q)

@[simp] theorem recalled_nil (ppStr : Option (List UInt8)) : recalled [] ppStr = none := by
  cases ppStr <;> rfl

/-- Where something is registered for a query, its predicate has the query's address. -/
theorem history_eq_nil {regs : List Registration} {q : TagTargetQuery}
    (h : ∀ r ∈ predicateHistory regs q, r.cfAddr ≠ q.cfAddr) : history regs q = [] := by
  refine List.filter_eq_nil_iff.mpr fun r hr hmem => ?_
  obtain ⟨hacc, hk, hv, haddr, -⟩ := of_decide_eq_true hmem
  exact h r (mem_predicateHistory.mpr ⟨hr, hacc, hk, hv⟩) haddr

/-- A query is answered with what was registered for it. -/
theorem answer_eq_recalled (seed : Seed) (regs : List Registration) (q : TagTargetQuery)
    (hno : ∀ r ∈ regs, r.Accepted → r.pp ≠ 41) (hq : q.pp ≠ 41) (hone : OneAddress regs q)
    (hfirst : ParticleFirst (history regs q) q.ppStr) :
    answer seed regs q = some (recalled (history regs q) q.ppStr) ∧
      (checkBasicPP q.pp = true → 0 ≤ q.pp ∧ q.pp < CASE_MAX_NUM) := by
  refine ⟨?_, fun h => checkBasicPP_index h hq⟩
  obtain ⟨palist, hreg, hpalist⟩ := registerAll_spec seed hno
  rw [answer, hreg, Option.bind_some]
  by_cases hpp : checkBasicPP q.pp = true
  · have hidx := checkBasicPP_index hpp hq
    rw [checkTagTarget, if_neg (by rw [hpp]; exact Bool.noConfusion), hpalist,
      checkChain_eq hidx (predicateLedger.nodup_keys_recordAll _), find_predicate, predicate_entry]
    cases hrs : predicateHistory regs q with
    | nil =>
        have hnil : history regs q = [] := history_eq_nil (by rw [hrs]; exact nofun)
        rw [hnil, recalled_nil]
        rfl
    | cons r₀ rs =>
        obtain ⟨hr₀, hacc₀, hk₀, hv₀⟩ :=
          mem_predicateHistory.mp (hrs ▸ List.mem_cons_self : r₀ ∈ predicateHistory regs q)
        have hsame : ∀ r ∈ predicateHistory regs q, r.cfAddr = r₀.cfAddr := fun r hr =>
          have ⟨hr, hacc, hk, hv⟩ := mem_predicateHistory.mp hr
          hone r hr r₀ hr₀ hacc hacc₀ hk hk₀ hv hv₀
        by_cases haddr : r₀.cfAddr = q.cfAddr
        · have hcc := filter_predicateHistory hno hidx.1 fun r hr => (hsame r hr).trans haddr
          rw [hrs] at hcc
          simp only [List.head?_cons, Option.map_some, Option.bind_some, if_pos haddr, hcc,
            search_eq_recalled hfirst]
        · rw [history_eq_nil fun r hr => (hsame r hr).trans_ne haddr, recalled_nil]
          simp only [List.head?_cons, Option.map_some, Option.bind_some, if_neg haddr]
  · have hnil : history regs q = [] := by
      refine List.filter_eq_nil_iff.mpr fun r hr h => ?_
      obtain ⟨hacc, -, -, -, hpp'⟩ := of_decide_eq_true h
      exact hpp (hpp' ▸ hacc.2)
    rw [checkTagTarget, if_pos (eq_false_of_ne_true hpp), hnil, recalled_nil]

def registration (cfAddr pp : Int) (word : List UInt8) : Registration :=
  ⟨[1], 0, cfAddr, pp, none, some word, 1, 0, CREL⟩

/-- Two words of one predicate and the last one again. -/
def plainRegs : List Registration :=
  [registration 7 0 [2], registration 7 0 [3], registration 7 0 [2]]

theorem answer_plainRegs :
    answer (fun _ _ => 0) plainRegs ⟨[1], 0, 7, 0, none⟩ = some (some ⟨[3], none, 1, 0, 1, CREL⟩) := by
  have := (answer_eq_recalled (fun _ _ => 0) plainRegs ⟨[1], 0, 7, 0, none⟩ (by decide) (by decide)
    (by decide) (fun _ h => by cases h)).1
  rw [this]
  decide

/-- A second case frame of the predicate: what is registered under it is not found. -/
theorem secondFrame_not_recalled :
    let regs := [registration 7 0 [2], registration 8 0 [3]]
    let q : TagTargetQuery := ⟨[1], 0, 8, 0, none⟩
    answer (fun _ _ => 0) regs q = some none ∧
      recalled (history regs q) none = some ⟨[3], none, 1, 0, 1, CREL⟩ := by
  decide

end Knp
