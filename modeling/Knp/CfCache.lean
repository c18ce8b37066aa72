import Knp.CfFrame
import Knp.Hash
import Knp.Scanf

/-!
# Copies of case frames (`case_ipal.c`)

A frame that was read is copied into the cache by `copy_cf_frame` and found
there by its address. A `CASE_FRAME` is handed on by `copy_cf_pointer`, into
memory that is cleared.

> What is found in the cache is the entry, if the first one read from its address
> was the same and no alignment has more than four pairs. What is handed on is the
> frame, if it has no alignment and fewer pairs of same cases than slots.

The cache does not distinguish the files. `copy_cf_frame` copies only
`CF_ALIGNMENT_MAX` pairs of an alignment, `copy_cf_pointer` none of them, and of
the same cases one pair for each slot.
-/

namespace Knp

open NullArray Tokens

def PP_ELEMENT_MAX : Nat := 10

/-! ## The cache -/

/-- `copy_cf_frame`, to memory that holds `dst`. -/
def copyCfFrame (dst src : CfFrame) : CfFrame :=
  { src with
    cs := fun i => if i < src.casenum then src.cs i else dst.cs i
    samecase := copy CF_ELEMENT_MAX src.samecase dst.samecase
    cfId := copy CF_ALIGNMENT_MAX src.cfId dst.cfId
    alignedCase := fun i =>
      if i < CF_ALIGNMENT_MAX ∧ ∀ j < i + 1, (src.cfId j).isSome then
        copy CF_ALIGNMENT_MAX (src.alignedCase i) (dst.alignedCase i)
      else dst.alignedCase i }

/-- `CFcache` -/
abbrev CfCache := Nat → List CfFrame

section Cache

variable (seed : Seed)

def cfBucket (address : Nat) : Nat := hash seed (Scanf.putNat address)

/-- `register_caseframe`; `mem` is what the new memory holds. -/
def registerCaseframe (mem : CfFrame) (address : Nat) (f : CfFrame) (cache : CfCache) : CfCache :=
  Function.update cache (cfBucket seed address)
    (cache (cfBucket seed address) ++ [copyCfFrame mem f])

def lookupCaseframe (cache : CfCache) (address : Nat) : Option CfFrame :=
  (cache (cfBucket seed address)).find? fun c => c.address = address

/-- An address in one of the files, as the index gives it. -/
structure CfRequest where
  address : Nat
  size : Nat
  flag : CfFlag

/-- `CF_frame` and the cache. -/
structure CfState where
  frame : CfFrame
  cache : CfCache

variable (file : CfFlag → List UInt8) (mem : Nat → CfFrame)

/-- The frame for an entry of the index, as `_make_ipal_cframe_subcontract` gets it with
`OPT_CASE_CF_CACHE`: 格フレームcacheを使う場合は、cacheを引く. -/
def readFrame (st : CfState) (q : CfRequest) : Option (CfFrame × CfState) :=
  match lookupCaseframe seed st.cache q.address with
  | some f => some (f, st)
  | none => (getIpalFrame file st.frame q.address q.size q.flag).map fun f =>
      (f, ⟨f, registerCaseframe seed (mem q.address) q.address f st.cache⟩)

def readFrames (st : CfState) (qs : List CfRequest) : Option CfState :=
  qs.foldlM (fun st q => (readFrame seed file mem st q).map Prod.snd) st

end Cache

/-! ## Case frames of a predicate -/

/-- A slot of `CASE_FRAME`. A list of markers is there with its size and its number. -/
structure CfSlot where
  oblig : Int
  adjacent : Int
  pp : Fin PP_ELEMENT_MAX → Int
  sp : Int
  ppStr : Option (List UInt8)
  sm : Option (List UInt8)
  smDelete : Option (List UInt8 × Nat × Nat)
  smSpecify : Option (List UInt8 × Nat × Nat)
  ex : Option (List UInt8)
  exList : Option (List (List UInt8))
  exFreq : Option (List Int)
  exSize : Nat
  exNum : Nat
  freq : Int
  semantics : Option (List UInt8)
  gexList : Option (List (List UInt8))
  gexFreq : Option (List Rat)
  gexSize : Nat
  gexNum : Nat
  weight : Int

/-- `CASE_FRAME`, with the arrays of `CF_ALIGNMENT` apart. -/
structure CfDef where
  type : Int
  typeFlag : Int
  elementNum : Nat
  slot : Nat → CfSlot
  voice : Int
  cfAddress : Nat
  cfSize : Nat
  cfId : List UInt8
  predType : List UInt8
  entry : Option (List UInt8)
  imi : List UInt8
  etcflag : Nat
  feature : Option (List UInt8)
  samecase : Nat → Option (Int × Int)
  alignId : Nat → Option (List UInt8)
  alignedCase : Nat → Nat → Option (Int × Int)
  predBPtr : Option Nat
  cfSimilarity : Rat

def clearedSlot : CfSlot :=
  ⟨0, 0, fun _ => 0, 0, none, none, none, none, none, none, none, 0, 0, 0, none, none, none, 0, 0, 0⟩

/-- `init_cf_structure`: all bytes are 0, and no array has an end. -/
def initCfStructure : CfDef :=
  ⟨0, 0, 0, fun _ => clearedSlot, 0, 0, 0, [], [], none, [], 0, none, fun _ => some (0, 0),
    fun _ => none, fun _ _ => some (0, 0), none, 0⟩

/-- What a slot is in the copy: pointers that are NULL are left out in some cases. -/
def CfSlot.copyTo (dst src : CfSlot) : CfSlot :=
  { src with
    sm := src.sm <|> dst.sm
    ex := src.ex <|> dst.ex
    smDelete := src.smDelete <|> dst.smDelete
    smSpecify := src.smSpecify <|> dst.smSpecify }

/-- What is left of a slot whose pointers have been handed on. -/
def CfSlot.release (src : CfSlot) : CfSlot :=
  { src with
    ppStr := none, sm := none, ex := none, smDelete := none, smSpecify := none
    exList := none, exFreq := none, exSize := 0, exNum := 0
    gexList := none, gexFreq := none, gexSize := 0, gexNum := 0, semantics := none }

/-- `copy_cf_pointer`: the copy, and what is left. -/
def copyCfPointer (dst src : CfDef) : CfDef × CfDef :=
  ({ src with
      slot := fun i => if i < src.elementNum then (dst.slot i).copyTo (src.slot i) else dst.slot i
      samecase := fun i => if i < src.elementNum then src.samecase i else dst.samecase i
      alignId := fun i => if ∀ j < i + 1, (src.alignId j).isSome then src.alignId i else dst.alignId i
      alignedCase := dst.alignedCase },
    { src with
      slot := fun i => if i < src.elementNum then (src.slot i).release else src.slot i
      feature := none
      entry := none
      alignId := fun i => if ∀ j < i + 1, (src.alignId j).isSome then none else src.alignId i })

/-! ## Copies of frames -/

section Copies

variable {f : CfFrame} {c c' : CfContent}

/-- No alignment has more pairs than are copied. -/
def CfContent.Short (c : CfContent) : Prop := ∀ a ∈ c.aligned, a.2.length < CF_ALIGNMENT_MAX

/-- The arrays of a frame have room for the content. -/
structure CfContent.Fits (c : CfContent) : Prop where
  samecase : c.samecase.length < CF_ELEMENT_MAX
  aligned : c.aligned.length < CF_ALIGNMENT_MAX

theorem CfEntry.content_fits (e : CfEntry) (address : Nat) (flag : CfFlag) :
    (e.content address flag).Fits where
  samecase := lt_of_le_of_lt (List.length_take_le _ _) (by decide)
  aligned := by
    change (alignedOf _).length < _
    unfold alignedOf
    cases ((e.items flag).find? FeatureItem.isAlignment).bind FeatureItem.aligned? with
    | none => exact (by decide : 0 < CF_ALIGNMENT_MAX)
    | some a => exact (by decide : 1 < CF_ALIGNMENT_MAX)

/-- A frame holds one content. -/
theorem CfFrame.Holds.unique (h : f.Holds c) (h' : f.Holds c') : c = c' := by
  have hslots : c.slots = c'.slots := by
    refine List.ext_getElem (h.casenum.symm.trans h'.casenum) fun i hi hi' => ?_
    rw [← h.cs i hi, h'.cs i hi']
  have hids := h.cfId.unique h'.cfId
  have haligned : c.aligned = c'.aligned := by
    refine List.ext_getElem (by simpa using congrArg List.length hids) fun i hi hi' => ?_
    have hid : c.aligned[i].1 = c'.aligned[i].1 := by
      have := List.getElem_of_eq hids (by rwa [List.length_map] : i < (c.aligned.map Prod.fst).length)
      simpa using this
    exact Prod.ext hid ((h.alignedCase i hi).unique (h'.alignedCase i hi'))
  exact CfContent.ext (h.address.symm.trans h'.address) (h.yomi.symm.trans h'.yomi)
    (h.hyoki.symm.trans h'.hyoki) (h.feature.symm.trans h'.feature)
    (h.predType.symm.trans h'.predType) (h.voice.symm.trans h'.voice)
    (h.etcflag.symm.trans h'.etcflag) hslots (h.samecase.unique h'.samecase) haligned
    (h.data.symm.trans h'.data)

theorem copyCfFrame_alignedCase (h : f.Holds c) (hfits : c.Fits) (mem : CfFrame) {i : Nat}
    (hi : i < c.aligned.length) : (copyCfFrame mem f).alignedCase i =
      copy CF_ALIGNMENT_MAX (f.alignedCase i) (mem.alignedCase i) := by
  have hsome : ∀ j < i + 1, (f.cfId j).isSome := fun j hj =>
    (h.cfId.isSome_iff (by rw [List.length_map]; omega)).mpr (by rw [List.length_map]; omega)
  exact if_pos ⟨hi.trans hfits.aligned, hsome⟩

/-- A copy holds the content if its alignments are short. -/
theorem copyCfFrame_holds (h : f.Holds c) (hfits : c.Fits) (hshort : c.Short) (mem : CfFrame) :
    (copyCfFrame mem f).Holds c where
  address := h.address
  yomi := h.yomi
  hyoki := h.hyoki
  feature := h.feature
  predType := h.predType
  voice := h.voice
  etcflag := h.etcflag
  casenum := h.casenum
  cs i hi := (if_pos (by rwa [h.casenum])).trans (h.cs i hi)
  samecase := h.samecase.copy hfits.samecase _
  cfId := h.cfId.copy (by rw [List.length_map]; exact hfits.aligned) _
  alignedCase i hi := by
    rw [copyCfFrame_alignedCase h hfits mem hi]
    exact (h.alignedCase i hi).copy (hshort _ (List.getElem_mem hi)) _
  data := h.data

/-- Memory that happens to have no `END_M` among its pairs. -/
def filledFrame : CfFrame :=
  ⟨0, [], [], [], [], 0, 0, 0, fun _ => ⟨[], [], []⟩, fun _ => none, fun _ => none,
    fun _ _ => some (0, 0), []⟩

/-- In such memory a copy holds nothing but the content, and only if its alignments are short. -/
theorem copyCfFrame_filled (h : f.Holds c) (hfits : c.Fits)
    (h' : (copyCfFrame filledFrame f).Holds c') : c = c' ∧ c.Short := by
  have hshort : c.Short := by
    intro a ha
    obtain ⟨i, hi, rfl⟩ := List.getElem_of_mem ha
    have hids : c.aligned.map Prod.fst = c'.aligned.map Prod.fst :=
      (h.cfId.copy (by rw [List.length_map]; exact hfits.aligned) _).unique h'.cfId
    have hi' : i < c'.aligned.length := by
      have := congrArg List.length hids
      simp only [List.length_map] at this
      omega
    by_contra hlong
    have hreads := h'.alignedCase i hi'
    rw [copyCfFrame_alignedCase h hfits _ hi] at hreads
    exact not_reads_of_isSome ((h.alignedCase i hi).copy_isSome (Nat.le_of_not_lt hlong)
      fun _ => rfl) hreads
  exact ⟨(copyCfFrame_holds h hfits hshort _).unique h', hshort⟩

end Copies

/-! ## Lookups -/

section Lookups

variable {seed : Seed} {file : CfFlag → List UInt8} {mem : Nat → CfFrame} {st : CfState}
  {entry : CfRequest → CfEntry} {hist : List CfRequest} {q : CfRequest}

theorem lookupCaseframe_register_self {cache : CfCache} {f : CfFrame} {address : Nat} (m : CfFrame)
    (hnone : lookupCaseframe seed cache address = none) (hf : f.address = address) :
    lookupCaseframe seed (registerCaseframe seed m address f cache) address =
      some (copyCfFrame m f) := by
  have hself : (copyCfFrame m f).address = address := hf
  unfold lookupCaseframe at hnone ⊢
  rw [registerCaseframe, Function.update_self, List.find?_append, hnone, Option.none_or,
    List.find?_cons_of_pos (by simpa using hself)]

theorem lookupCaseframe_register_of_ne {cache : CfCache} {f : CfFrame} {address a : Nat}
    (m : CfFrame) (hf : f.address = address) (hne : a ≠ address) :
    lookupCaseframe seed (registerCaseframe seed m address f cache) a =
      lookupCaseframe seed cache a := by
  have hother : (copyCfFrame m f).address ≠ a := fun h => hne (h.symm.trans hf)
  unfold lookupCaseframe registerCaseframe
  by_cases hb : cfBucket seed a = cfBucket seed address
  · rw [hb, Function.update_self, List.find?_append,
      List.find?_cons_of_neg (by simpa using hother), List.find?_nil, Option.or_none]
  · rw [Function.update_of_ne hb]

/-- The content that a request is about. -/
def CfRequest.content (entry : CfRequest → CfEntry) (q : CfRequest) : CfContent :=
  (entry q).content q.address q.flag

/-- The first request with the address. -/
def firstAt (hist : List CfRequest) (address : Nat) : Option CfRequest :=
  hist.find? fun r => r.address = address

/-- The cache has a copy of what was read first from an address. -/
def CacheHolds (seed : Seed) (mem : Nat → CfFrame) (entry : CfRequest → CfEntry)
    (hist : List CfRequest) (cache : CfCache) : Prop :=
  ∀ address, match firstAt hist address with
    | none => lookupCaseframe seed cache address = none
    | some r => ∃ f : CfFrame, f.Holds (r.content entry) ∧
        lookupCaseframe seed cache address = some (copyCfFrame (mem address) f)

theorem firstAt_concat (hist : List CfRequest) (q : CfRequest) (address : Nat) :
    firstAt (hist ++ [q]) address =
      (firstAt hist address).or (if q.address = address then some q else none) := by
  rw [firstAt, List.find?_append]
  congr 1
  split_ifs with h
  · exact List.find?_cons_of_pos (by simpa using h)
  · rw [List.find?_cons_of_neg (by simpa using h), List.find?_nil]

/-- One lookup: a frame that is not in the cache is read and holds its content. -/
theorem readFrame_step (hcache : CacheHolds seed mem entry hist st.cache)
    (hq : Stored file q.address q.size q.flag (entry q)) :
    ∃ f st', readFrame seed file mem st q = some (f, st') ∧
      CacheHolds seed mem entry (hist ++ [q]) st'.cache ∧
      match firstAt hist q.address with
      | none => f.Holds (q.content entry)
      | some r => ∃ f₀ : CfFrame, f₀.Holds (r.content entry) ∧ f = copyCfFrame (mem q.address) f₀ := by
  have hthis := hcache q.address
  unfold readFrame
  cases hfirst : firstAt hist q.address with
  | some r =>
      rw [hfirst] at hthis
      obtain ⟨f₀, hf₀, hlookup⟩ := hthis
      refine ⟨_, st, by rw [hlookup], fun address => ?_, f₀, hf₀, rfl⟩
      have hold := hcache address
      rw [firstAt_concat]
      by_cases haddr : q.address = address
      · rw [← haddr, hfirst, Option.some_or]
        exact ⟨f₀, hf₀, hlookup⟩
      · rwa [if_neg haddr, Option.or_none]
  | none =>
      rw [hfirst] at hthis
      obtain ⟨f, hget, hf⟩ := getIpalFrame_holds hq st.frame
      have hfaddr : f.address = q.address := hf.address
      refine ⟨f, ⟨f, registerCaseframe seed (mem q.address) q.address f st.cache⟩, ?_,
        fun address => ?_, hf⟩
      · rw [hthis, hget]
        rfl
      · have hold := hcache address
        rw [firstAt_concat]
        by_cases haddr : q.address = address
        · subst haddr
          rw [hfirst, Option.none_or, if_pos rfl]
          exact ⟨f, hf, lookupCaseframe_register_self _ hthis hfaddr⟩
        · dsimp only
          rw [if_neg haddr, Option.or_none,
            lookupCaseframe_register_of_ne _ hfaddr (Ne.symm haddr)]
          exact hold

variable (seed mem) in
/-- Any number of lookups. -/
theorem readFrames_cacheHolds (init : CfFrame)
    (hstored : ∀ r ∈ hist, Stored file r.address r.size r.flag (entry r)) :
    ∃ st, readFrames seed file mem ⟨init, fun _ => []⟩ hist = some st ∧
      CacheHolds seed mem entry hist st.cache := by
  have htotal := Loop.foldlM_total
    (f := fun (st : CfState) q => (readFrame seed file mem st q).map Prod.snd)
    (fun done (st : CfState) => CacheHolds seed mem entry done st.cache) hist []
    ⟨init, fun _ => []⟩ (fun done q st hq hst => ?_) (fun _ => rfl)
  · exact htotal
  · obtain ⟨f, st', hread, hcache, -⟩ := readFrame_step hst (hstored q hq)
    exact ⟨st', by rw [hread]; rfl, hcache⟩

end Lookups

/-! ## What is handed on -/

/-- The arrays of a `CASE_FRAME` hold the content, with slots and a voice of its own. -/
structure CfDef.Holds (d : CfDef) (c : CfContent) (slots : List CfSlot) (voice : Int) : Prop where
  elementNum : d.elementNum = slots.length
  slot : ∀ i (h : i < slots.length), d.slot i = slots[i]
  voice : d.voice = voice
  cfAddress : d.cfAddress = c.address
  cfId : d.cfId = c.id
  predType : d.predType = c.predType
  etcflag : d.etcflag = c.etcflag
  feature : d.feature = if c.feature = [] then none else some c.feature
  samecase : Reads d.samecase c.samecase
  alignId : Reads d.alignId (c.aligned.map Prod.fst)
  alignedCase : ∀ i (h : i < c.aligned.length), Reads (d.alignedCase i) c.aligned[i].2

theorem CfSlot.copyTo_cleared (slot : CfSlot) : clearedSlot.copyTo slot = slot := by
  simp [CfSlot.copyTo, clearedSlot]

/-- A frame that is handed on holds its content if there is no alignment, and a slot for each pair
of same cases and for `END_M`. -/
theorem copyCfPointer_holds_iff {cf : CfDef} {c : CfContent} {slots : List CfSlot} {voice : Int}
    (h : cf.Holds c slots voice) : (copyCfPointer initCfStructure cf).1.Holds c slots voice ↔
      c.aligned = [] ∧ c.samecase.length < slots.length := by
  constructor
  · intro h'
    constructor
    · by_contra hne
      exact not_reads_of_isSome (fun _ => rfl)
        (h'.alignedCase 0 (List.length_pos_of_ne_nil hne))
    · by_contra hlong
      have hnull := h'.samecase.null
      have hsame : (copyCfPointer initCfStructure cf).1.samecase c.samecase.length =
          some ((0 : Int), (0 : Int)) := if_neg (by rw [h.elementNum]; exact hlong)
      rw [hsame] at hnull
      cases hnull
  · rintro ⟨hnil, hlt⟩
    refine ⟨h.elementNum, fun i hi => ?_, h.voice, h.cfAddress, h.cfId, h.predType, h.etcflag,
      h.feature, fun k hk => ?_, fun k hk => ?_, fun i hi => ?_⟩
    · have hslot : (copyCfPointer initCfStructure cf).1.slot i = clearedSlot.copyTo (cf.slot i) :=
        if_pos (by rwa [h.elementNum])
      rw [hslot, CfSlot.copyTo_cleared, h.slot i hi]
    · have hsame : (copyCfPointer initCfStructure cf).1.samecase k = cf.samecase k :=
        if_pos (by rw [h.elementNum]; omega)
      rw [hsame, h.samecase k hk]
    · rw [hnil] at hk ⊢
      obtain rfl : k = 0 := Nat.le_zero.mp hk
      have hnone : cf.alignId 0 = none := by simpa [hnil] using h.alignId 0 (Nat.zero_le _)
      change (if _ then cf.alignId 0 else none) = none
      rw [hnone, ite_self]
    · rw [hnil] at hi
      exact absurd hi (Nat.not_lt_zero i)

/-- Each way to get a case frame, and when what is got is the content of the entry. -/
theorem caseFrame_same_iff (seed : Seed) (file : CfFlag → List UInt8)
    (entry : CfRequest → CfEntry) (hist : List CfRequest) (q : CfRequest) (init : CfFrame)
    (hstored : ∀ r ∈ q :: hist, Stored file r.address r.size r.flag (entry r))
    (cf : CfDef) (slots : List CfSlot) (voice : Int)
    (hcf : cf.Holds (q.content entry) slots voice) :
    (∀ old, ∃ f, getIpalFrame file old q.address q.size q.flag = some f ∧
      f.Holds (q.content entry)) ∧
    ((∀ mem, ∃ st f st', readFrames seed file mem ⟨init, fun _ => []⟩ hist = some st ∧
        readFrame seed file mem st q = some (f, st') ∧ f.Holds (q.content entry)) ↔
      ∀ r, firstAt hist q.address = some r →
        r.content entry = q.content entry ∧ (q.content entry).Short) ∧
    (∀ f : CfFrame, f.Holds (q.content entry) →
      ((∀ mem, (copyCfFrame mem f).Holds (q.content entry)) ↔ (q.content entry).Short)) ∧
    ((copyCfPointer initCfStructure cf).1.Holds (q.content entry) slots voice ↔
      (q.content entry).aligned = [] ∧ (q.content entry).samecase.length < slots.length) := by
  have hq := hstored q List.mem_cons_self
  have hfits : ∀ r : CfRequest, (r.content entry).Fits := fun r => (entry r).content_fits _ _
  have hread := fun mem => readFrames_cacheHolds seed mem init
    fun r hr => hstored r (List.mem_cons_of_mem q hr)
  refine ⟨getIpalFrame_holds hq, ⟨fun hall r hr => ?_, fun hcond mem => ?_⟩, fun f hf =>
    ⟨fun hall => (copyCfFrame_filled hf (hfits q) (hall filledFrame)).2,
      fun hshort mem => copyCfFrame_holds hf (hfits q) hshort mem⟩, copyCfPointer_holds_iff hcf⟩
  · obtain ⟨st, hst, hcache⟩ := hread fun _ => filledFrame
    obtain ⟨st₁, f, st₂, hst₁, hf, hholds⟩ := hall fun _ => filledFrame
    obtain ⟨f', st', hf', -, hcopy⟩ := readFrame_step hcache hq
    obtain rfl : st₁ = st := Option.some.inj (hst₁.symm.trans hst)
    obtain rfl : f = f' := congrArg Prod.fst (Option.some.inj (hf.symm.trans hf'))
    rw [hr] at hcopy
    obtain ⟨f₀, hf₀, rfl⟩ := hcopy
    obtain ⟨hsame, hshort⟩ := copyCfFrame_filled hf₀ (hfits r) hholds
    exact ⟨hsame, hsame ▸ hshort⟩
  · obtain ⟨st, hst, hcache⟩ := hread mem
    obtain ⟨f, st', hf, -, hcopy⟩ := readFrame_step hcache hq
    refine ⟨st, f, st', hst, hf, ?_⟩
    cases hfirst : firstAt hist q.address with
    | none =>
        rw [hfirst] at hcopy
        exact hcopy
    | some r =>
        rw [hfirst] at hcopy
        obtain ⟨f₀, hf₀, rfl⟩ := hcopy
        obtain ⟨hsame, hshort⟩ := hcond r hfirst
        rw [hsame] at hf₀
        exact copyCfFrame_holds hf₀ (hfits q) hshort _

/-! ## Entries -/

def yomu : CfEntry := ⟨utf8 "読む:動1", utf8 "よむ", utf8 "読む", [], [⟨utf8 "ガ", utf8 "人", []⟩]⟩

def yomuRequest : CfRequest := ⟨0, yomu.bytes.length, .pred⟩

def yomuDef : CfDef :=
  { initCfStructure with
    elementNum := 1, cfId := utf8 "読む:動1", predType := utf8 "動", samecase := fun _ => none }

theorem yomu_stored : Stored (fun _ => yomu.bytes) 0 yomu.bytes.length .pred yomu where
  bytes := by rw [List.drop_zero, List.take_length]
  size := rfl
  noNul := by decide +kernel
  ids item h := by
    have hnone : (yomu.items .pred).find? FeatureItem.isAlignment = none := rfl
    rw [hnone] at h
    cases h

theorem yomuDef_holds : yomuDef.Holds (yomuRequest.content fun _ => yomu) [clearedSlot] 0 where
  elementNum := rfl
  slot i hi := by
    obtain rfl : i = 0 := Nat.lt_one_iff.mp hi
    rfl
  voice := rfl
  cfAddress := rfl
  cfId := rfl
  predType := by decide +kernel
  etcflag := by decide +kernel
  feature := rfl
  samecase k hk := by
    obtain rfl : k = 0 := Nat.le_zero.mp hk
    rfl
  alignId k hk := by
    obtain rfl : k = 0 := Nat.le_zero.mp hk
    rfl
  alignedCase i hi := absurd hi (Nat.not_lt_zero i)

/-- A frame without alignments and same cases is handed on as it is. -/
theorem yomu_handedOn : (copyCfPointer initCfStructure yomuDef).1.Holds
    (yomuRequest.content fun _ => yomu) [clearedSlot] 0 := by
  refine (caseFrame_same_iff (fun _ _ => 0) (fun _ => yomu.bytes) (fun _ => yomu) [] yomuRequest
    filledFrame ?_ yomuDef [clearedSlot] 0 yomuDef_holds).2.2.2.mpr ⟨rfl, by decide⟩
  intro r hr
  obtain rfl := List.mem_singleton.mp hr
  exact yomu_stored

/-- The first entries of the two files. -/
def firstEntries : CfFlag → List UInt8
  | .pred => join [utf8 "買う:動1", [], [], []]
  | .noun => join [utf8 "親:名1", [], [], []]

/-- An entry with an alignment of five pairs. -/
def fivePairs : List UInt8 :=
  join [utf8 "a:動1", [], [], utf8 "格フレーム対応:b;ガ＝ニ;ヲ＝ガ;ニ＝ヲ;ト＝デ;デ＝ト"]

/-- The noun at the start of its file is answered with the predicate at the start of the other
file; and the copy of the fifth pair is followed by what the memory held. -/
theorem firstEntries_mixed :
    ((readFrames (fun _ _ => 0) firstEntries (fun _ => filledFrame) ⟨filledFrame, fun _ => []⟩
        [⟨0, (firstEntries .pred).length, .pred⟩]).bind fun st =>
      (readFrame (fun _ _ => 0) firstEntries (fun _ => filledFrame) st
        ⟨0, (firstEntries .noun).length, .noun⟩).map fun p => p.1.data) = some (utf8 "買う:動1") ∧
    (getIpalFrame firstEntries filledFrame 0 (firstEntries .noun).length .noun).map CfFrame.data =
      some (utf8 "親:名1") ∧
    (getIpalFrame (fun _ => fivePairs) filledFrame 0 fivePairs.length .pred).map (fun f =>
      (f.alignedCase 0 5, (copyCfFrame filledFrame f).alignedCase 0 5)) = some (none, some (0, 0)) := by
  refine ⟨?_, ?_, ?_⟩ <;> decide +kernel

end Knp
