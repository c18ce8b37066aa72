import Mathlib.Data.List.Sort
import Mathlib.Data.Nat.Digits.Lemmas
import Knp.CfFrame
import Knp.Hash
import Knp.HashChain
import Knp.Scanf
import Knp.TreeConv

/-!
# The cache of analysed predicates (`case_analysis.c`)

`RegisterCPM` keeps what was found for a predicate, and `CheckCPM` finds it again for a
predicate with the same arguments. The key is a text: the numbers of the tags of the
arguments, sorted, and that of the predicate, each but the first behind a blank.
`inputcc2num` prints each number into `token` and adds it to `str`.

> The keys tell the predicates apart, and `CheckCPM` returns what was registered for the
> same arguments. The texts fit into `token` just if the predicate and its arguments are
> among the first ten tags, or the only argument is among the first hundred.

`token` has room for a blank, one digit and NUL.
-/

namespace Knp

def TOKEN_SIZE : Nat := 3

def STR_SIZE : Nat := 70

/-- `CF_PRED_MGR` with the numbers of the tags of `elem_b_ptr` and of `pred_b_ptr`; `result` is
the rest of it. -/
structure CachedPred (ρ : Type) where
  elemBNum : List Nat
  predBNum : Nat
  result : ρ
  element_max : elemBNum.length ≤ CF_ELEMENT_MAX
  elem_tag : ∀ n ∈ elemBNum, n < TAG_MAX
  pred_tag : predBNum < TAG_MAX

namespace CachedPred

variable {ρ : Type}

section Key

variable (cpm : CachedPred ρ)

/-- `qsort(numbers, cpm_ptr->cf.element_num, sizeof(int), number_compare)` -/
def numbers : List Nat := cpm.elemBNum.mergeSort (· ≤ ·)

/-- `sprintf(token, " %d", n)` -/
def spacedToken (n : Nat) : List UInt8 := 32 :: Scanf.putNat n

def elementTokens : List Nat → List (List UInt8)
  | [] => []
  | n :: ns => Scanf.putNat n :: ns.map spacedToken

/-- What is printed into `token`. -/
def tokens : List (List UInt8) := elementTokens cpm.numbers ++ [spacedToken cpm.predBNum]

/-- `inputcc2num`; the tokens are put into `str` with `strcat`. -/
def inputcc2num : List UInt8 := cpm.tokens.foldl (fun str token => str ++ token) []

end Key

/-! ## The cache -/

/-- `CPM_CACHE` -/
structure Entry (ρ : Type) where
  key : List UInt8
  cpm : CachedPred ρ

section Cache

variable (seed : Seed)

/-- `RegisterCPM` -/
def registerCpm (cache : HashChain.Table (Entry ρ)) (cpm : CachedPred ρ) :
    HashChain.Table (Entry ρ) :=
  HashChain.append (hash seed) Entry.key cache ⟨cpm.inputcc2num, cpm⟩

/-- `CheckCPM` -/
def checkCpm (cache : HashChain.Table (Entry ρ)) (cpm : CachedPred ρ) : Option (CachedPred ρ) :=
  (HashChain.find (hash seed) Entry.key cache cpm.inputcc2num).map Entry.cpm

/-- What changes the cache. -/
inductive CacheCall (ρ : Type)
  | register (cpm : CachedPred ρ)
  | clear

/-- `RegisterCPM`, `ClearCPMcache` -/
def cacheStep (cache : HashChain.Table (Entry ρ)) : CacheCall ρ → HashChain.Table (Entry ρ)
  | .register cpm => registerCpm seed cache cpm
  | .clear => HashChain.empty

/-- The cache after a sequence of calls, from `InitCPMcache` on. -/
def cacheAfter (calls : List (CacheCall ρ)) : HashChain.Table (Entry ρ) :=
  calls.foldl (cacheStep seed) HashChain.empty

end Cache

/-! ## What a cache is for -/

/-- The predicates that were registered since the last `ClearCPMcache`. -/
def registered : List (CacheCall ρ) → List (CachedPred ρ) :=
  List.foldl (fun ps call => match call with
    | .register cpm => ps ++ [cpm]
    | .clear => []) []

/-- The same multiset of arguments for the same predicate. -/
def SameArguments (p q : CachedPred ρ) : Prop :=
  p.elemBNum.Perm q.elemBNum ∧ p.predBNum = q.predBNum

/-- The law: the key is that of the arguments, what is returned was registered for them, and
the texts fit into the buffers, with NUL. -/
structure KeyLaw (p : CachedPred ρ) : Prop where
  key_eq_iff : ∀ q : CachedPred ρ, p.inputcc2num = q.inputcc2num ↔ SameArguments p q
  hit : ∀ (seed : Seed) (calls : List (CacheCall ρ)) (q : CachedPred ρ),
    checkCpm seed (cacheAfter seed calls) p = some q → q ∈ registered calls ∧ SameArguments p q
  token_fits : ∀ token ∈ p.tokens, token.length + 1 ≤ TOKEN_SIZE
  key_fits : p.inputcc2num.length + 1 ≤ STR_SIZE

/-- The predicate and the arguments are among the first ten tags, or there is one argument
among the first hundred. -/
def FewTags (p : CachedPred ρ) : Prop :=
  p.predBNum < 10 ∧
    ((∀ n ∈ p.elemBNum, n < 10) ∨ ∃ n, p.elemBNum = [n] ∧ n < 100)

/-! ## The texts -/

theorem length_putNat_le_iff {k : Nat} (hk : 0 < k) (n : Nat) :
    (Scanf.putNat n).length ≤ k ↔ n < 10 ^ k := by
  by_cases hn : n = 0
  · have hpow : 0 < 10 ^ k := Nat.pow_pos (by omega)
    rw [Scanf.putNat, if_pos hn, hn]
    exact iff_of_true hk hpow
  · rw [Scanf.putNat, if_neg hn, List.length_map, List.length_reverse]
    exact Nat.digits_length_le_iff (by omega) n

theorem blank_not_mem_putNat (n : Nat) : (32 : UInt8) ∉ Scanf.putNat n := by
  intro h
  have hdigit := Scanf.isDigit_of_mem_putNat h
  revert hdigit
  decide

theorem putNat_injective : Function.Injective Scanf.putNat := by
  intro n m h
  rw [← Scanf.number_putNat n, h, Scanf.number_putNat]

theorem foldl_append_eq_flatten (ts : List (List UInt8)) :
    ∀ str : List UInt8, ts.foldl (fun str token => str ++ token) str = str ++ ts.flatten := by
  induction ts with
  | nil =>
      intro str
      rw [List.foldl_nil, List.flatten_nil, List.append_nil]
  | cons t ts ih =>
      intro str
      rw [List.foldl_cons, ih, List.flatten_cons, List.append_assoc]

theorem inputcc2num_eq (cpm : CachedPred ρ) : cpm.inputcc2num = cpm.tokens.flatten := by
  rw [inputcc2num, foldl_append_eq_flatten, List.nil_append]

/-- What stands between the blanks of the key: before the first one nothing if there are no
arguments. -/
def elementWords : List Nat → List (List UInt8)
  | [] => [[]]
  | n :: ns => (n :: ns).map Scanf.putNat

theorem elementWords_injective : Function.Injective elementWords := by
  intro ns ms h
  cases ns with
  | nil =>
      cases ms with
      | nil => rfl
      | cons m ms =>
          have hm := (List.cons.inj h).1
          exact absurd hm.symm (Scanf.putNat_ne_nil m)
  | cons n ns =>
      cases ms with
      | nil =>
          have hn := (List.cons.inj h).1
          exact absurd hn (Scanf.putNat_ne_nil n)
      | cons m ms => exact List.map_injective_iff.mpr putNat_injective h

theorem intercalate_cons_map (w : List UInt8) (ns : List Nat) :
    [32].intercalate (w :: ns.map Scanf.putNat) = w ++ (ns.map spacedToken).flatten := by
  induction ns generalizing w with
  | nil => simp
  | cons n ns ih =>
      rw [List.map_cons, List.intercalate_cons_cons, ih, List.map_cons, List.flatten_cons,
        spacedToken]
      simp

/-- The key is the words with a blank between any two. -/
theorem inputcc2num_eq_intercalate (cpm : CachedPred ρ) :
    cpm.inputcc2num =
      [32].intercalate (elementWords cpm.numbers ++ [Scanf.putNat cpm.predBNum]) := by
  rw [inputcc2num_eq, tokens]
  cases hns : cpm.numbers with
  | nil => simp [elementTokens, elementWords, spacedToken, List.intercalate_cons_cons]
  | cons n ns =>
      have hmap : elementWords (n :: ns) ++ [Scanf.putNat cpm.predBNum] =
          Scanf.putNat n :: (ns ++ [cpm.predBNum]).map Scanf.putNat := by
        rw [elementWords, List.map_append]
        rfl
      rw [hmap, intercalate_cons_map, elementTokens, List.map_append]
      simp

theorem numbers_perm (cpm : CachedPred ρ) : cpm.numbers.Perm cpm.elemBNum :=
  List.mergeSort_perm _ _

theorem numbers_sorted (cpm : CachedPred ρ) : cpm.numbers.Pairwise (· ≤ ·) :=
  List.pairwise_mergeSort' (· ≤ ·) _

theorem numbers_eq_iff (p q : CachedPred ρ) :
    p.numbers = q.numbers ↔ p.elemBNum.Perm q.elemBNum := by
  constructor
  · intro h
    exact p.numbers_perm.symm.trans (h ▸ q.numbers_perm)
  · intro h
    have hperm := p.numbers_perm.trans (h.trans q.numbers_perm.symm)
    exact hperm.eq_of_pairwise' p.numbers_sorted q.numbers_sorted

/-- The blank separates the numbers, so the key has them all. -/
theorem inputcc2num_eq_iff (p q : CachedPred ρ) :
    p.inputcc2num = q.inputcc2num ↔ SameArguments p q := by
  have hblank : ∀ cpm : CachedPred ρ,
      ∀ w ∈ elementWords cpm.numbers ++ [Scanf.putNat cpm.predBNum], (32 : UInt8) ∉ w := by
    intro cpm w hw
    rw [List.mem_append, List.mem_singleton] at hw
    rcases hw with hw | hw
    · cases hns : cpm.numbers with
      | nil =>
          rw [hns] at hw
          rw [List.mem_singleton.mp hw]
          exact List.not_mem_nil
      | cons n ns =>
          rw [hns] at hw
          obtain ⟨m, -, rfl⟩ := List.mem_map.mp hw
          exact blank_not_mem_putNat m
    · rw [hw]
      exact blank_not_mem_putNat _
  constructor
  · intro h
    rw [inputcc2num_eq_intercalate, inputcc2num_eq_intercalate] at h
    have hsplit := congrArg (List.splitOn 32) h
    rw [List.splitOn_intercalate _ (hblank p) (by simp),
      List.splitOn_intercalate _ (hblank q) (by simp)] at hsplit
    obtain ⟨hfront, hlast⟩ := List.append_inj' hsplit rfl
    exact ⟨(numbers_eq_iff p q).mp (elementWords_injective hfront),
      putNat_injective (List.cons.inj hlast).1⟩
  · rintro ⟨hperm, hpred⟩
    rw [inputcc2num_eq_intercalate, inputcc2num_eq_intercalate, (numbers_eq_iff p q).mpr hperm,
      hpred]

/-! ## The runs -/

def entryOf (cpm : CachedPred ρ) : Entry ρ := ⟨cpm.inputcc2num, cpm⟩

theorem registered_concat (calls : List (CacheCall ρ)) (cpm : CachedPred ρ) :
    registered (calls ++ [.register cpm]) = registered calls ++ [cpm] := by
  rw [registered, List.foldl_concat]

theorem registered_clear (calls : List (CacheCall ρ)) : registered (calls ++ [.clear]) = [] := by
  rw [registered, List.foldl_concat]

/-- The chains hold what was registered since they were cleared. -/
theorem cacheAfter_holds (seed : Seed) (calls : List (CacheCall ρ)) :
    HashChain.Holds (hash seed) Entry.key (cacheAfter seed calls)
      ((registered calls).map entryOf) := by
  induction calls using List.reverseRecOn with
  | nil => exact HashChain.holds_empty _ _
  | append_singleton calls call ih =>
      rw [cacheAfter, List.foldl_concat]
      cases call with
      | register cpm =>
          rw [registered_concat, List.map_append]
          exact ih.append (entryOf cpm)
      | clear =>
          rw [registered_clear]
          exact HashChain.holds_empty _ _

theorem registered_of_checkCpm {seed : Seed} {calls : List (CacheCall ρ)} {p q : CachedPred ρ}
    (h : checkCpm seed (cacheAfter seed calls) p = some q) :
    q ∈ registered calls ∧ q.inputcc2num = p.inputcc2num := by
  obtain ⟨e, hfind, rfl⟩ := Option.map_eq_some_iff.mp h
  obtain ⟨hmem, hkey⟩ := (cacheAfter_holds seed calls).mem_of_find hfind
  obtain ⟨cpm, hcpm, rfl⟩ := List.mem_map.mp hmem
  exact ⟨hcpm, hkey⟩

/-! ## The buffers -/

theorem spacedToken_fits_iff (n : Nat) : (spacedToken n).length + 1 ≤ TOKEN_SIZE ↔ n < 10 := by
  have h := length_putNat_le_iff (k := 1) (by omega) n
  rw [pow_one] at h
  rw [← h, spacedToken, List.length_cons, TOKEN_SIZE]
  omega

theorem putNat_fits_iff (n : Nat) : (Scanf.putNat n).length + 1 ≤ TOKEN_SIZE ↔ n < 100 := by
  have h := length_putNat_le_iff (k := 2) (by omega) n
  rw [TOKEN_SIZE]
  omega

/-- Only the first number is printed without a blank. -/
theorem elementTokens_fit_iff (ns : List Nat) (hsorted : ns.Pairwise (· ≤ ·)) :
    (∀ token ∈ elementTokens ns, token.length + 1 ≤ TOKEN_SIZE) ↔
      (∀ n ∈ ns, n < 10) ∨ ∃ n, ns = [n] ∧ n < 100 := by
  cases ns with
  | nil => exact iff_of_true (by simp [elementTokens]) (.inl (by simp))
  | cons n ns =>
      rw [elementTokens, List.forall_mem_cons, putNat_fits_iff, List.forall_mem_map]
      simp only [spacedToken_fits_iff]
      rw [List.pairwise_cons] at hsorted
      constructor
      · rintro ⟨hn, hns⟩
        cases ns with
        | nil => exact .inr ⟨n, rfl, hn⟩
        | cons m ms =>
            have hm := hns m List.mem_cons_self
            have hle := hsorted.1 m List.mem_cons_self
            refine .inl (List.forall_mem_cons.mpr ⟨by omega, hns⟩)
      · rintro (h | ⟨m, hm, hlt⟩)
        · have hn := h n List.mem_cons_self
          exact ⟨by omega, fun m hm => h m (List.mem_cons_of_mem n hm)⟩
        · obtain ⟨rfl, rfl⟩ := List.cons.inj hm
          exact ⟨hlt, by simp⟩

theorem tokens_fit_iff (p : CachedPred ρ) :
    (∀ token ∈ p.tokens, token.length + 1 ≤ TOKEN_SIZE) ↔ p.FewTags := by
  have hperm := p.numbers_perm
  have hsingle : ∀ n, p.numbers = [n] ↔ p.elemBNum = [n] := by
    intro n
    constructor
    · intro h
      exact List.perm_singleton.mp (h ▸ hperm).symm
    · intro h
      exact List.perm_singleton.mp (h ▸ hperm)
  have hall : (∀ n ∈ p.numbers, n < 10) ↔ ∀ n ∈ p.elemBNum, n < 10 := by
    simp only [hperm.mem_iff]
  rw [tokens, List.forall_mem_append, List.forall_mem_singleton, spacedToken_fits_iff,
    elementTokens_fit_iff _ p.numbers_sorted, hall, and_comm, FewTags]
  simp only [hsingle]

theorem length_flatten_le {ts : List (List UInt8)} {k : Nat} (h : ∀ t ∈ ts, t.length ≤ k) :
    ts.flatten.length ≤ ts.length * k := by
  induction ts with
  | nil => simp
  | cons t ts ih =>
      obtain ⟨ht, hts⟩ := List.forall_mem_cons.mp h
      have hrest := ih hts
      rw [List.flatten_cons, List.length_append, List.length_cons, Nat.succ_mul]
      omega

theorem length_tokens_le (p : CachedPred ρ) : p.tokens.length ≤ CF_ELEMENT_MAX + 1 := by
  have hlen := p.numbers_perm.length_eq
  have hmax := p.element_max
  have helem : ∀ ns : List Nat, (elementTokens ns).length = ns.length := by
    intro ns
    cases ns with
    | nil => rfl
    | cons n ns => simp [elementTokens]
  rw [tokens, List.length_append, helem, hlen, List.length_singleton]
  omega

theorem key_fits_of_tokens {p : CachedPred ρ}
    (h : ∀ token ∈ p.tokens, token.length + 1 ≤ TOKEN_SIZE) :
    p.inputcc2num.length + 1 ≤ STR_SIZE := by
  have hflat := length_flatten_le (k := 2) fun t ht => Nat.le_of_succ_le_succ (h t ht)
  have hlen := p.length_tokens_le
  rw [inputcc2num_eq]
  simp only [CF_ELEMENT_MAX, STR_SIZE] at *
  omega

/-- **The keys are right just for few tags.** -/
theorem keyLaw_iff (p : CachedPred ρ) : p.KeyLaw ↔ p.FewTags := by
  constructor
  · intro h
    exact p.tokens_fit_iff.mp h.token_fits
  · intro h
    have hfit := p.tokens_fit_iff.mpr h
    refine ⟨p.inputcc2num_eq_iff, ?_, hfit, key_fits_of_tokens hfit⟩
    intro seed calls q hq
    obtain ⟨hmem, hkey⟩ := registered_of_checkCpm hq
    exact ⟨hmem, (p.inputcc2num_eq_iff q).mp hkey.symm⟩

/-- A predicate in the eleventh tag, without arguments. -/
def eleventh : CachedPred Unit := ⟨[], 10, (), by decide, by simp, by decide⟩

/-- The blank, two digits and NUL do not fit into `token`. -/
theorem eleventh_overruns : ¬eleventh.KeyLaw := by
  intro h
  have hfit := h.token_fits (spacedToken 10) (List.mem_append_right _ List.mem_cons_self)
  exact absurd ((spacedToken_fits_iff 10).mp hfit) (by omega)

end CachedPred

end Knp
