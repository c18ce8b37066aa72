import Mathlib
import Knp.Chain
import Knp.Loop
import Knp.MrphDpnd
import Knp.OpenHeads

/-!
# The search for the dependency structures (`dpnd_analysis.c`)

`decide_dpnd` goes through the bunsetsu from right to left and gives each one a
head, a list of them where the rule does not decide; each choice is a branch of
its own. `mask` excludes the bunsetsu inside a link that is already there. A
bunsetsu with 係:無格従属 stays open and follows a preceding one in the end.

> Without coordination, only links of such bunsetsu may cross an earlier one.
-/

namespace Knp

/-- What the search reads of the sentence and of the rules. -/
structure DecideEnv where
  bnstNum : Nat
  maskMatrix : Nat → Nat → Nat
  quoteMatrix : Nat → Nat → Bool
  /-- `none` for 0 -/
  dpndMatrix : Nat → Nat → Option Char
  /-- The feature 係 as a whole, 体言, and the number in 係:無格従属. -/
  kakari : Nat → Option String
  taigen : Nat → Bool
  mukaku : Nat → Option Int
  /-- The dependency rule: whether it has a barrier, what matches it, the
  position it prefers (-1 for the last), whether it decides. -/
  barrierFp : Nat → Bool
  barrierMatch : Nat → Nat → Bool
  preference : Nat → Int
  decided : Nat → Bool

/-- `CHECK_DATA`: the candidates of a bunsetsu. -/
structure CheckData where
  num : Int
  dflt : Int
  pos : List Nat

/-- `DPND`, but for `pos` -/
structure DpndSearch extends Dpnd where
  dflt : Nat → Nat
  mask : Nat → Bool
  check : Nat → CheckData

namespace DpndSearch

/-- The initial state in `detect_dpnd_case_struct`. -/
def init : DpndSearch where
  head _ := -1
  type _ := 'D'
  dflt _ := 0
  mask _ := true
  check _ := ⟨-1, 0, []⟩

/-- The head of bunsetsu `b`, with its type, the distance from the default and
the candidates. -/
def choose (b : Nat) (head : Int) (type : Char) (dflt : Nat) (check : CheckData) (d : DpndSearch) :
    DpndSearch where
  head := Function.update d.head b head
  type := Function.update d.type b type
  dflt := Function.update d.dflt b dflt
  mask := d.mask
  check := Function.update d.check b check

/-- (前の係りによる)非交差条件の設定 -/
def maskInside (bnstNum pos : Nat) (d : DpndSearch) : DpndSearch :=
  if pos + 2 < bnstNum then
    { d with mask := fun i => d.mask i && !(pos + 2 ≤ i && (i : Int) < d.head (pos + 1)) }
  else d

/-- 無格従属: 前の文節の係り受けに従う場合. `none` for an impossible link
(ありえない係り受け). -/
def followHead (i : Nat) (d : DpndSearch) : Option DpndSearch :=
  if d.head i < 0 then
    let head := d.head ((i : Int) + d.head i).toNat
    if head ≤ i then none
    else some { d with
      head := Function.update d.head i head
      check := Function.update d.check i
        { d.check i with pos := head.toNat :: (d.check i).pos.tail } }
  else some d

end DpndSearch

section Search

variable (env : DecideEnv)

/-- Whether bunsetsu `i` may be the head of `pos`, all types aside. -/
def reachable (pos : Nat) (mask : Nat → Bool) (i : Nat) : Bool :=
  env.maskMatrix pos i != 0 && env.quoteMatrix pos i && mask i

/-- 後方チ(ェック)の d の係り受けを許す条件 -/
def checkUncertainDCondition (pos : Nat) (mask : Nat → Bool) (gvnr : Nat) : Bool :=
  let nextD := ((List.range' (gvnr + 1) (env.bnstNum - (gvnr + 1))).find? fun i =>
    reachable env pos mask i && env.dpndMatrix pos i = some 'D').getD 0
  let nextCp := if gvnr + 1 < env.bnstNum then env.kakari (gvnr + 1) else none
  nextD = 0 || gvnr + 2 < nextD ||
    (gvnr + 2 = nextD && gvnr + 1 < env.bnstNum && env.taigen (gvnr + 1) &&
      (nextCp.isSome && (env.kakari pos = nextCp || env.kakari gvnr = nextCp)))

/-- Bunsetsu `i` as a candidate, after those found; a `d` counts only as the
first one (`d_possibility`). -/
def addCandidate (pos : Nat) (mask : Nat → Bool) (i : Nat) (s : Bool × List Nat) :
    Bool × List Nat :=
  if s.1 && env.dpndMatrix pos i = some 'd' then
    (false, if checkUncertainDCondition env pos mask i then s.2 ++ [i] else s.2)
  else if (env.dpndMatrix pos i).isSome && env.dpndMatrix pos i != some 'd' then
    (false, s.2 ++ [i])
  else s

/-- 係り先の候補を調べる, up to the barrier. -/
def possibilities (pos : Nat) (mask : Nat → Bool) : List Nat → Bool × List Nat → List Nat
  | [], s => s.2
  | i :: is, s =>
      if reachable env pos mask i then
        let s := addCandidate env pos mask i s
        if !s.2.isEmpty && env.barrierFp pos && env.barrierMatch pos i then s.2
        else possibilities pos mask is s
      else possibilities pos mask is s

/-- The next states: bunsetsu `pos` gets its head. -/
def decideHead (pos : Nat) (d : DpndSearch) : List DpndSearch :=
  let rest := List.range' (pos + 1) (env.bnstNum - (pos + 1))
  -- 並列構造のキー文節, 部分並列の文節<I>
  match rest.find? fun i => env.maskMatrix pos i = 2 || env.maskMatrix pos i = 3 with
  | some i =>
      [d.choose pos i (if env.maskMatrix pos i = 2 then 'P' else 'I') (d.dflt pos)
        ⟨1, (d.check pos).dflt, [i]⟩]
  | none => match env.mukaku pos with
    -- 前の文節の係り受けに従う場合
    | some v => [d.choose pos v 'D' 0 { d.check pos with num := 1 }]
    | none =>
        let found := possibilities env pos d.mask rest (true, [])
        let type := fun i => (env.dpndMatrix pos i).getD 'D'
        if found.isEmpty then
          -- 係り先がない場合: 文末
          if env.maskMatrix pos (env.bnstNum - 1) = 0 then []
          else [d.choose pos (env.bnstNum - 1 : Nat) 'D' 10
            ⟨1, (d.check pos).dflt, [env.bnstNum - 1]⟩]
        else
          let defaultPos := if env.preference pos = -1 then (found.length : Int)
            else env.preference pos
          let check : CheckData := ⟨found.length, defaultPos, found⟩
          if !env.barrierFp pos || env.decided pos then
            -- 一意に決定する場合
            let i := found.getD (if defaultPos ≤ found.length then (defaultPos - 1).toNat
              else found.length - 1) 0
            [d.choose pos i (type i) 0 check]
          else
            -- すべての可能性をつくり出す場合
            found.zipIdx.map fun (i, k) =>
              d.choose pos i (type i) (defaultPos - 1 - k).natAbs check

/-- `decide_dpnd`, with the heads from `pos` on: the structures that reach the
evaluation, on all branches. -/
def decideDpnd : Nat → DpndSearch → List DpndSearch
  | 0, d => (Loop.upTo? 0 (env.bnstNum - 1) DpndSearch.followHead d).toList
  | pos + 1, d => (decideHead env pos (d.maskInside env.bnstNum pos)).flatMap (decideDpnd pos)

/-- `detect_dpnd_case_struct` -/
def detectDpndCaseStruct : List DpndSearch := decideDpnd env (env.bnstNum - 1) DpndSearch.init

end Search

/-! ## What a step keeps -/

variable {env : DecideEnv} {pos : Nat} {d : DpndSearch}

variable (env) in
/-- No coordination, positions that the rules can prefer, and numbers of
係:無格従属 that refer to a preceding bunsetsu. -/
structure PlainSentence : Prop where
  pos : 0 < env.bnstNum
  mask : ∀ i j, env.maskMatrix i j ≤ 1
  preference : ∀ i, env.preference i = -1 ∨ 1 ≤ env.preference i
  mukaku : ∀ i v, env.mukaku i = some v → v < 0 ∧ -(i : Int) ≤ v

variable (env) in
/-- The heads from `k` on: those that are there go to the right and do not
cross, and the mask excludes what lies inside those from `k + 1` on. -/
structure Chosen (k : Nat) (d : DpndSearch) : Prop where
  last : d.head (env.bnstNum - 1) = -1
  right : ∀ i, k ≤ i → i + 1 < env.bnstNum → 0 ≤ d.head i →
    (i : Int) < d.head i ∧ d.head i < env.bnstNum
  opened : ∀ i, k ≤ i → i + 1 < env.bnstNum → d.head i < 0 →
    -(i : Int) ≤ d.head i ∧ (env.mukaku i).isSome
  nested : ∀ a b, k ≤ a → b + 1 < env.bnstNum → a < b → 0 ≤ d.head b → (b : Int) < d.head a →
    d.head b ≤ d.head a
  masked : ∀ i b, d.mask i = true → k + 1 ≤ b → b + 1 < env.bnstNum → b < i → d.head b ≤ i

theorem mem_addCandidate {mask : Nat → Bool} {i x : Nat} {s : Bool × List Nat}
    (h : x ∈ (addCandidate env pos mask i s).2) : x ∈ s.2 ∨ x = i := by
  rw [addCandidate] at h
  split at h
  · dsimp only at h
    split at h
    · simpa using h
    · exact .inl h
  · split at h
    · simpa using h
    · exact .inl h

/-- Candidates are not masked. -/
theorem mem_possibilities {mask : Nat → Bool} {x : Nat} :
    ∀ {is : List Nat} {s : Bool × List Nat}, x ∈ possibilities env pos mask is s →
      x ∈ s.2 ∨ x ∈ is ∧ mask x = true
  | [], _, h => .inl h
  | i :: is, s, h => by
      rw [possibilities] at h
      split at h
      · next hreach =>
          have hmask : mask i = true := by
            simp only [reachable, Bool.and_eq_true] at hreach
            exact hreach.2
          have hadd : x ∈ (addCandidate env pos mask i s).2 → x ∈ s.2 ∨ x ∈ i :: is ∧ mask x = true := by
            intro hmem
            rcases mem_addCandidate hmem with hold | rfl
            · exact .inl hold
            · exact .inr ⟨List.mem_cons_self, hmask⟩
          dsimp only at h
          split at h
          · exact hadd h
          · rcases mem_possibilities h with hfound | ⟨hin, hx⟩
            · exact hadd hfound
            · exact .inr ⟨List.mem_cons_of_mem i hin, hx⟩
      · rcases mem_possibilities h with hfound | ⟨hin, hx⟩
        · exact .inl hfound
        · exact .inr ⟨List.mem_cons_of_mem i hin, hx⟩

/-- The preferred position, or the last one, is that of a candidate. -/
theorem defaultIndex_lt (hplain : PlainSentence env) (pos : Nat) {count : Nat} (hcount : 0 < count) :
    (if (if env.preference pos = -1 then (count : Int) else env.preference pos) ≤ count then
      ((if env.preference pos = -1 then (count : Int) else env.preference pos) - 1).toNat
    else count - 1) < count := by
  have := hplain.preference pos
  split_ifs <;> omega

/-- The next head: a bunsetsu to the right that is not masked, or the last one,
or open. -/
theorem mem_decideHead (hplain : PlainSentence env) (hpos : pos + 1 < env.bnstNum)
    {e : DpndSearch} (he : e ∈ decideHead env pos d) :
    ∃ head, e.head = Function.update d.head pos head ∧ e.mask = d.mask ∧
      (env.mukaku pos = some head ∨ ∃ i, pos < i ∧ i < env.bnstNum ∧ head = (i : Nat) ∧
        (d.mask i = true ∨ i + 1 = env.bnstNum)) := by
  rw [decideHead] at he
  dsimp only at he
  split at he
  · next i hfind =>
      have hmask := hplain.mask pos i
      have := List.find?_some hfind
      simp only [Bool.or_eq_true, decide_eq_true_eq] at this
      omega
  · split at he
    · next v hv =>
        rw [List.mem_singleton] at he
        exact ⟨v, by rw [he]; rfl, by rw [he]; rfl, .inl hv⟩
    · -- a candidate, whichever is taken
      have hcandidate : ∀ i ∈ possibilities env pos d.mask
          (List.range' (pos + 1) (env.bnstNum - (pos + 1))) (true, []),
          pos < i ∧ i < env.bnstNum ∧ d.mask i = true := by
        intro i hi
        rcases mem_possibilities hi with hnil | ⟨hin, hmask⟩
        · cases hnil
        · have := List.mem_range'_1.mp hin
          exact ⟨by omega, by omega, hmask⟩
      generalize possibilities env pos d.mask
        (List.range' (pos + 1) (env.bnstNum - (pos + 1))) (true, []) = found at he hcandidate
      split at he
      · split at he
        · cases he
        · rw [List.mem_singleton] at he
          exact ⟨_, by rw [he]; rfl, by rw [he]; rfl, .inr ⟨env.bnstNum - 1, by omega, by omega, rfl,
            .inr (by omega)⟩⟩
      · next hfound =>
          split at he
          · have hlen : 0 < found.length := List.length_pos_iff.mpr fun hnil => hfound (by rw [hnil]; rfl)
            have hpreferred := defaultIndex_lt hplain pos hlen
            rw [List.mem_singleton] at he
            generalize (if (if env.preference pos = -1 then (found.length : Int)
              else env.preference pos) ≤ found.length then _ else _ : Nat) = k at he hpreferred
            rw [List.getD_eq_getElem _ _ hpreferred] at he
            obtain ⟨hlt, hle, hmask⟩ := hcandidate _ (List.getElem_mem hpreferred)
            exact ⟨_, by rw [he]; rfl, by rw [he]; rfl, .inr ⟨_, hlt, hle, rfl, .inl hmask⟩⟩
          · obtain ⟨⟨i, k⟩, hmem, rfl⟩ := List.mem_map.mp he
            obtain ⟨hlt, hle, hmask⟩ := hcandidate i (List.fst_mem_of_mem_zipIdx hmem)
            exact ⟨_, rfl, rfl, .inr ⟨i, hlt, hle, rfl, .inl hmask⟩⟩

/-- The mask after the link of bunsetsu `pos + 1`. -/
theorem Chosen.maskInside (h : Chosen env (pos + 1) d) :
    ∀ i b, (d.maskInside env.bnstNum pos).mask i = true → pos + 1 ≤ b → b + 1 < env.bnstNum →
      b < i → d.head b ≤ i := by
  intro i b hmask hle hb hbi
  rw [DpndSearch.maskInside, if_pos (by omega)] at hmask
  simp only [Bool.and_eq_true, Bool.not_eq_true', Bool.and_eq_false_iff, decide_eq_false_iff_not]
    at hmask
  by_cases hbp : b = pos + 1
  · subst hbp
    omega
  · exact h.masked i b hmask.1 (by omega) hb hbi

/-- One head more. -/
theorem Chosen.step (h : Chosen env (pos + 1) d) (hplain : PlainSentence env)
    (hpos : pos + 1 < env.bnstNum) {e : DpndSearch}
    (he : e ∈ decideHead env pos (d.maskInside env.bnstNum pos)) : Chosen env pos e := by
  have hsame : (d.maskInside env.bnstNum pos).head = d.head := by
    rw [DpndSearch.maskInside]
    split <;> rfl
  have hinside := h.maskInside
  obtain ⟨head, heq, hmask, hhead⟩ := mem_decideHead hplain hpos he
  rw [hsame] at heq
  have hself : e.head pos = head := by rw [heq, Function.update_self]
  have hother : ∀ b, b ≠ pos → e.head b = d.head b := by
    intro b hb
    rw [heq, Function.update_of_ne hb]
  constructor
  case last =>
    rw [hother _ (by omega)]
    exact h.last
  case right =>
    intro i hi hin hclosed
    by_cases hip : i = pos
    · subst hip
      rw [hself] at hclosed ⊢
      rcases hhead with hopen | ⟨q, hlt, hq, rfl, -⟩
      · have := (hplain.mukaku _ _ hopen).1
        omega
      · omega
    · rw [hother i hip] at hclosed ⊢
      exact h.right i (by omega) hin hclosed
  case opened =>
    intro i hi hin hneg
    by_cases hip : i = pos
    · subst hip
      rw [hself] at hneg ⊢
      rcases hhead with hopen | ⟨q, -, -, rfl, -⟩
      · exact ⟨(hplain.mukaku _ _ hopen).2, by rw [hopen]; rfl⟩
      · omega
    · rw [hother i hip] at hneg ⊢
      exact h.opened i (by omega) hin hneg
  case nested =>
    intro a b ha hb hab hclosed hba
    rw [hother b (by omega)] at hclosed ⊢
    by_cases hap : a = pos
    · subst hap
      rw [hself] at hba ⊢
      have hbound := (h.right b (by omega) hb hclosed).2
      rcases hhead with hopen | ⟨q, -, -, rfl, hq | hq⟩
      · have := (hplain.mukaku _ _ hopen).1
        omega
      · exact hinside q b hq (by omega) hb (by omega)
      · omega
    · rw [hother a hap] at hba ⊢
      exact h.nested a b (by omega) hb hab hclosed hba
  case masked =>
    intro i b hi hle hb hbi
    rw [hmask] at hi
    rw [hother b (by omega)]
    exact hinside i b hi hle hb hbi

/-! ## The whole search -/

/-- Before the first bunsetsu is done there are no heads. -/
theorem chosen_init (hpos : 0 < env.bnstNum) : Chosen env (env.bnstNum - 1) DpndSearch.init where
  last := rfl
  right := fun i hi hin => by omega
  opened := fun i hi hin => by omega
  nested := fun a b ha hb hab => by omega
  masked := fun i b _ hle hb => by omega

theorem Chosen.openHeads (h : Chosen env 0 d) : OpenHeads.Partial env.bnstNum d.head where
  right := fun i hi => h.right i (Nat.zero_le i) hi
  back := fun i hi hneg => (h.opened i (Nat.zero_le i) hi hneg).1
  nested := fun a b hb hab => h.nested a b (Nat.zero_le a) hb hab

/-- Where no link is impossible, the open heads are closed from left to right. -/
theorem followHead_filled {n : Nat} {e : DpndSearch} (hp : OpenHeads.Partial n d.head)
    (he : Loop.upTo? 0 (n - 1) DpndSearch.followHead d = some e) :
    OpenHeads.Filled false n d.head e.head ∧ e.head (n - 1) = d.head (n - 1) := by
  have hrun : OpenHeads.FilledTo false n (n - 1) d.head e.head := by
    refine Loop.upTo?_induction (fun i e => OpenHeads.FilledTo false n i d.head e.head)
      (Nat.zero_le _) ?_ OpenHeads.filledTo_zero he
    intro i e e' _ hi hf hstep
    have hsame := hf.later i le_rfl
    rw [DpndSearch.followHead] at hstep
    split at hstep
    · dsimp only at hstep
      split at hstep
      · cases hstep
      · next hlt =>
          cases hstep
          refine hf.close hp (by omega) (by omega) (.inl ⟨?_, by omega⟩)
          rw [hsame]
    · cases hstep
      exact hf.keep (by omega)
  exact ⟨hrun.filled, hrun.later _ le_rfl⟩

/-- Every structure that is evaluated comes from heads that do not cross, with
some left open. -/
theorem mem_decideDpnd (hplain : PlainSentence env) {e : DpndSearch} :
    ∀ {pos : Nat} {d : DpndSearch}, pos < env.bnstNum → Chosen env pos d → e ∈ decideDpnd env pos d →
      ∃ g, Chosen env 0 g ∧ OpenHeads.Filled false env.bnstNum g.head e.head ∧
        e.head (env.bnstNum - 1) = -1
  | 0, d, _, h, he => by
      rw [decideDpnd, Option.mem_toList] at he
      obtain ⟨hf, hlast⟩ := followHead_filled h.openHeads he
      exact ⟨d, h, hf, hlast.trans h.last⟩
  | pos + 1, d, hpos, h, he => by
      rw [decideDpnd, List.mem_flatMap] at he
      obtain ⟨d', hd', he⟩ := he
      exact mem_decideDpnd hplain (by omega) (h.step hplain hpos hd') he

/-- In every structure that is evaluated, each bunsetsu but the last has its
head to the right. A link that crosses one to its left is that of a bunsetsu
with 係:無格従属, and goes where that of a bunsetsu before both goes. -/
theorem detectDpndCaseStruct_heads (hplain : PlainSentence env) {e : DpndSearch}
    (he : e ∈ detectDpndCaseStruct env) :
    RightHeaded e.toDpnd env.bnstNum ∧
      ∀ a b, b + 1 < env.bnstNum → OpenHeads.Crosses e.head a b →
        (env.mukaku b).isSome ∧ ∃ o < a, e.head o = e.head b := by
  have hpos := hplain.pos
  obtain ⟨g, hg, hf, hlast⟩ := mem_decideDpnd hplain (by omega) (chosen_init hpos) he
  refine ⟨⟨fun b hb => hf.right hg.openHeads hb, hlast⟩, fun a b hb hcross => ?_⟩
  obtain ⟨hopen, ⟨hrelax, -⟩ | ⟨o, ho, hclosed, heq⟩⟩ := hf.crossing hg.openHeads hb hcross
  · cases hrelax
  · refine ⟨(hg.opened b (Nat.zero_le b) hb hopen).2, o, ho, ?_⟩
    have hab := hcross.1
    rw [heq]
    exact hf.kept o (by omega) hclosed

/-! ## Sentences -/

/-- A sentence with the possible links (D) and the numbers of 係:無格従属; the
rules prefer the nearest head. -/
def plainDecideEnv (bnstNum : Nat) (links : List (Nat × Nat)) (mukaku : List (Nat × Int)) :
    DecideEnv where
  bnstNum := bnstNum
  maskMatrix i j := if i < j then 1 else 0
  quoteMatrix _ _ := true
  dpndMatrix dep gov := if links.contains (dep, gov) then some 'D' else none
  kakari _ := none
  taigen _ := false
  mukaku b := mukaku.lookup b
  barrierFp _ := false
  barrierMatch _ _ := false
  preference _ := 1
  decided _ := false

theorem plainDecideEnv_plain {bnstNum : Nat} {links : List (Nat × Nat)} {mukaku : List (Nat × Int)}
    (hpos : 0 < bnstNum) (h : ∀ e ∈ mukaku, e.2 < 0 ∧ -(e.1 : Int) ≤ e.2) :
    PlainSentence (plainDecideEnv bnstNum links mukaku) where
  pos := hpos
  mask := by
    intro i j
    simp only [plainDecideEnv]
    split <;> omega
  preference := fun _ => .inr (Int.le_refl 1)
  mukaku := fun i v hv => h (i, v) (Chain.mem_of_lookup hv)

/-- The second of three bunsetsu follows the first one. -/
theorem follow_evaluated : ∃ e ∈ detectDpndCaseStruct (plainDecideEnv 3 [(0, 2)] [(1, -1)]),
    e.head 1 = 2 ∧ RightHeaded e.toDpnd 3 := by
  have hrun : (detectDpndCaseStruct (plainDecideEnv 3 [(0, 2)] [(1, -1)])).map (·.head 1) = [2] := by
    decide +kernel
  obtain ⟨e, he, hhead⟩ := List.mem_map.mp (hrun ▸ List.mem_singleton_self 2)
  exact ⟨e, he, hhead, (detectDpndCaseStruct_heads (plainDecideEnv_plain (by decide) (by decide)) he).1⟩

/-- Bunsetsu 2 follows bunsetsu 0, across the link of bunsetsu 1. -/
theorem crossing_evaluated :
    PlainSentence (plainDecideEnv 5 [(0, 4), (1, 3), (3, 4)] [(2, -2)]) ∧
      ∃ e ∈ detectDpndCaseStruct (plainDecideEnv 5 [(0, 4), (1, 3), (3, 4)] [(2, -2)]),
        OpenHeads.Crosses e.head 1 2 := by
  refine ⟨plainDecideEnv_plain (by decide) (by decide), ?_⟩
  have hrun : (detectDpndCaseStruct (plainDecideEnv 5 [(0, 4), (1, 3), (3, 4)] [(2, -2)])).map
      (fun e => decide (OpenHeads.Crosses e.head 1 2)) = [true] := by
    decide +kernel
  obtain ⟨e, he, hcross⟩ := List.mem_map.mp (hrun ▸ List.mem_singleton_self true)
  exact ⟨e, he, of_decide_eq_true hcross⟩

end Knp
