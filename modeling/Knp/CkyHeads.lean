import Knp.Chain
import Knp.Cky
import Knp.OpenHeads

/-!
# The heads of a parse (`cky.c`)

What `convert_to_dpnd` writes of a phrase lies inside the phrase and does not
cross, as long as the parts that coordinations share are the same phrase. With
`OptParaFix` there is no sharing.

> Of the links that `after_cky` leaves, only those of the bunsetsu with
> 係:無格従属 may cross an earlier one.
-/

namespace Knp

variable {env : CkyEnv} {i j : Nat} {c : Cky}

/-! ## What the chart holds -/

theorem isPara_of_type (h : c.dpndType = some 'P') : c.isPara = true := by
  cases c with
  | leaf j => cases h
  | node i j left right dpndType direction paraFlag =>
      have hP : dpndType = 'P' := Option.some.inj h
      simp [Cky.isPara, hP]

variable (env) in
/-- A phrase from `i` to `j` that the parser may put together. -/
inductive Built : Nat → Nat → Cky → Prop
  | leaf (j : Nat) : Built j j (.leaf j)
  | phrase {i m j : Nat} {left right : Cky} {dpndType : Char} {direction : Direction}
      (hleft : Built i m left) (hright : Built (m + 1) j right)
      (hdirection : direction = .RtoL → env.dpndMatrix left.bPtr right.bPtr = some 'L') :
      Built i j (.node i j left right dpndType direction false)
  | para {i q m j : Nat} {left right : Cky} (hfix : env.optParaFix = false) (him : i < m)
      (hleft : Built i q left) (htype : left.dpndType = some 'P')
      (hright : Built m j right) (hpara : right.isPara = true)
      (hshared : right.firstConjunct.j = q) :
      Built i j (.node i j left right 'P' .LtoR true)

namespace Built

theorem span (h : Built env i j c) : c.i = i ∧ c.j = j := by
  cases h <;> exact ⟨rfl, rfl⟩

theorem le (h : Built env i j c) : i ≤ j := by
  induction h with
  | leaf j => exact Nat.le_refl j
  | phrase _ _ _ ihl ihr => omega
  | para _ him _ _ _ _ _ _ ihr => omega

/-- The first part ends inside the phrase. -/
theorem firstConjunct_le (h : Built env i j c) : c.firstConjunct.j ≤ j := by
  induction h with
  | leaf j => exact Nat.le_refl j
  | @phrase i m j left right dpndType direction _ hright _ ihl _ =>
      rw [Cky.firstConjunct]
      split
      · have := hright.le
        omega
      · exact Nat.le_refl j
  | @para i q m j left right _ _ _ _ _ _ hshared ihl ihr =>
      rw [Cky.firstConjunct, if_pos (by decide)]
      omega

/-- The first part is a phrase with the same start. -/
theorem firstConjunct (h : Built env i j c) : ∃ q, Built env i q c.firstConjunct := by
  induction h with
  | leaf j => exact ⟨j, .leaf j⟩
  | @phrase i m j left right dpndType direction hleft hright hdirection ihl _ =>
      rw [Cky.firstConjunct]
      split
      · exact ihl
      · exact ⟨j, .phrase hleft hright hdirection⟩
  | para _ _ _ _ _ _ _ ihl _ => exact ihl

/-- The last part is a phrase with the same end. -/
theorem lastConjunct (h : Built env i j c) : ∃ m, i ≤ m ∧ Built env m j c.lastConjunct := by
  induction h with
  | leaf j => exact ⟨j, Nat.le_refl j, .leaf j⟩
  | @phrase i m j left right dpndType direction hleft hright hdirection _ ihr =>
      rw [Cky.lastConjunct]
      split
      · obtain ⟨m', hm', hlast⟩ := ihr
        have := hleft.le
        exact ⟨m', by omega, hlast⟩
      · exact ⟨i, Nat.le_refl i, .phrase hleft hright hdirection⟩
  | @para i q m j left right _ him _ _ _ _ _ _ ihr =>
      obtain ⟨m', hm', hlast⟩ := ihr
      exact ⟨m', by omega, hlast⟩

theorem le_firstConjunct (h : Built env i j c) : i ≤ c.firstConjunct.j := by
  obtain ⟨q, hq⟩ := h.firstConjunct
  rw [hq.span.2]
  exact hq.le

/-- Without left-headed links the last bunsetsu is the head. -/
theorem bPtr_eq (hnoL : ∀ dep gov, env.dpndMatrix dep gov ≠ some 'L') (h : Built env i j c) :
    c.bPtr = j := by
  induction h with
  | leaf j => rfl
  | @phrase i m j left right dpndType direction _ _ hdirection _ ihr =>
      cases direction with
      | LtoR => exact ihr
      | RtoL => exact absurd (hdirection rfl) (hnoL _ _)
  | para _ _ _ _ _ _ _ _ ihr => exact ihr

end Built

/-- Every entry of the chart is a phrase of its cell. -/
def AllBuilt (env : CkyEnv) (chart : Chart) : Prop :=
  ∀ i j, ∀ c ∈ chart.matrix i j, Built env i j c

theorem mem_of_mem_takeUntil {α : Type*} {stop : α → Bool} {a : α} :
    ∀ {l : List α}, a ∈ takeUntil stop l → a ∈ l
  | [], h => h
  | b :: l, h => by
      rw [takeUntil] at h
      split at h
      · rw [List.mem_singleton] at h
        exact h ▸ List.mem_cons_self
      · rcases List.mem_cons.mp h with rfl | h'
        · exact List.mem_cons_self
        · exact List.mem_cons_of_mem b (mem_of_mem_takeUntil h')

theorem mem_of_removeBest {best : Cky} {others : List Cky} :
    ∀ {l : List Cky}, removeBest env l = some (best, others) →
      ∀ c, c ∈ best :: others → c ∈ l
  | [], h, _, _ => by cases h
  | d :: l, h, c, hc => by
      rw [removeBest] at h
      split at h
      · cases h
        rcases List.mem_cons.mp hc with rfl | hc'
        · exact List.mem_cons_self
        · cases hc'
      · next best' others' hrest =>
          split at h
          · cases h
            exact hc
          · cases h
            rcases List.mem_cons.mp hc with rfl | hc'
            · exact List.mem_cons_of_mem d (mem_of_removeBest hrest _ List.mem_cons_self)
            · rcases List.mem_cons.mp hc' with rfl | hc''
              · exact List.mem_cons_self
              · exact List.mem_cons_of_mem d
                  (mem_of_removeBest hrest c (List.mem_cons_of_mem _ hc''))

theorem mem_of_mem_sortCkyPtrs : ∀ {beam : Nat} {l : List Cky}, c ∈ sortCkyPtrs env beam l → c ∈ l
  | 0, _, h => h
  | beam + 1, l, h => by
      rw [sortCkyPtrs] at h
      split at h
      · cases h
      · next best others hbest =>
          rcases List.mem_cons.mp h with rfl | h'
          · exact mem_of_removeBest hbest _ List.mem_cons_self
          · exact mem_of_removeBest hbest c
              (List.mem_cons_of_mem best (mem_of_mem_sortCkyPtrs h'))

theorem mem_of_mem_prune {l : List Cky} (h : c ∈ prune env i j l) : c ∈ l := by
  rw [prune] at h
  split at h
  · exact mem_of_mem_sortCkyPtrs (List.mem_of_mem_take h)
  · exact mem_of_mem_sortCkyPtrs h

namespace AllBuilt

variable {chart : Chart} (h : AllBuilt env chart)
include h

theorem phrases {k : Nat} (hc : c ∈ phrases env chart i j k) : Built env i j c := by
  simp only [Knp.phrases, List.mem_flatMap, List.mem_filterMap] at hc
  obtain ⟨left, hleft, right, hright, hphrase⟩ := hc
  have hl := h _ _ _ (mem_of_mem_takeUntil hleft)
  have hr := h _ _ _ (mem_of_mem_takeUntil hright)
  rw [phrase] at hphrase
  split at hphrase
  · split at hphrase
    · cases hphrase
      refine .phrase hl hr fun hdirection => ?_
      by_contra hne
      rw [if_neg hne] at hdirection
      cases hdirection
    · cases hphrase
  · cases hphrase

theorem setBarrier (dep : Nat) : AllBuilt env (setBarrier env dep j chart) := by
  intro a b d hd
  refine h a b d ?_
  unfold Knp.setBarrier at hd
  dsimp only at hd
  split_ifs at hd <;> exact hd

theorem mergeCells :
    AllBuilt env (mergeCells env i j chart).1 ∧ ∀ c ∈ (mergeCells env i j chart).2, Built env i j c := by
  refine Loop.upTo_invariant _ (fun s : Chart × List Cky => AllBuilt env s.1 ∧
    ∀ c ∈ s.2, Built env i j c) (fun k s ⟨hs, hl⟩ => ⟨?_, fun c hc => ?_⟩) ⟨h, fun _ hc => by cases hc⟩
  · dsimp only
    split
    · exact hs
    · exact hs.setBarrier _
  · rcases List.mem_append.mp hc with hold | hnew
    · exact hl c hold
    · exact hs.phrases hnew

theorem paraPhrases (hfix : env.optParaFix = false) (hc : c ∈ paraPhrases chart i j) :
    Built env i j c := by
  simp only [Knp.paraPhrases, List.mem_flatMap] at hc
  obtain ⟨k, -, right, hright, hc⟩ := hc
  split at hc
  · next hpara =>
      obtain ⟨left, hleft, rfl⟩ := List.mem_map.mp hc
      obtain ⟨hmem, htype⟩ := List.mem_filter.mp hleft
      exact .para hfix (by omega) (h _ _ _ hmem) (by simpa using htype) (h _ _ _ hright) hpara rfl
  · cases hc

theorem fillCell : AllBuilt env (fillCell env i j chart) := by
  -- the cell itself, and the others as they were
  have hset : ∀ {chart' : Chart} {l : List Cky}, AllBuilt env chart' → (∀ c ∈ l, Built env i j c) →
      AllBuilt env { chart' with
        matrix := Function.update chart'.matrix i (Function.update (chart'.matrix i) j l) } := by
    intro chart' l hall hl a b d hd
    by_cases ha : a = i
    · subst ha
      by_cases hb : b = j
      · subst hb
        simp only [Function.update_self] at hd
        exact hl d hd
      · simp only [Function.update_self, Function.update_of_ne hb] at hd
        exact hall a b d hd
    · simp only [Function.update_of_ne ha] at hd
      exact hall a b d hd
  rw [Knp.fillCell]
  by_cases hij : i = j
  · rw [if_pos hij]
    refine hset h fun c hc => ?_
    rw [List.mem_singleton] at hc
    rw [hc, hij]
    exact .leaf j
  · rw [if_neg hij]
    obtain ⟨hall, hl⟩ := h.mergeCells (i := i) (j := j)
    refine hset hall fun c hc => ?_
    rcases List.mem_append.mp (mem_of_mem_prune hc) with hphrase | hpara
    · exact hl c hphrase
    · split at hpara
      · cases hpara
      · next hfix => exact hall.paraPhrases (by simpa using hfix) hpara

end AllBuilt

/-- Every phrase of the chart spans its cell. -/
theorem cky_allBuilt (env : CkyEnv) : AllBuilt env (cky env) :=
  Loop.upTo_invariant _ (AllBuilt env)
    (fun _ _ h => Loop.upTo_invariant _ (AllBuilt env) (fun _ _ h => h.fillCell) h)
    fun _ _ _ hc => by cases hc

/-! ## What is written of a phrase -/

/-- The link of a phrase: which bunsetsu, and its head or what 係:無格従属 says. -/
def Cky.link (env : CkyEnv) (left right : Cky) (dpndType : Char) (direction : Direction) :
    Nat × Int :=
  match if dpndType = 'P' then none else env.mukaku left.bPtr with
  | some v => (left.bPtr, v)
  | none => match direction with
      | .RtoL => (right.bPtr, left.bPtr)
      | .LtoR => (left.bPtr, right.bPtr)

/-- The heads that `convert_to_dpnd` writes, in order. -/
def writes (env : CkyEnv) : Cky → List (Nat × Int)
  | .leaf _ => []
  | .node _ _ left right dpndType direction paraFlag =>
      (if paraFlag then [] else [left.link env right dpndType direction]) ++
        (writes env left ++ writes env right)

def applyWrites (ws : List (Nat × Int)) (head : Nat → Int) : Nat → Int :=
  ws.foldl (fun head w => Function.update head w.1 w.2) head

theorem applyWrites_append (ws ws' : List (Nat × Int)) (head : Nat → Int) :
    applyWrites (ws ++ ws') head = applyWrites ws' (applyWrites ws head) :=
  List.foldl_append ..

theorem setLink_head (left right : Cky) (dpndType : Char) (direction : Direction) (d : Dpnd) :
    (setLink env left right dpndType direction d).head =
      Function.update d.head (left.link env right dpndType direction).1
        (left.link env right dpndType direction).2 := by
  unfold setLink Cky.link
  cases (if dpndType = 'P' then none else env.mukaku left.bPtr) with
  | some v => rfl
  | none => cases direction <;> rfl

theorem convertToDpnd_head (c : Cky) (d : Dpnd) :
    (convertToDpnd env c d).head = applyWrites (writes env c) d.head := by
  induction c generalizing d with
  | leaf j => rfl
  | node i j left right dpndType direction paraFlag ihl ihr =>
      rw [convertToDpnd, writes, applyWrites_append, applyWrites_append, ihr, ihl]
      congr 2
      cases paraFlag with
      | true => rfl
      | false =>
          exact setLink_head left right dpndType direction d

/-- The last write counts. -/
theorem applyWrites_mem_or {x : Nat} : ∀ (ws : List (Nat × Int)) (head : Nat → Int),
    (x, applyWrites ws head x) ∈ ws ∨
      (∀ v, (x, v) ∉ ws) ∧ applyWrites ws head x = head x
  | [], head => .inr ⟨fun _ => List.not_mem_nil, rfl⟩
  | w :: ws, head => by
      rcases applyWrites_mem_or ws (Function.update head w.1 w.2) with hmem | ⟨hnot, heq⟩
      · exact .inl (List.mem_cons_of_mem w hmem)
      · change (x, applyWrites ws (Function.update head w.1 w.2) x) ∈ w :: ws ∨
          _ ∧ applyWrites ws (Function.update head w.1 w.2) x = head x
        rw [heq]
        by_cases hx : x = w.1
        · subst hx
          rw [Function.update_self]
          exact .inl List.mem_cons_self
        · refine .inr ⟨fun v hv => ?_, Function.update_of_ne hx ..⟩
          rcases List.mem_cons.mp hv with rfl | hv'
          · exact hx rfl
          · exact hnot v hv'

variable (env) in
/-- Rules give no left-headed links to a language but Chinese, and 係:無格従属
refers to a preceding bunsetsu. -/
structure JapaneseRules : Prop where
  right : ∀ dep gov, env.dpndMatrix dep gov ≠ some 'L'
  mukaku : ∀ i v, env.mukaku i = some v → v < 0 ∧ -(i : Int) ≤ v

variable (hja : JapaneseRules env)
include hja

namespace Built

/-- The link of a phrase goes from the end of the left part to its own end. -/
theorem link_eq {m : Nat} {left right : Cky} {dpndType : Char} {direction : Direction}
    (hleft : Built env i m left) (hright : Built env (m + 1) j right)
    (hdirection : direction = .RtoL → env.dpndMatrix left.bPtr right.bPtr = some 'L') :
    ∃ v, left.link env right dpndType direction = (m, v) ∧ (env.mukaku m = some v ∨ v = j) := by
  have hl := hleft.bPtr_eq hja.right
  have hr := hright.bPtr_eq hja.right
  unfold Cky.link
  rw [hl]
  split
  · next v hv =>
      refine ⟨v, rfl, .inl ?_⟩
      split at hv
      · cases hv
      · exact hv
  · cases direction with
    | LtoR => exact ⟨j, by rw [hr], .inr rfl⟩
    | RtoL => exact absurd (hdirection rfl) (hja.right _ _)

/-- A phrase writes the heads of its bunsetsu but the last, inside the phrase. -/
theorem writes_bounds (h : Built env i j c) {x : Nat} {v : Int} (hw : (x, v) ∈ writes env c) :
    i ≤ x ∧ x < j ∧ (env.mukaku x = some v ∨ (x : Int) < v ∧ v ≤ j) := by
  induction h with
  | leaf j => cases hw
  | @phrase i m j left right dpndType direction hleft hright hdirection ihl ihr =>
      have hlel := hleft.le
      have hler := hright.le
      rw [writes, if_neg (by decide), List.mem_append, List.mem_append, List.mem_singleton] at hw
      rcases hw with hlink | hl | hr
      · obtain ⟨v', heq, hv'⟩ := hleft.link_eq hja hright hdirection
        rw [heq] at hlink
        cases hlink
        exact ⟨hlel, by omega, hv'.imp_right fun hj => by omega⟩
      · obtain ⟨hlo, hhi, hv⟩ := ihl hl
        exact ⟨hlo, by omega, hv.imp_right fun ⟨hlt, hle⟩ => ⟨hlt, by omega⟩⟩
      · obtain ⟨hlo, hhi, hv⟩ := ihr hr
        exact ⟨by omega, hhi, hv⟩
  | @para i q m j left right hfix him hleft htype hright hpara hshared ihl ihr =>
      have hq := hright.firstConjunct_le
      rw [writes, if_pos rfl, List.nil_append, List.mem_append] at hw
      rcases hw with hl | hr
      · obtain ⟨hlo, hhi, hv⟩ := ihl hl
        exact ⟨hlo, by omega, hv.imp_right fun ⟨hlt, hle⟩ => ⟨hlt, by omega⟩⟩
      · obtain ⟨hlo, hhi, hv⟩ := ihr hr
        exact ⟨by omega, hhi, hv⟩

/-- Each bunsetsu of a phrase but the last has its head written. -/
theorem writes_cover (h : Built env i j c) {x : Nat} (hlo : i ≤ x) (hhi : x < j) :
    ∃ v, (x, v) ∈ writes env c := by
  induction h with
  | leaf j => omega
  | @phrase i m j left right dpndType direction hleft hright hdirection ihl ihr =>
      rw [writes, if_neg (by decide)]
      rcases Nat.lt_trichotomy x m with hlt | rfl | hgt
      · obtain ⟨v, hv⟩ := ihl hlo hlt
        exact ⟨v, List.mem_append_right _ (List.mem_append_left _ hv)⟩
      · obtain ⟨v, heq, -⟩ := hleft.link_eq hja hright hdirection
        exact ⟨v, List.mem_append_left _ (List.mem_singleton.mpr heq.symm)⟩
      · obtain ⟨v, hv⟩ := ihr hgt hhi
        exact ⟨v, List.mem_append_right _ (List.mem_append_right _ hv)⟩
  | @para i q m j left right hfix him hleft htype hright hpara hshared ihl ihr =>
      rw [writes, if_pos rfl, List.nil_append]
      by_cases hx : x < q
      · obtain ⟨v, hv⟩ := ihl hlo hx
        exact ⟨v, List.mem_append_left _ hv⟩
      · -- the parts overlap, so that there is no gap between them
        have hmq : m ≤ q := hshared ▸ hright.le_firstConjunct
        obtain ⟨v, hv⟩ := ihr (by omega) hhi
        exact ⟨v, List.mem_append_right _ hv⟩

omit hja in
/-- The first part of a coordination ends before the last one starts. -/
theorem first_lt_last (h : Built env i j c) (hpara : c.isPara = true) (hagrees : c.Agrees) :
    c.firstConjunct.j < c.lastConjunct.i := by
  induction h with
  | leaf j => cases hpara
  | @phrase i m j left right dpndType direction hleft hright hdirection _ _ =>
      have hP : (decide (dpndType = 'P') || false) = true := hpara
      rw [Cky.firstConjunct, Cky.lastConjunct, if_pos hP, if_pos hP]
      have hfirst := hleft.firstConjunct_le
      obtain ⟨m', hm', hlast⟩ := hright.lastConjunct
      rw [hlast.span.1]
      omega
  | @para i q m j left right _ _ hleft htype hright _ _ ihl _ =>
      obtain ⟨hsame, hl, -⟩ := hagrees
      have hlt := ihl (isPara_of_type htype) hl
      obtain ⟨q', hfirst⟩ := hright.firstConjunct
      obtain ⟨m', hm', hlast⟩ := hright.lastConjunct
      rw [hsame rfl, hfirst.span.1] at hlt
      change left.firstConjunct.j < right.lastConjunct.i
      rw [hlast.span.1]
      omega

omit hja in
theorem writes_firstConjunct_subset : ∀ c : Cky, writes env c.firstConjunct ⊆ writes env c
  | .leaf _ => fun _ h => h
  | .node i j left right dpndType direction paraFlag => by
      rw [Cky.firstConjunct]
      split
      · exact fun _ h => List.mem_append_right _
          (List.mem_append_left _ (writes_firstConjunct_subset left h))
      · exact fun _ h => h

omit hja in
theorem writes_lastConjunct_subset : ∀ c : Cky, writes env c.lastConjunct ⊆ writes env c
  | .leaf _ => fun _ h => h
  | .node i j left right dpndType direction paraFlag => by
      rw [Cky.lastConjunct]
      split
      · exact fun _ h => List.mem_append_right _
          (List.mem_append_right _ (writes_lastConjunct_subset right h))
      · exact fun _ h => h

/-- What is written in front of the end of the first part is written by it. -/
theorem writes_firstConjunct (h : Built env i j c) (hagrees : c.Agrees) {x : Nat} {v : Int}
    (hw : (x, v) ∈ writes env c) (hx : x < c.firstConjunct.j) :
    (x, v) ∈ writes env c.firstConjunct := by
  induction h with
  | leaf j => exact hw
  | @phrase i m j left right dpndType direction hleft hright hdirection ihl _ =>
      rw [Cky.firstConjunct] at hx ⊢
      split at hx
      · next hP =>
          rw [if_pos hP]
          have hfirst := hleft.firstConjunct_le
          rw [writes, if_neg (by decide), List.mem_append, List.mem_append, List.mem_singleton] at hw
          rcases hw with hlink | hl | hr
          · obtain ⟨v', heq, -⟩ := hleft.link_eq hja hright hdirection
            rw [heq] at hlink
            cases hlink
            omega
          · exact ihl hagrees.2.1 hl hx
          · have := (hright.writes_bounds hja hr).1
            omega
      · next hP =>
          rw [if_neg hP]
          exact hw
  | @para i q m j left right _ _ hleft htype hright _ _ ihl _ =>
      obtain ⟨hsame, hl, hr⟩ := hagrees
      change x < left.firstConjunct.j at hx
      change (x, v) ∈ writes env left.firstConjunct
      rw [writes, if_pos rfl, List.nil_append, List.mem_append] at hw
      rcases hw with hwl | hwr
      · exact ihl hl hwl hx
      · have hlt := hleft.first_lt_last (isPara_of_type htype) hl
        obtain ⟨q', hfirst⟩ := hright.firstConjunct
        rw [hsame rfl, hfirst.span.1] at hlt
        have := (hright.writes_bounds hja hwr).1
        omega

/-- What is written from the start of the last part on is written by it. -/
theorem writes_lastConjunct (h : Built env i j c) (hagrees : c.Agrees) {x : Nat} {v : Int}
    (hw : (x, v) ∈ writes env c) (hx : c.lastConjunct.i ≤ x) :
    (x, v) ∈ writes env c.lastConjunct := by
  induction h with
  | leaf j => exact hw
  | @phrase i m j left right dpndType direction hleft hright hdirection _ ihr =>
      rw [Cky.lastConjunct] at hx ⊢
      split at hx
      · next hP =>
          rw [if_pos hP]
          obtain ⟨m', hm', hlast⟩ := hright.lastConjunct
          rw [hlast.span.1] at hx
          rw [writes, if_neg (by decide), List.mem_append, List.mem_append, List.mem_singleton] at hw
          rcases hw with hlink | hl | hr
          · obtain ⟨v', heq, -⟩ := hleft.link_eq hja hright hdirection
            rw [heq] at hlink
            cases hlink
            omega
          · have := (hleft.writes_bounds hja hl).2.1
            omega
          · exact ihr hagrees.2.2 hr (by rw [hlast.span.1]; exact hx)
      · next hP =>
          rw [if_neg hP]
          exact hw
  | @para i q m j left right _ _ hleft htype hright hpara hshared _ ihr =>
      obtain ⟨hsame, hl, hr⟩ := hagrees
      change right.lastConjunct.i ≤ x at hx
      change (x, v) ∈ writes env right.lastConjunct
      rw [writes, if_pos rfl, List.nil_append, List.mem_append] at hw
      rcases hw with hwl | hwr
      · have hlt := hright.first_lt_last hpara hr
        have := (hleft.writes_bounds hja hwl).2.1
        omega
      · exact ihr hr hwr hx

/-- What both phrases of a coordination write of a bunsetsu, the part they share
writes. -/
theorem writes_shared {q m : Nat} {left right : Cky} (hleft : Built env i q left)
    (hright : Built env m j right) (hsame : left.lastConjunct = right.firstConjunct)
    (hshared : right.firstConjunct.j = q) (hl : left.Agrees) (hr : right.Agrees) {x : Nat} {v : Int}
    (hm : m ≤ x) (hq : x < q) :
    (x, v) ∈ writes env left ↔ (x, v) ∈ writes env right := by
  obtain ⟨q', hfirst⟩ := hright.firstConjunct
  constructor
  · intro hw
    have hlast := hleft.writes_lastConjunct hja hl hw (by rw [hsame, hfirst.span.1]; exact hm)
    rw [hsame] at hlast
    exact writes_firstConjunct_subset right hlast
  · intro hw
    have hfst := hright.writes_firstConjunct hja hr hw (by rw [hshared]; exact hq)
    rw [← hsame] at hfst
    exact writes_lastConjunct_subset left hfst

/-- No head is written twice with different values. -/
theorem writes_unique (h : Built env i j c) (hagrees : c.Agrees) {x : Nat} {v w : Int}
    (hv : (x, v) ∈ writes env c) (hw : (x, w) ∈ writes env c) : v = w := by
  induction h with
  | leaf j => cases hv
  | @phrase i m j left right dpndType direction hleft hright hdirection ihl ihr =>
      obtain ⟨-, hl, hr⟩ := hagrees
      rw [writes, if_neg (by decide), List.mem_append, List.mem_append, List.mem_singleton] at hv hw
      obtain ⟨u, heq, -⟩ := hleft.link_eq hja hright hdirection
      rw [heq] at hv hw
      have hbl : ∀ u, (x, u) ∈ writes env left → x < m := fun u hu => (hleft.writes_bounds hja hu).2.1
      have hbr : ∀ u, (x, u) ∈ writes env right → m < x := fun u hu => (hright.writes_bounds hja hu).1
      rcases hv with hv | hv | hv <;> rcases hw with hw | hw | hw
      · cases hv
        cases hw
        rfl
      · cases hv
        exact absurd (hbl w hw) (Nat.lt_irrefl x)
      · cases hv
        exact absurd (hbr w hw) (Nat.lt_irrefl x)
      · cases hw
        exact absurd (hbl v hv) (Nat.lt_irrefl x)
      · exact ihl hl hv hw
      · exact absurd (hbl v hv) (hbr w hw).asymm
      · cases hw
        exact absurd (hbr v hv) (Nat.lt_irrefl x)
      · exact absurd (hbl w hw) (hbr v hv).asymm
      · exact ihr hr hv hw
  | @para i q m j left right _ _ hleft _ hright _ hshared ihl ihr =>
      obtain ⟨hsame, hl, hr⟩ := hagrees
      rw [writes, if_pos rfl, List.nil_append, List.mem_append] at hv hw
      have hiff : ∀ {u}, (x, u) ∈ writes env left → m ≤ x → (x, u) ∈ writes env right :=
        fun {u} hu hm => (hleft.writes_shared hja hright (hsame rfl) hshared hl hr hm
          (hleft.writes_bounds hja hu).2.1).mp hu
      rcases hv with hv | hv <;> rcases hw with hw | hw
      · exact ihl hl hv hw
      · exact ihr hr (hiff hv (hright.writes_bounds hja hw).1) hw
      · exact ihr hr hv (hiff hw (hright.writes_bounds hja hv).1)
      · exact ihr hr hv hw

/-- The links do not cross. -/
theorem writes_nested (h : Built env i j c) (hagrees : c.Agrees) {a b : Nat} {v w : Int}
    (hv : (a, v) ∈ writes env c) (hw : (b, w) ∈ writes env c) (hab : a < b) (hbv : (b : Int) < v) :
    w ≤ v := by
  induction h with
  | leaf j => cases hv
  | @phrase i m j left right dpndType direction hleft hright hdirection ihl ihr =>
      have hbound := ((Built.phrase hleft hright hdirection).writes_bounds hja hw).2.2
      obtain ⟨-, hl, hr⟩ := hagrees
      rw [writes, if_neg (by decide), List.mem_append, List.mem_append, List.mem_singleton] at hv hw
      obtain ⟨u, heq, hu⟩ := hleft.link_eq hja hright hdirection
      rw [heq] at hv hw
      rcases hv with hv | hv | hv
      · -- the link of the phrase itself goes to its end
        cases hv
        rcases hu with hopen | rfl
        · have := (hja.mukaku _ _ hopen).1
          omega
        · rcases hbound with hopen | ⟨-, hle⟩
          · have := (hja.mukaku _ _ hopen).1
            omega
          · exact hle
      · obtain ⟨-, ham, hopen | ⟨-, hvm⟩⟩ := hleft.writes_bounds hja hv
        · have := (hja.mukaku _ _ hopen).1
          omega
        · rcases hw with hw | hw | hw
          · cases hw
            omega
          · exact ihl hl hv hw
          · have := (hright.writes_bounds hja hw).1
            omega
      · have := (hright.writes_bounds hja hv).1
        rcases hw with hw | hw | hw
        · cases hw
          omega
        · have := (hleft.writes_bounds hja hw).2.1
          omega
        · exact ihr hr hv hw
  | @para i q m j left right _ _ hleft _ hright _ hshared ihl ihr =>
      obtain ⟨hsame, hl, hr⟩ := hagrees
      rw [writes, if_pos rfl, List.nil_append, List.mem_append] at hv hw
      rcases hv with hv | hv
      · obtain ⟨-, haq, hopen | ⟨-, hvq⟩⟩ := hleft.writes_bounds hja hv
        · have := (hja.mukaku _ _ hopen).1
          omega
        · rcases hw with hw | hw
          · exact ihl hl hv hw
          · have hmb := (hright.writes_bounds hja hw).1
            exact ihl hl hv ((hleft.writes_shared hja hright (hsame rfl) hshared hl hr hmb
              (by omega)).mpr hw)
      · have hma := (hright.writes_bounds hja hv).1
        rcases hw with hw | hw
        · have hbq := (hleft.writes_bounds hja hw).2.1
          exact ihr hr hv ((hleft.writes_shared hja hright (hsame rfl) hshared hl hr (by omega)
            hbq).mp hw)
        · exact ihr hr hv hw

omit hja in
/-- With `OptParaFix` no coordination is put together here. -/
theorem agrees_of_optParaFix (h : Built env i j c) (hfix : env.optParaFix = true) : c.Agrees := by
  induction h with
  | leaf j => trivial
  | phrase _ _ _ ihl ihr => exact ⟨fun h => absurd h (by decide), ihl, ihr⟩
  | para hnot => rw [hfix] at hnot; cases hnot

/-- What `convert_to_dpnd` leaves of a bunsetsu is one of the writes. -/
theorem convertToDpnd_mem (h : Built env i j c) (d : Dpnd) {x : Nat} (hlo : i ≤ x) (hhi : x < j) :
    (x, (convertToDpnd env c d).head x) ∈ writes env c := by
  rw [convertToDpnd_head]
  rcases applyWrites_mem_or (x := x) (writes env c) d.head with hmem | ⟨hnot, -⟩
  · exact hmem
  · obtain ⟨v, hv⟩ := h.writes_cover hja hlo hhi
    exact absurd hv (hnot v)

/-- Nothing outside the phrase is written. -/
theorem convertToDpnd_of_le (h : Built env i j c) (d : Dpnd) {x : Nat} (hx : j ≤ x) :
    (convertToDpnd env c d).head x = d.head x := by
  rw [convertToDpnd_head]
  rcases applyWrites_mem_or (x := x) (writes env c) d.head with hmem | ⟨-, heq⟩
  · exact absurd (h.writes_bounds hja hmem).2.1 (by omega)
  · exact heq

end Built

/-! ## The whole parse -/

/-- What is left open in a parse of the whole sentence refers to the left, the
rest goes to the right and does not cross. -/
theorem convertToDpnd_open (h : Built env 0 (env.bnstNum - 1) c) (hagrees : c.Agrees) (d : Dpnd) :
    OpenHeads.Partial env.bnstNum (convertToDpnd env c d).head where
  right := by
    intro i hi hclosed
    have hmem := h.convertToDpnd_mem hja d (Nat.zero_le i) (by omega)
    obtain ⟨-, -, hopen | ⟨hlt, hle⟩⟩ := h.writes_bounds hja hmem
    · have := (hja.mukaku _ _ hopen).1
      omega
    · exact ⟨hlt, by omega⟩
  back := by
    intro i hi hneg
    have hmem := h.convertToDpnd_mem hja d (Nat.zero_le i) (by omega)
    obtain ⟨-, -, hopen | ⟨hlt, -⟩⟩ := h.writes_bounds hja hmem
    · exact (hja.mukaku _ _ hopen).2
    · omega
  nested := by
    intro a b hb hab _ hba
    exact h.writes_nested hja hagrees (h.convertToDpnd_mem hja d (Nat.zero_le a) (by omega))
      (h.convertToDpnd_mem hja d (Nat.zero_le b) (by omega)) hab hba

omit hja in
/-- The open heads are closed from left to right, with relaxation. -/
theorem followHeads_filled {n : Nat} {d : Dpnd} (hp : OpenHeads.Partial n d.head) :
    OpenHeads.Filled true n d.head (Loop.upTo 0 (n - 1) (followHead n) d).head ∧
      (Loop.upTo 0 (n - 1) (followHead n) d).head (n - 1) = d.head (n - 1) := by
  have hrun : OpenHeads.FilledTo true n (n - 1) d.head
      (Loop.upTo 0 (n - 1) (followHead n) d).head := by
    refine Loop.upTo_induction (followHead n)
      (fun i e => OpenHeads.FilledTo true n i d.head e.head) (Nat.zero_le _) ?_
      OpenHeads.filledTo_zero
    intro i e _ hi hf
    have hsame := hf.later i le_rfl
    rw [followHead]
    split
    · refine hf.close hp (by omega) (by omega) ?_
      rw [hsame]
      split
      · exact .inr ⟨rfl, rfl⟩
      · exact .inl ⟨rfl, by omega⟩
    · exact hf.keep (by omega)
  exact ⟨hrun.filled, hrun.later _ le_rfl⟩

/-- With `OptParaFix`, after the parse every bunsetsu but the last has its head
to the right. A link that crosses one to its left is that of a bunsetsu with
係:無格従属: it goes to the sentence end, or where that of a bunsetsu before both
goes. -/
theorem afterCky_heads (hfix : env.optParaFix = true)
    (hc : c ∈ (cky env).matrix 0 (env.bnstNum - 1)) (d : Dpnd) :
    RightHeaded (afterCky env c d) env.bnstNum ∧
      ∀ a b, b + 1 < env.bnstNum → OpenHeads.Crosses (afterCky env c d).head a b →
        (env.mukaku b).isSome ∧ ((afterCky env c d).head b = (env.bnstNum : Int) - 1 ∨
          ∃ o < a, (afterCky env c d).head o = (afterCky env c d).head b) := by
  have hbuilt := cky_allBuilt env _ _ c hc
  rw [afterCky]
  generalize hd : ({ d with head := Function.update d.head c.bPtr (-1) } : Dpnd) = d'
  have hp := convertToDpnd_open hja hbuilt (hbuilt.agrees_of_optParaFix hfix) d'
  obtain ⟨hf, hlast⟩ := followHeads_filled hp
  refine ⟨⟨fun b hb => hf.right hp hb, ?_⟩, fun a b hb hcross => ?_⟩
  · rw [hlast, hbuilt.convertToDpnd_of_le hja d' (Nat.le_refl _), ← hd]
    dsimp only
    rw [hbuilt.bPtr_eq hja.right, Function.update_self]
  · obtain ⟨hopen, hwhere⟩ := hf.crossing hp hb hcross
    refine ⟨?_, hwhere.imp And.right fun ⟨o, ho, hclosed, heq⟩ => ⟨o, ho, ?_⟩⟩
    · have hmem := hbuilt.convertToDpnd_mem hja d' (Nat.zero_le b) (by omega)
      obtain ⟨-, -, hmukaku | ⟨hlt, -⟩⟩ := hbuilt.writes_bounds hja hmem
      · rw [hmukaku, Option.isSome_some]
      · omega
    · have hab := hcross.1
      rw [heq]
      exact hf.kept o (by omega) hclosed

/-- In a parse with coordination every bunsetsu but the last gets its head to
the right, or stays open. If coordinations share whole parts, no head is written
twice with different values, and the links do not cross. -/
theorem convertToDpnd_heads (hc : c ∈ (cky env).matrix 0 (env.bnstNum - 1)) (d : Dpnd) :
    (∀ i, i + 1 < env.bnstNum → env.mukaku i = some ((convertToDpnd env c d).head i) ∨
      (i : Int) < (convertToDpnd env c d).head i ∧ (convertToDpnd env c d).head i < env.bnstNum) ∧
    (c.Agrees →
      (∀ i v w, (i, v) ∈ writes env c → (i, w) ∈ writes env c → v = w) ∧
      ∀ a b, b + 1 < env.bnstNum → ¬ OpenHeads.Crosses (convertToDpnd env c d).head a b) := by
  have hbuilt := cky_allBuilt env _ _ c hc
  refine ⟨fun i hi => ?_, fun hagrees => ⟨fun i v w hv hw => hbuilt.writes_unique hja hagrees hv hw,
    fun a b hb ⟨hab, hba, hcross⟩ => ?_⟩⟩
  · have hmem := hbuilt.convertToDpnd_mem hja d (Nat.zero_le i) (by omega)
    obtain ⟨-, -, hcase⟩ := hbuilt.writes_bounds hja hmem
    exact hcase.imp_right fun ⟨hlt, hle⟩ => ⟨hlt, by omega⟩
  · have := hbuilt.writes_nested hja hagrees (hbuilt.convertToDpnd_mem hja d (Nat.zero_le a) (by omega))
      (hbuilt.convertToDpnd_mem hja d (Nat.zero_le b) (by omega)) hab hba
    omega

omit hja

/-! ## Sentences -/

/-- A sentence with the possible links (D), the numbers of 係:無格従属, and the
coordinations `(key, start, end)`; no barriers. -/
def plainSentenceEnv (bnstNum : Nat) (optParaFix : Bool) (links : List (Nat × Nat))
    (mukaku : List (Nat × Int)) (para : List (Nat × Nat × Nat)) : CkyEnv where
  bnstNum := bnstNum
  optParaFix := optParaFix
  optNbest := false
  optBeam := 0
  dpndMatrix dep gov := if (dep, gov) ∈ links then some 'D' else none
  quoteMatrix _ _ := true
  maskMatrix _ _ := 1
  paraNum b := if para.any fun p => p.1 = b then some b else none
  paraMatrix p start gov := (p, start, gov) ∈ para
  yogen _ := true
  renyo _ := false
  mukaku b := mukaku.lookup b
  barrierFp _ := false
  barrierMatch _ _ := false
  preference _ := -1
  score _ := 0

theorem plainSentenceEnv_rules {bnstNum : Nat} {optParaFix : Bool} {links : List (Nat × Nat)}
    {mukaku : List (Nat × Int)} {para : List (Nat × Nat × Nat)}
    (h : ∀ e ∈ mukaku, e.2 < 0 ∧ -(e.1 : Int) ≤ e.2) :
    JapaneseRules (plainSentenceEnv bnstNum optParaFix links mukaku para) where
  right := by
    intro dep gov
    simp only [plainSentenceEnv]
    split
    · decide
    · nofun
  mukaku := fun i v hv => h (i, v) (Chain.mem_of_lookup hv)

/-- A phrase of two parts that is no coordination. -/
def plainPhrase (left right : Cky) : Cky :=
  .node left.i right.j left right 'D' .LtoR false

/-- 大統領は 三日 到着 した: the second bunsetsu follows the first one. -/
def followEnv : CkyEnv := plainSentenceEnv 3 true [(0, 2), (1, 2)] [(1, -1)] []

def followParse : Cky := plainPhrase (.leaf 0) (plainPhrase (.leaf 1) (.leaf 2))

theorem follow_heads : (afterCky followEnv followParse ⟨fun _ => -1, fun _ => 'D'⟩).head 1 = 2 ∧
    RightHeaded (afterCky followEnv followParse ⟨fun _ => -1, fun _ => 'D'⟩) 3 :=
  ⟨by decide +kernel, (afterCky_heads (plainSentenceEnv_rules (by decide)) rfl
    (by decide +kernel : followParse ∈ (cky followEnv).matrix 0 2) _).1⟩

/-- Bunsetsu 2 follows bunsetsu 0, across bunsetsu 1. -/
def crossingEnv : CkyEnv :=
  plainSentenceEnv 5 true [(0, 4), (1, 3), (2, 3), (3, 4)] [(2, -2)] []

def crossingParse : Cky :=
  plainPhrase (.leaf 0)
    (plainPhrase (plainPhrase (.leaf 1) (plainPhrase (.leaf 2) (.leaf 3))) (.leaf 4))

theorem crossingParse_crosses : JapaneseRules crossingEnv ∧ crossingEnv.optParaFix = true ∧
    crossingParse ∈ (cky crossingEnv).matrix 0 4 ∧
    OpenHeads.Crosses (afterCky crossingEnv crossingParse ⟨fun _ => -1, fun _ => 'D'⟩).head 1 2 :=
  ⟨plainSentenceEnv_rules (by decide), rfl, by decide +kernel, by decide +kernel⟩

/-- ＡとＢとＣの Ｄ: the coordinations of 0, 1 and of 1, 2 share bunsetsu 1. -/
def tripleEnv : CkyEnv := plainSentenceEnv 4 false [(2, 3)] [] [(0, 0, 1), (1, 1, 2)]

def tripleParse : Cky :=
  plainPhrase (.node 0 2 (.node 0 1 (.leaf 0) (.leaf 1) 'P' .LtoR false)
    (.node 1 2 (.leaf 1) (.leaf 2) 'P' .LtoR false) 'P' .LtoR true) (.leaf 3)

theorem triple_heads : tripleParse.Agrees ∧
    ∀ a b, b + 1 < 4 →
      ¬ OpenHeads.Crosses (convertToDpnd tripleEnv tripleParse ⟨fun _ => -1, fun _ => 'D'⟩).head a b := by
  have hagrees : tripleParse.Agrees :=
    ⟨fun h => absurd h (by decide), ⟨fun _ => rfl, ⟨fun h => absurd h (by decide), trivial, trivial⟩,
      ⟨fun h => absurd h (by decide), trivial, trivial⟩⟩, trivial⟩
  exact ⟨hagrees, ((convertToDpnd_heads (plainSentenceEnv_rules (by decide))
    (by decide +kernel : tripleParse ∈ (cky tripleEnv).matrix 0 3) _).2 hagrees).2⟩

/-- The coordinations of 0, 4 and of 4, 5 share bunsetsu 2 to 4, but are put
together from different phrases of them. -/
def overlapEnv : CkyEnv :=
  plainSentenceEnv 6 false [(1, 3), (2, 3), (2, 4), (3, 4)] [] [(0, 0, 4), (4, 2, 5)]

def overlapParse : Cky :=
  .node 0 5
    (.node 0 4 (.leaf 0)
      (plainPhrase (plainPhrase (.leaf 1) (plainPhrase (.leaf 2) (.leaf 3))) (.leaf 4)) 'P' .LtoR false)
    (.node 2 5 (plainPhrase (.leaf 2) (plainPhrase (.leaf 3) (.leaf 4))) (.leaf 5) 'P' .LtoR false)
    'P' .LtoR true

/-- Bunsetsu 2 gets first 3, then 4 as its head; its link crosses that of 1. -/
theorem overlapParse_crosses : JapaneseRules overlapEnv ∧ overlapEnv.optParaFix = false ∧
    overlapParse ∈ (cky overlapEnv).matrix 0 5 ∧
    (2, 3) ∈ writes overlapEnv overlapParse ∧ (2, 4) ∈ writes overlapEnv overlapParse ∧
    OpenHeads.Crosses (convertToDpnd overlapEnv overlapParse ⟨fun _ => -1, fun _ => 'D'⟩).head 1 2 :=
  ⟨plainSentenceEnv_rules (by decide), rfl, by decide +kernel, by decide, by decide,
    by decide +kernel⟩

end Knp
