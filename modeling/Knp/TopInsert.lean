import Mathlib

/-!
# The first places of a ranking

Elements come one after the other. Each is put behind those that are kept and goes
forward past the ones that it overtakes; then the last place is given up if there
are too many.

> What is kept are the first elements of the ranking, in its order.

Two rankings have the same first places just if they order each pair the same way,
up to the pairs that have enough elements in front of them.
-/

namespace TopInsert

variable {α : Type*}

/-! ## The array -/

section Array

variable (overtakes : α → α → Bool)

/-- The element at `j` goes forward past those that it overtakes. -/
def forward : Nat → (Nat → α) → (Nat → α)
  | 0, a => a
  | j + 1, a =>
      if overtakes (a j) (a (j + 1)) then
        forward j (Function.update (Function.update a j (a (j + 1))) (j + 1) (a j))
      else a

/-- One element; the place behind those that are kept is overwritten. -/
def add (limit : Nat) (s : Nat × (Nat → α)) (x : α) : Nat × (Nat → α) :=
  (if s.1 < limit then s.1 + 1 else s.1, forward overtakes s.1 (Function.update s.2 s.1 x))

/-- The elements up to `k` move back by one place. -/
def shiftBack : Nat → (Nat → α) → (Nat → α)
  | 0, a => Function.update a 1 (a 0)
  | k + 1, a => shiftBack k (Function.update a (k + 2) (a (k + 1)))

/-- One element at the front; of too many the last one is given up. -/
def push (limit : Nat) (s : Nat × (Nat → α)) (x : α) : Nat × (Nat → α) :=
  (if s.1 < limit then s.1 + 1 else s.1,
    Function.update (shiftBack (if limit ≤ s.1 then s.1 - 1 else s.1) s.2) 0 x)

def fill (limit : Nat) (a : Nat → α) (l : List α) : Nat × (Nat → α) :=
  l.foldl (add overtakes limit) (0, a)

end Array

/-- What is kept. -/
def kept (s : Nat × (Nat → α)) : List α := (List.range s.1).map s.2

@[simp] theorem length_kept (s : Nat × (Nat → α)) : (kept s).length = s.1 := by
  rw [kept, List.length_map, List.length_range]

/-- `r` are the first `limit` elements of `l`. -/
structure IsTop (above : α → α → Prop) (limit : Nat) (l r : List α) : Prop where
  length_eq : r.length = min l.length limit
  sorted : r.Pairwise above
  outside : ∃ rest, (r ++ rest).Perm l ∧ ∀ a ∈ r, ∀ b ∈ rest, above a b

/-- `y` is there before `x` comes. -/
structure Decides (overtakes : α → α → Bool) (above : α → α → Prop) (y x : α) : Prop where
  pass : overtakes y x = true → above x y
  stay : overtakes y x = false → above y x

/-! ## Going forward -/

section Forward

variable {overtakes : α → α → Bool} {a : Nat → α} {i j n limit : Nat} {l : List α} {x : α}

theorem forward_of_lt (hi : j < i) : forward overtakes j a i = a i := by
  induction j generalizing a with
  | zero => rfl
  | succ j ih =>
      rw [forward]
      split
      · rw [ih (by omega), Function.update_of_ne (by omega), Function.update_of_ne (by omega)]
      · rfl

theorem map_range_update (hi : n ≤ i) :
    (List.range n).map (Function.update a i x) = (List.range n).map a := by
  refine List.map_congr_left ?_
  intro k hk
  have hlt := List.mem_range.mp hk
  exact Function.update_of_ne (by omega) _ _

/-- The place that it takes. -/
theorem forward_spec (overtakes : α → α → Bool) (n : Nat) (a : Nat → α) :
    ∃ front back, (List.range n).map a = front ++ back ∧
      (List.range (n + 1)).map (forward overtakes n a) = front ++ a n :: back ∧
      (∀ y ∈ front.getLast?, overtakes y (a n) = false) ∧
      ∀ y ∈ back, overtakes y (a n) = true := by
  induction n generalizing a with
  | zero =>
      refine ⟨[], [], rfl, rfl, ?_, ?_⟩
      · intro y hy
        cases hy
      · intro y hy
        cases hy
  | succ n ih =>
      rw [forward]
      cases hpass : overtakes (a n) (a (n + 1)) with
      | false =>
          rw [if_neg Bool.false_ne_true]
          refine ⟨(List.range (n + 1)).map a, [], (List.append_nil _).symm, ?_, ?_, ?_⟩
          · rw [List.range_succ, List.map_append, List.map_singleton]
          · intro y hy
            rw [List.range_succ, List.map_append, List.map_singleton,
              List.getLast?_append, List.getLast?_singleton] at hy
            obtain rfl := Option.mem_some_iff.mp hy
            exact hpass
          · intro y hy
            cases hy
      | true =>
          rw [if_pos rfl]
          have hbefore : (List.range n).map
              (Function.update (Function.update a n (a (n + 1))) (n + 1) (a n)) =
              (List.range n).map a := by
            rw [map_range_update (Nat.le_succ n), map_range_update (Nat.le_refl n)]
          have hat : Function.update (Function.update a n (a (n + 1))) (n + 1) (a n) n =
              a (n + 1) := by
            rw [Function.update_of_ne (Nat.ne_of_lt (Nat.lt_succ_self n)), Function.update_self]
          obtain ⟨front, back, hsplit, hresult, hfront, hback⟩ :=
            ih (Function.update (Function.update a n (a (n + 1))) (n + 1) (a n))
          rw [hbefore] at hsplit
          rw [hat] at hresult hfront hback
          refine ⟨front, back ++ [a n], ?_, ?_, hfront, ?_⟩
          · rw [List.range_succ, List.map_append, List.map_singleton, hsplit, List.append_assoc]
          · rw [List.range_succ, List.map_append, List.map_singleton, hresult,
              forward_of_lt (Nat.lt_succ_self n), Function.update_self, List.append_assoc,
              List.cons_append]
          · intro y hy
            rcases List.mem_append.mp hy with hy | hy
            · exact hback y hy
            · rw [List.mem_singleton.mp hy]
              exact hpass

theorem fill_append (a : Nat → α) :
    fill overtakes limit a (l ++ [x]) = add overtakes limit (fill overtakes limit a l) x := by
  rw [fill, List.foldl_append]
  rfl

theorem fill_fst_le (a : Nat → α) : (fill overtakes limit a l).1 ≤ limit := by
  induction l using List.reverseRecOn with
  | nil => exact Nat.zero_le limit
  | append_singleton l x ih =>
      rw [fill_append, add]
      dsimp only
      split
      · assumption
      · exact ih

/-- Just one place more than `limit` is used. -/
theorem fill_of_lt (hi : limit < i) : (fill overtakes limit a l).2 i = a i := by
  induction l using List.reverseRecOn with
  | nil => rfl
  | append_singleton l x ih =>
      have hle : (fill overtakes limit a l).1 ≤ limit := fill_fst_le a
      rw [fill_append, add]
      dsimp only
      rw [forward_of_lt (by omega), Function.update_of_ne (by omega)]
      exact ih

end Forward

/-! ## In at the front -/

section Push

variable {a : Nat → α} {i k n limit : Nat} {x : α}

theorem shiftBack_of_lt (hi : k + 1 < i) : shiftBack k a i = a i := by
  induction k generalizing a with
  | zero => exact Function.update_of_ne (by omega) _ _
  | succ k ih =>
      rw [shiftBack, ih (by omega), Function.update_of_ne (by omega)]

theorem shiftBack_of_le (hi : i ≤ k) : shiftBack k a (i + 1) = a i := by
  induction k generalizing a with
  | zero =>
      obtain rfl : i = 0 := by omega
      exact Function.update_self ..
  | succ k ih =>
      rw [shiftBack]
      rcases Nat.lt_or_ge k i with hlt | hle
      · obtain rfl : i = k + 1 := by omega
        rw [shiftBack_of_lt (Nat.lt_succ_self _), Function.update_self]
      · rw [ih hle, Function.update_of_ne (by omega)]

theorem kept_push (hn : n ≤ limit) :
    kept (push limit (n, a) x) = (x :: kept (n, a)).take limit := by
  have hnum : (if n < limit then n + 1 else n) = min limit (n + 1) := by
    split <;> omega
  have hcells : (List.range (n + 1)).map
      (Function.update (shiftBack (if limit ≤ n then n - 1 else n) a) 0 x) = x :: kept (n, a) := by
    rw [List.range_succ_eq_map, List.map_cons, List.map_map, Function.update_self, kept]
    refine congrArg _ (List.map_congr_left fun i hi => ?_)
    have hlt := List.mem_range.mp hi
    rw [Function.comp_apply, Function.update_of_ne (Nat.succ_ne_zero i)]
    exact shiftBack_of_le (by split <;> omega)
  rw [← hcells, kept, push, ← List.map_take, List.take_range, ← hnum]

end Push

/-! ## The ranking -/

section Ranking

variable {above above' : α → α → Prop} [IsStrictOrder α above] [IsStrictOrder α above']
  {l l₁ l₂ r s : List α} {x a b : α} {limit : Nat}

theorem IsTop.nil (above : α → α → Prop) (limit : Nat) : IsTop above limit [] [] := by
  refine ⟨(Nat.zero_min limit).symm, List.Pairwise.nil, [], List.Perm.refl _, ?_⟩
  intro a ha
  cases ha

omit [IsStrictOrder α above] in
/-- If anything has been left out, all places are taken. -/
theorem IsTop.length_of_rest {rest : List α} (h : IsTop above limit l r)
    (hperm : (r ++ rest).Perm l) (hb : b ∈ rest) : r.length = limit := by
  have hlen := hperm.length_eq
  have hpos := List.length_pos_of_mem hb
  have heq := h.length_eq
  rw [List.length_append] at hlen
  omega

/-- One more element, at its place. -/
theorem IsTop.insert (h : IsTop above limit l (l₁ ++ l₂)) (hfront : ∀ y ∈ l₁, above y x)
    (hback : ∀ y ∈ l₂, above x y) :
    IsTop above limit (l ++ [x]) ((l₁ ++ x :: l₂).take limit) := by
  obtain ⟨rest, hperm, houtside⟩ := h.outside
  obtain ⟨hsorted₁, hsorted₂, hcross⟩ := List.pairwise_append.mp h.sorted
  have hsorted : (l₁ ++ x :: l₂).Pairwise above := by
    refine List.pairwise_append.mpr ⟨hsorted₁, List.pairwise_cons.mpr ⟨hback, hsorted₂⟩, ?_⟩
    intro y hy z hz
    rcases List.mem_cons.mp hz with rfl | hz
    · exact hfront y hy
    · exact hcross y hy z hz
  have hparts := List.take_append_drop limit (l₁ ++ x :: l₂)
  have hcut := List.pairwise_append.mp (hparts ▸ hsorted)
  have hmem : ∀ y ∈ l₁ ++ x :: l₂, y ≠ x → y ∈ l₁ ++ l₂ := by
    intro y hy hne
    rcases List.mem_append.mp hy with hy | hy
    · exact List.mem_append_left _ hy
    · rcases List.mem_cons.mp hy with heq | hy
      · exact absurd heq hne
      · exact List.mem_append_right _ hy
  have hlen := h.length_eq
  refine ⟨?_, hcut.1, (l₁ ++ x :: l₂).drop limit ++ rest, ?_, ?_⟩
  · rw [List.length_append] at hlen
    rw [List.length_take, List.length_append, List.length_append, List.length_cons,
      List.length_singleton]
    omega
  · have hmiddle : (l₁ ++ x :: l₂ ++ rest).Perm (l₁ ++ l₂ ++ rest ++ [x]) := by
      rw [List.append_assoc, List.cons_append]
      refine List.perm_middle.trans ?_
      rw [← List.append_assoc]
      exact (List.perm_append_singleton _ _).symm
    rw [← List.append_assoc, hparts]
    exact hmiddle.trans (hperm.append_right [x])
  · intro y hy b hb
    rcases List.mem_append.mp hb with hb | hb
    · exact hcut.2.2 y hy b hb
    · by_cases hyx : y = x
      · -- the places are all taken, so `x` stands in front of one that gives its place up
        have hfull := h.length_of_rest hperm hb
        have hdrop : (l₁ ++ x :: l₂).drop limit ≠ [] := by
          intro hnil
          have hle := List.drop_eq_nil_iff.mp hnil
          rw [List.length_append, List.length_cons] at hle
          rw [List.length_append] at hfull
          omega
        obtain ⟨z, hz⟩ := List.exists_mem_of_ne_nil _ hdrop
        have hxz : above x z := hyx ▸ hcut.2.2 y hy z hz
        have hzx : z ≠ x := by
          rintro rfl
          exact irrefl z hxz
        rw [hyx]
        exact IsTrans.trans _ _ _ hxz (houtside z (hmem z (List.mem_of_mem_drop hz) hzx) b hb)
      · exact houtside y (hmem y (List.mem_of_mem_take hy) hyx) b hb

theorem IsTop.nodup (h : IsTop above limit l r) : r.Nodup := by
  refine h.sorted.imp ?_
  rintro a _ hab rfl
  exact irrefl a hab

/-- There is just one list of the first elements. -/
theorem IsTop.eq (h : IsTop above limit l r) (h' : IsTop above limit l s) : r = s := by
  have hlen : r.length = s.length := h.length_eq.trans h'.length_eq.symm
  have hperm : r.Perm s := by
    by_contra hnot
    obtain ⟨rest, hrest, houtside⟩ := h.outside
    obtain ⟨rest', hrest', houtside'⟩ := h'.outside
    have hmissing : ∃ a ∈ r, a ∉ s := by
      by_contra hall
      push Not at hall
      exact hnot ((h.nodup.subperm hall).perm_of_length_le (Nat.le_of_eq hlen.symm))
    have hmissing' : ∃ b ∈ s, b ∉ r := by
      by_contra hall
      push Not at hall
      exact hnot ((h'.nodup.subperm hall).perm_of_length_le (Nat.le_of_eq hlen)).symm
    obtain ⟨a, ha, has⟩ := hmissing
    obtain ⟨b, hb, hbr⟩ := hmissing'
    have ha' : a ∈ rest' := by
      have hmem := hrest'.mem_iff.mpr (hrest.mem_iff.mp (List.mem_append_left _ ha))
      exact (List.mem_append.mp hmem).resolve_left has
    have hb' : b ∈ rest := by
      have hmem := hrest.mem_iff.mpr (hrest'.mem_iff.mp (List.mem_append_left _ hb))
      exact (List.mem_append.mp hmem).resolve_left hbr
    exact asymm (houtside a ha b hb') (houtside' b hb a ha')
  refine hperm.eq_of_pairwise ?_ h.sorted h'.sorted
  intro a b _ _ hab hba
  exact absurd hba (asymm hab)

omit [IsStrictOrder α above'] in
/-- What is above the last element is above them all. -/
theorem above_of_getLast? (hsorted : l.Pairwise above) (hlast : ∀ y ∈ l.getLast?, above y x) :
    ∀ y ∈ l, above y x := by
  rcases List.eq_nil_or_concat' l with rfl | ⟨init, last, rfl⟩
  · intro y hy
    cases hy
  · have hx : above last x := hlast last List.getLast?_concat
    intro y hy
    rcases List.mem_append.mp hy with hy | hy
    · exact IsTrans.trans _ _ _
        ((List.pairwise_append.mp hsorted).2.2 y hy last (List.mem_singleton_self last)) hx
    · rw [List.mem_singleton.mp hy]
      exact hx

theorem kept_add {overtakes : α → α → Bool} {n : Nat} {c : Nat → α} (hn : n ≤ limit) :
    kept (add overtakes limit (n, c) x) =
      ((List.range (n + 1)).map (forward overtakes n (Function.update c n x))).take limit := by
  have hnum : (if n < limit then n + 1 else n) = min limit (n + 1) := by
    split <;> omega
  rw [kept, add, ← List.map_take, List.take_range, ← hnum]

omit [IsStrictOrder α above'] in
/-- What the array holds at the end. -/
theorem fill_top {overtakes : α → α → Bool} (c : Nat → α)
    (hl : l.Pairwise (Decides overtakes above)) :
    IsTop above limit l (kept (fill overtakes limit c l)) := by
  induction l using List.reverseRecOn with
  | nil => exact IsTop.nil above limit
  | append_singleton l x ih =>
      obtain ⟨hinit, _, hlast⟩ := List.pairwise_append.mp hl
      have htop := ih hinit
      have hle : (fill overtakes limit c l).1 ≤ limit := fill_fst_le c
      rw [fill_append]
      generalize fill overtakes limit c l = s at htop hle
      obtain ⟨front, back, hsplit, hresult, hfront, hback⟩ :=
        forward_spec overtakes s.1 (Function.update s.2 s.1 x)
      rw [map_range_update (Nat.le_refl s.1)] at hsplit
      rw [Function.update_self] at hresult hfront hback
      have hkept : kept s = front ++ back := hsplit
      rw [hkept] at htop
      have hdecides : ∀ y ∈ front ++ back, Decides overtakes above y x := by
        obtain ⟨rest, hperm, _⟩ := htop.outside
        intro y hy
        exact hlast y (hperm.mem_iff.mp (List.mem_append_left _ hy)) x (List.mem_singleton_self x)
      have hgetLast : ∀ y ∈ front.getLast?, above y x := by
        intro y hy
        exact (hdecides y (List.mem_append_left _ (List.mem_of_getLast? hy))).stay (hfront y hy)
      have habove := above_of_getLast? (List.pairwise_append.mp htop.sorted).1 hgetLast
      have hbelow : ∀ y ∈ back, above x y := by
        intro y hy
        exact (hdecides y (List.mem_append_right _ hy)).pass (hback y hy)
      have hinsert := htop.insert habove hbelow
      rw [← hresult, ← kept_add hle] at hinsert
      exact hinsert

omit [IsStrictOrder α above'] in
/-- One of the first elements has too few above it. -/
theorem IsTop.countP_lt [DecidableRel above] (hs : IsTop above limit l s) (ha : a ∈ s) :
    l.countP (fun c => above c a) < limit := by
  obtain ⟨rest, hperm, houtside⟩ := hs.outside
  have hrest : rest.countP (fun c => above c a) = 0 := by
    rw [List.countP_eq_zero]
    intro c hc hca
    exact asymm (of_decide_eq_true hca) (houtside a ha c hc)
  have hself : s.countP (fun c => above c a) < s.length := by
    refine Nat.lt_of_le_of_ne List.countP_le_length ?_
    intro hall
    exact irrefl a (of_decide_eq_true (List.countP_eq_length.mp hall a ha))
  have hlen := hs.length_eq
  rw [← hperm.countP_eq, List.countP_append, hrest]
  omega

omit [IsStrictOrder α above'] in
/-- Two elements of a list that is sorted both ways stand the same way. -/
theorem agree_of_sorted (h : r.Pairwise above) (h' : r.Pairwise above') (ha : a ∈ r) (hb : b ∈ r)
    (hab : above a b) : above' a b := by
  have hboth : r.Pairwise fun x y => (above x y → above' x y) ∧ (above y x → above' y x) := by
    refine (List.pairwise_and_iff.mpr ⟨h, h'⟩).imp ?_
    rintro x y ⟨hxy, hxy'⟩
    exact ⟨fun _ => hxy', fun hyx => absurd hyx (asymm hxy)⟩
  refine (List.Pairwise.forall_of_forall_of_flip ?_ hboth ?_ ha hb).1 hab
  · intro x _
    exact ⟨fun hxx => absurd hxx (irrefl x), fun hxx => absurd hxx (irrefl x)⟩
  · refine hboth.imp ?_
    intro x y hxy
    exact ⟨hxy.2, hxy.1⟩

/-- The first places of one ranking are those of another just if the two agree on each pair,
where not enough elements are above it. -/
theorem IsTop.iff_agree [DecidableRel above] (hs : IsTop above limit l s)
    (htotal : ∀ a ∈ l, ∀ b ∈ l, above a b → above' a b ∨ above' b a)
    (h : IsTop above' limit l r) :
    IsTop above limit l r ↔
      ∀ a ∈ l, ∀ b ∈ l, above a b → above' b a → limit ≤ l.countP fun c => above c a := by
  constructor
  · intro hr a ha b hb hab hba
    obtain ⟨rest, hperm, houtside⟩ := hr.outside
    obtain ⟨rest', hperm', houtside'⟩ := h.outside
    have hside : ∀ c ∈ l, c ∈ r ∨ c ∈ rest := by
      intro c hc
      exact List.mem_append.mp (hperm.mem_iff.mpr hc)
    have har : a ∉ r := by
      intro har
      by_cases hbr : b ∈ r
      · exact asymm hba (agree_of_sorted hr.sorted h.sorted har hbr hab)
      · have hb' : b ∈ rest' :=
          (List.mem_append.mp (hperm'.mem_iff.mpr hb)).resolve_left hbr
        exact asymm hba (houtside' a har b hb')
    have harest := (hside a ha).resolve_left har
    have hfull := hr.length_of_rest hperm harest
    rw [← hperm.countP_eq, List.countP_append, ← hfull]
    have hall : r.countP (fun c => above c a) = r.length := by
      rw [List.countP_eq_length]
      intro c hc
      exact decide_eq_true (houtside c hc a harest)
    omega
  · intro hagree
    obtain ⟨rest, hperm, houtside⟩ := hs.outside
    have hmem : ∀ a ∈ s, a ∈ l := by
      intro a ha
      exact hperm.mem_iff.mp (List.mem_append_left _ ha)
    have hboth : ∀ a ∈ s, ∀ b ∈ l, above a b → above' a b := by
      intro a ha b hb hab
      refine (htotal a (hmem a ha) b hb hab).resolve_right ?_
      intro hba
      exact Nat.not_lt.mpr (hagree a (hmem a ha) b hb hab hba) (hs.countP_lt ha)
    have hs' : IsTop above' limit l s := by
      refine ⟨hs.length_eq, ?_, rest, hperm, ?_⟩
      · refine hs.sorted.imp_of_mem ?_
        intro a b ha hb hab
        exact hboth a ha b (hmem b hb) hab
      · intro a ha b hb
        exact hboth a ha b (hperm.mem_iff.mp (List.mem_append_right _ hb)) (houtside a ha b hb)
    rw [h.eq hs']
    exact hs

end Ranking

/-! ## Ties -/

section Ties

variable {p : α → α → Prop} {pos : α → Nat} {a b c : α}

/-- `p` prefers one element to another; where it does not, they are as good. -/
structure StrictWeak (p : α → α → Prop) : Prop where
  asymm : ∀ a b, p a b → ¬ p b a
  split : ∀ a b c, p a c → p a b ∨ p b c

/-- A score comes first, and where it is the same something else. -/
theorem StrictWeak.lex {S : Type*} [LinearOrder S] (score : α → S) {t : α → α → Prop}
    (hasymm : ∀ a b, t a b → ¬ t b a)
    (hsplit : ∀ a b c, score a = score b → score b = score c → t a c → t a b ∨ t b c) :
    StrictWeak fun a b => score b < score a ∨ score a = score b ∧ t a b where
  asymm := by
    rintro a b (hlt | ⟨heq, hab⟩) (hlt' | ⟨heq', hba⟩)
    · exact lt_asymm hlt hlt'
    · exact absurd heq' (ne_of_lt hlt)
    · exact absurd heq (ne_of_lt hlt')
    · exact hasymm a b hab hba
  split := by
    rintro a b c (hlt | ⟨heq, hac⟩)
    · rcases lt_trichotomy (score b) (score a) with hba | hba | hab
      · exact .inl (.inl hba)
      · exact .inr (.inl (hba ▸ hlt))
      · exact .inr (.inl (lt_trans hlt hab))
    · rcases lt_trichotomy (score b) (score a) with hba | hba | hab
      · exact .inl (.inl hba)
      · rcases hsplit a b c hba.symm (hba.trans heq) hac with hab' | hbc
        · exact .inl (.inr ⟨hba.symm, hab'⟩)
        · exact .inr (.inr ⟨hba.trans heq, hbc⟩)
      · exact .inr (.inl (heq ▸ hab))

/-- What is preferred is above, and of two that are as good the earlier one. -/
def Ranks (p : α → α → Prop) (pos : α → Nat) (a b : α) : Prop :=
  p a b ∨ ¬ p b a ∧ pos a < pos b

instance [DecidableRel p] : DecidableRel (Ranks p pos) := fun _ _ =>
  inferInstanceAs (Decidable (_ ∨ _))

theorem StrictWeak.isStrictOrder (h : StrictWeak p) : IsStrictOrder α (Ranks p pos) where
  irrefl := by
    rintro a (haa | haa)
    · exact h.asymm a a haa haa
    · exact Nat.lt_irrefl _ haa.2
  trans := by
    rintro a b c (hab | ⟨hba, hlt⟩) (hbc | ⟨hcb, hlt'⟩)
    · exact .inl ((h.split a c b hab).resolve_right (h.asymm b c hbc))
    · exact .inl ((h.split a c b hab).resolve_right hcb)
    · exact .inl ((h.split b a c hbc).resolve_left hba)
    · refine .inr ⟨?_, Nat.lt_trans hlt hlt'⟩
      intro hca
      rcases h.split c b a hca with hcb' | hba'
      · exact hcb hcb'
      · exact hba hba'

theorem Ranks.total (hne : pos a ≠ pos b) : Ranks p pos a b ∨ Ranks p pos b a := by
  by_cases hab : p a b
  · exact .inl (.inl hab)
  · by_cases hba : p b a
    · exact .inr (.inl hba)
    · rcases Nat.lt_or_gt_of_ne hne with hlt | hgt
      · exact .inl (.inr ⟨hba, hlt⟩)
      · exact .inr (.inr ⟨hab, hgt⟩)

/-- The test whether an element overtakes an earlier one. -/
theorem decides_of_lt {overtakes : α → α → Bool} (hp : ∀ y x, overtakes y x = true ↔ p x y)
    (hlt : pos b < pos a) :
    Decides overtakes (Ranks p pos) b a := by
  constructor
  · intro hpass
    exact .inl ((hp b a).mp hpass)
  · intro hstay
    refine .inr ⟨?_, hlt⟩
    intro hab
    rw [(hp b a).mpr hab] at hstay
    cases hstay

end Ties

end TopInsert
