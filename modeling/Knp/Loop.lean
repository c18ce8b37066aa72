import Mathlib.Data.List.Range

/-!
# Counting loops

`for (i = lo; i < hi; i++)` over a state, as a fold: `upTo` runs to the end,
`upTo?` may leave the loop by failing, `down` runs from the end to the start.
Each has one invariant rule; a loop is reasoned about by what one turn preserves.
-/

namespace Loop

variable {σ : Type*} {lo hi : Nat} {s s' : σ}

def upTo (lo hi : Nat) (body : Nat → σ → σ) (s : σ) : σ :=
  (List.range' lo (hi - lo)).foldl (fun s i => body i s) s

def upTo? (lo hi : Nat) (body : Nat → σ → Option σ) (s : σ) : Option σ :=
  (List.range' lo (hi - lo)).foldlM (fun s i => body i s) s

/-- `for (i = hi - 1; i >= lo; i--)`. -/
def down (lo hi : Nat) (body : Nat → σ → σ) (s : σ) : σ :=
  (List.range' lo (hi - lo)).reverse.foldl (fun s i => body i s) s

theorem foldl_range'_induction {f : σ → Nat → σ} (P : Nat → σ → Prop) :
    ∀ (n lo : Nat) (s : σ), (∀ i s, lo ≤ i → i < lo + n → P i s → P (i + 1) (f s i)) →
      P lo s → P (lo + n) ((List.range' lo n).foldl f s)
  | 0, _, _, _, h => h
  | n + 1, lo, s, step, h => by
      rw [List.range'_succ, List.foldl_cons, ← Nat.add_assoc, Nat.add_right_comm]
      exact foldl_range'_induction P n (lo + 1) _
        (fun i s hi hn => step i s (by omega) (by omega)) (step lo s le_rfl (by omega) h)

theorem foldlM_range'_induction {f : σ → Nat → Option σ} (P : Nat → σ → Prop) :
    ∀ (n lo : Nat) (s s' : σ),
      (∀ i s s', lo ≤ i → i < lo + n → P i s → f s i = some s' → P (i + 1) s') →
      P lo s → (List.range' lo n).foldlM f s = some s' → P (lo + n) s'
  | 0, _, s, s', _, h, hs => by
      obtain rfl : s = s' := by simpa using hs
      exact h
  | n + 1, lo, s, s', step, h, hs => by
      rw [List.range'_succ, List.foldlM_cons] at hs
      obtain ⟨s₁, h₁, h₂⟩ := Option.bind_eq_some_iff.mp hs
      rw [← Nat.add_assoc, Nat.add_right_comm]
      exact foldlM_range'_induction P n (lo + 1) s₁ s'
        (fun i s s' hi hn => step i s s' (by omega) (by omega))
        (step lo s s₁ le_rfl (by omega) h h₁) h₂

theorem foldl_reverse_range'_induction {f : σ → Nat → σ} (P : Nat → σ → Prop) :
    ∀ (n lo : Nat) (s : σ), (∀ i s, lo ≤ i → i < lo + n → P (i + 1) s → P i (f s i)) →
      P (lo + n) s → P lo ((List.range' lo n).reverse.foldl f s)
  | 0, _, _, _, h => h
  | n + 1, lo, s, step, h => by
      rw [List.range'_1_concat, List.reverse_append, List.foldl_append]
      exact foldl_reverse_range'_induction P n lo _
        (fun i s hi hn => step i s hi (by omega)) (step (lo + n) s (by omega) (by omega) h)

/-- What a turn preserves, the loop preserves. -/
theorem upTo_induction (body : Nat → σ → σ) (P : Nat → σ → Prop) (hle : lo ≤ hi)
    (step : ∀ i s, lo ≤ i → i < hi → P i s → P (i + 1) (body i s)) (h : P lo s) :
    P hi (upTo lo hi body s) := by
  have := foldl_range'_induction P (hi - lo) lo s
    (fun i s hi' hn => step i s hi' (by omega)) h
  rwa [Nat.add_sub_cancel' hle] at this

/-- What a turn of a descending loop preserves, the loop preserves. -/
theorem down_induction (body : Nat → σ → σ) (P : Nat → σ → Prop) (hle : lo ≤ hi)
    (step : ∀ i s, lo ≤ i → i < hi → P (i + 1) s → P i (body i s)) (h : P hi s) :
    P lo (down lo hi body s) :=
  foldl_reverse_range'_induction P (hi - lo) lo s (fun i s hi' hn => step i s hi' (by omega))
    (by rwa [Nat.add_sub_cancel' hle])

theorem down_succ (body : Nat → σ → σ) (hle : lo ≤ hi) :
    down lo (hi + 1) body s = down lo hi body (body hi s) := by
  unfold down
  rw [Nat.succ_sub hle, List.range'_1_concat, List.reverse_append, List.foldl_append,
    Nat.add_sub_cancel' hle]
  rfl

theorem down_congr {body body' : Nat → σ → σ}
    (h : ∀ i s, lo ≤ i → i < hi → body i s = body' i s) : down lo hi body s = down lo hi body' s := by
  unfold down
  refine List.foldl_ext _ _ s fun s' i hi' => h i s' ?_ ?_
  all_goals
    have := List.mem_range'_1.mp (List.mem_reverse.mp hi')
    omega

/-- What every turn preserves, whatever the bounds. -/
theorem upTo_invariant (body : Nat → σ → σ) (P : σ → Prop) (step : ∀ i s, P s → P (body i s))
    (h : P s) : P (upTo lo hi body s) :=
  List.foldlRecOn _ _ h fun s hs i _ => step i s hs

/-- What one turn brings about and the later ones preserve holds in the end. -/
theorem upTo_established (body : Nat → σ → σ) (P : σ → Prop) {x : Nat} (hlo : lo ≤ x)
    (hhi : x < hi) (hset : ∀ s, P (body x s))
    (hkeep : ∀ i s, x < i → i < hi → P s → P (body i s)) : P (upTo lo hi body s) := by
  have hrun := upTo_induction (s := s) body (fun n s => x < n → P s) (hlo.trans hhi.le)
    (fun i s _ hi hs hx => ?_) (fun hx => absurd hx (not_lt.mpr hlo))
  · exact hrun hhi
  · rcases Nat.lt_succ_iff_lt_or_eq.mp hx with hlt | rfl
    · exact hkeep i s hlt hi (hs hlt)
    · exact hset s

/-- Each turn writes one entry, from what was there. -/
theorem upTo_update {α : Type*} (g : Nat → α → α) (n : Nat) (u : Nat → α) :
    upTo 0 n (fun i u => Function.update u i (g i (u i))) u =
      fun k => if k < n then g k (u k) else u k := by
  refine upTo_induction _ (fun n v => v = fun k => if k < n then g k (u k) else u k)
    (Nat.zero_le n) ?_ ?_
  · rintro i v - - rfl
    funext k
    by_cases hk : k = i
    · subst hk
      simp
    · rw [Function.update_of_ne hk]
      exact if_congr (by omega) rfl rfl
  · exact funext fun k => (if_neg (Nat.not_lt_zero k)).symm

/-- What a turn that does not fail preserves, a loop that does not fail preserves. -/
theorem upTo?_induction (P : Nat → σ → Prop) {body : Nat → σ → Option σ} (hle : lo ≤ hi)
    (step : ∀ i s s', lo ≤ i → i < hi → P i s → body i s = some s' → P (i + 1) s')
    (h : P lo s) (hs : upTo? lo hi body s = some s') : P hi s' := by
  have := foldlM_range'_induction P (hi - lo) lo s s'
    (fun i s s' hi' hn => step i s s' hi' (by omega)) h hs
  rwa [Nat.add_sub_cancel' hle] at this

/-- A fold that may fail, over a list: what holds of the part done so far. -/
theorem foldlM_induction {α : Type*} {f : σ → α → Option σ} (P : List α → σ → Prop) :
    ∀ (l done : List α) (s s' : σ),
      (∀ done a s s', a ∈ l → P done s → f s a = some s' → P (done ++ [a]) s') →
      P done s → l.foldlM f s = some s' → P (done ++ l) s'
  | [], done, s, s', _, h, hs => by
      obtain rfl : s = s' := by simpa using hs
      rwa [List.append_nil]
  | a :: l, done, s, s', step, h, hs => by
      rw [List.foldlM_cons] at hs
      obtain ⟨s₁, h₁, h₂⟩ := Option.bind_eq_some_iff.mp hs
      have := foldlM_induction P l (done ++ [a]) s₁ s'
        (fun done b s s' hb => step done b s s' (List.mem_cons_of_mem a hb))
        (step done a s s₁ List.mem_cons_self h h₁) h₂
      rwa [List.append_assoc] at this

/-- A fold whose steps cannot fail where they are taken does not fail. -/
theorem foldlM_total {α : Type*} {f : σ → α → Option σ} (P : List α → σ → Prop) :
    ∀ (l done : List α) (s : σ),
      (∀ done a s, a ∈ l → P done s → ∃ s', f s a = some s' ∧ P (done ++ [a]) s') →
      P done s → ∃ s', l.foldlM f s = some s' ∧ P (done ++ l) s'
  | [], done, s, _, h => ⟨s, rfl, by rwa [List.append_nil]⟩
  | a :: l, done, s, step, h => by
      obtain ⟨s₁, h₁, hP⟩ := step done a s List.mem_cons_self h
      obtain ⟨s', hs', hP'⟩ := foldlM_total P l (done ++ [a]) s₁
        (fun done b s hb => step done b s (List.mem_cons_of_mem a hb)) hP
      rw [List.append_assoc] at hP'
      refine ⟨s', ?_, hP'⟩
      rw [List.foldlM_cons, h₁]
      exact hs'

/-- A fold that succeeds does so with any step that succeeds more often. -/
theorem foldlM_mono {α : Type*} {f g : σ → α → Option σ}
    (hfg : ∀ s a s', f s a = some s' → g s a = some s') :
    ∀ {l : List α} {s s' : σ}, l.foldlM f s = some s' → l.foldlM g s = some s'
  | [], _, _, h => h
  | a :: l, s, s', h => by
      rw [List.foldlM_cons] at h ⊢
      obtain ⟨s₁, h₁, h₂⟩ := Option.bind_eq_some_iff.mp h
      exact Option.bind_eq_some_iff.mpr ⟨s₁, hfg s a s₁ h₁, foldlM_mono hfg h₂⟩

theorem foldlM_range'_total {f : σ → Nat → Option σ} (P : Nat → σ → Prop) :
    ∀ (n lo : Nat) (s : σ),
      (∀ i s, lo ≤ i → i < lo + n → P i s → ∃ s', f s i = some s' ∧ P (i + 1) s') →
      P lo s → ∃ s', (List.range' lo n).foldlM f s = some s' ∧ P (lo + n) s'
  | 0, _, s, _, h => ⟨s, rfl, h⟩
  | n + 1, lo, s, step, h => by
      obtain ⟨s₁, h₁, hP⟩ := step lo s le_rfl (by omega) h
      obtain ⟨s', hs', hP'⟩ := foldlM_range'_total P n (lo + 1) s₁
        (fun i s hi hn => step i s (by omega) (by omega)) hP
      rw [Nat.add_right_comm, Nat.add_assoc] at hP'
      refine ⟨s', ?_, hP'⟩
      rw [List.range'_succ, List.foldlM_cons, h₁]
      exact hs'

/-- A loop whose turns cannot fail where they are taken does not fail. -/
theorem upTo?_total (body : Nat → σ → Option σ) (P : Nat → σ → Prop) (hle : lo ≤ hi)
    (step : ∀ i s, lo ≤ i → i < hi → P i s → ∃ s', body i s = some s' ∧ P (i + 1) s')
    (h : P lo s) : ∃ s', upTo? lo hi body s = some s' ∧ P hi s' := by
  have := foldlM_range'_total P (hi - lo) lo s
    (fun i s hi' hn => step i s hi' (by omega)) h
  rwa [Nat.add_sub_cancel' hle] at this

/-! ## Histories -/

/-- What holds at every element of a list, at its first and at every later one. -/
theorem forall_split_cons {α : Type*} {P : α → List α → Prop} {a : α} {l : List α} :
    (∀ pre x post, a :: l = pre ++ x :: post → P x post) ↔
      P a l ∧ ∀ pre x post, l = pre ++ x :: post → P x post := by
  constructor
  · intro h
    refine ⟨h [] a l rfl, fun pre x post heq => h (a :: pre) x post ?_⟩
    rw [heq]
    rfl
  · rintro ⟨ha, hl⟩ pre x post heq
    cases pre with
    | nil =>
        obtain ⟨rfl, rfl⟩ := List.cons.inj heq
        exact ha
    | cons b pre => exact hl pre x post (List.cons.inj heq).2

/-! ## Maps that may fail -/

section Map

variable {α β : Type*} {f : α → Option β}

theorem mapM_eq_some_map {g : α → β} : ∀ {l : List α}, (∀ a ∈ l, f a = some (g a)) →
    l.mapM f = some (l.map g)
  | [], _ => rfl
  | a :: l, h => by
      rw [List.mapM_cons, h a List.mem_cons_self,
        mapM_eq_some_map fun b hb => h b (List.mem_cons_of_mem a hb)]
      rfl

theorem isSome_of_mapM : ∀ {l : List α} {l' : List β}, l.mapM f = some l' →
    ∀ a ∈ l, (f a).isSome
  | a :: l, l', h, b, hb => by
      rw [List.mapM_cons] at h
      obtain ⟨x, hx, hrest⟩ := Option.bind_eq_some_iff.mp h
      obtain ⟨xs, hxs, -⟩ := Option.bind_eq_some_iff.mp hrest
      rcases List.mem_cons.mp hb with rfl | hb
      · rw [hx]
        rfl
      · exact isSome_of_mapM hxs b hb

end Map

end Loop
