import Mathlib.Algebra.Order.Group.Defs
import Mathlib.Order.Bounds.Defs
import Mathlib.Tactic.Common

/-!
# The first of the best paths

Paths through the columns `j` to `stop` of a grid: the sum of a path is what its
steps gain and what its last cell starts with. A table that was filled from the
last column on, with a pointer to the next row in each cell, has the greatest
sums; where several next rows are as good, the pointer prefers one of them.

> The pointers lead along the best path that comes first, when paths are compared
> by the row that is preferred where they part.
-/

namespace FirstBest

variable {L K : Type*} {ok : L → Prop} {next : Nat → L → L → Prop} {stop : Nat}

/-- A path from column `j` on. -/
inductive IsPath (ok : L → Prop) (next : Nat → L → L → Prop) (stop : Nat) : Nat → List L → Prop
  | last {r : L} : ok r → IsPath ok next stop stop [r]
  | step {j : Nat} {r r' : L} {l : List L} : j < stop → ok r → next j r r' →
      IsPath ok next stop (j + 1) (r' :: l) → IsPath ok next stop j (r :: r' :: l)

/-- The path `P` comes before `Q`: where they part, its row is preferred. -/
inductive Before (prefers : L → L → L → Prop) : List L → List L → Prop
  | head {r a b : L} {l l' : List L} : prefers r a b → Before prefers (r :: a :: l) (r :: b :: l')
  | tail {r a : L} {l l' : List L} : Before prefers (a :: l) (a :: l') →
      Before prefers (r :: a :: l) (r :: a :: l')

theorem IsPath.ok_head {j : Nat} {r : L} {l : List L} (h : IsPath ok next stop j (r :: l)) :
    ok r := by
  cases h <;> assumption

variable {prefers : L → L → L → Prop}

theorem Before.asymm (hp : ∀ r a b, prefers r a b → ¬ prefers r b a) {P Q : List L}
    (h : Before prefers P Q) : ¬ Before prefers Q P := by
  induction h with
  | head hab =>
      intro h
      cases h with
      | head hba => exact hp _ _ _ hab hba
      | tail => exact hp _ _ _ hab hab
  | tail _ ih =>
      intro h
      cases h with
      | head haa => exact hp _ _ _ haa haa
      | tail h => exact ih h

variable [AddCommGroup K]

def pathSum (start : L → K) (gain : Nat → L → L → K) : Nat → List L → K
  | _, [] => 0
  | _, [r] => start r
  | j, r :: r' :: l => gain j r r' + pathSum start gain (j + 1) (r' :: l)

variable [LinearOrder K] [IsOrderedAddMonoid K] {start : L → K} {gain : Nat → L → L → K}

/-- No path from the same cell has a greater sum, and none with the same sum
comes before it. -/
structure First (ok : L → Prop) (next : Nat → L → L → Prop) (prefers : L → L → L → Prop)
    (start : L → K) (gain : Nat → L → L → K) (stop j : Nat) (P : List L) : Prop where
  path : IsPath ok next stop j P
  best : ∀ Q, IsPath ok next stop j Q → Q.head? = P.head? →
    pathSum start gain j Q < pathSum start gain j P ∨
      pathSum start gain j Q = pathSum start gain j P ∧ (Q = P ∨ Before prefers P Q)

omit [IsOrderedAddMonoid K] in
theorem First.unique (hp : ∀ r a b, prefers r a b → ¬ prefers r b a) {j : Nat} {P Q : List L}
    (hP : First ok next prefers start gain stop j P)
    (hQ : First ok next prefers start gain stop j Q) (hhead : Q.head? = P.head?) : Q = P := by
  rcases hP.best Q hQ.path hhead with hlt | ⟨-, heq | hPQ⟩
  · rcases hQ.best P hP.path hhead.symm with hlt' | ⟨heq, -⟩
    · exact absurd hlt' hlt.not_gt
    · exact absurd heq hlt.ne'
  · exact heq
  · rcases hQ.best P hP.path hhead.symm with hlt' | ⟨-, heq | hQP⟩
    · rcases hP.best Q hQ.path hhead with hlt | ⟨heq, -⟩
      · exact absurd hlt' hlt.not_gt
      · exact absurd heq hlt'.ne'
    · exact heq.symm
    · exact absurd hQP (hPQ.asymm hp)

/-- A table of greatest sums from column `lo` on, with pointers to the next rows. -/
structure Table (ok : L → Prop) (next : Nat → L → L → Prop) (prefers : L → L → L → Prop)
    (start : L → K) (gain : Nat → L → L → K) (lo stop : Nat) (score : L → Nat → K)
    (back : L → Nat → L) : Prop where
  last : ∀ r, ok r → score r stop = start r
  attained : ∀ j, lo ≤ j → j < stop → ∀ r, ok r → ok (back r j) ∧ next j r (back r j) ∧
    score r j = gain j r (back r j) + score (back r j) (j + 1)
  upper : ∀ j, lo ≤ j → j < stop → ∀ r r', ok r → ok r' → next j r r' →
    gain j r r' + score r' (j + 1) < score r j ∨
      gain j r r' + score r' (j + 1) = score r j ∧ (r' = back r j ∨ prefers r (back r j) r')

/-- The path that the pointers lead along, over `n` steps. -/
def follow (back : L → Nat → L) : Nat → Nat → L → List L
  | 0, _, r => [r]
  | n + 1, j, r => r :: follow back n (j + 1) (back r j)

theorem follow_eq_cons (back : L → Nat → L) (n j : Nat) (r : L) :
    ∃ l, follow back n j r = r :: l := by
  cases n <;> exact ⟨_, rfl⟩

theorem length_follow (back : L → Nat → L) : ∀ (n j : Nat) (r : L),
    (follow back n j r).length = n + 1
  | 0, _, _ => rfl
  | n + 1, j, r => by simp [follow, length_follow back n]

variable {lo : Nat} {score : L → Nat → K} {back : L → Nat → L}

omit [IsOrderedAddMonoid K] in
theorem Table.isPath_follow (h : Table ok next prefers start gain lo stop score back) :
    ∀ (n j : Nat) (r : L), lo ≤ j → j + n = stop → ok r →
      IsPath ok next stop j (follow back n j r) ∧
        pathSum start gain j (follow back n j r) = score r j
  | 0, j, r, _, hn, hr => by
      obtain rfl : j = stop := hn
      exact ⟨.last hr, (h.last r hr).symm⟩
  | n + 1, j, r, hj, hn, hr => by
      obtain ⟨hok, hnext, hscore⟩ := h.attained j hj (by omega) r hr
      obtain ⟨hpath, hsum⟩ := h.isPath_follow n (j + 1) (back r j) (by omega) (by omega) hok
      obtain ⟨l, hl⟩ := follow_eq_cons back n (j + 1) (back r j)
      rw [hl] at hpath hsum
      rw [follow, hl]
      exact ⟨.step (by omega) hr hnext hpath, by rw [pathSum, hsum, hscore]⟩

/-- No path does better than the entry of its first cell, and one that does as
well is led along or comes behind. -/
theorem Table.pathSum_le (h : Table ok next prefers start gain lo stop score back) :
    ∀ (n j : Nat) (r : L) (l : List L), lo ≤ j → j + n = stop →
      IsPath ok next stop j (r :: l) →
        pathSum start gain j (r :: l) < score r j ∨ pathSum start gain j (r :: l) = score r j ∧
          (r :: l = follow back n j r ∨ Before prefers (follow back n j r) (r :: l))
  | 0, j, r, l, _, hn, hpath => by
      cases hpath with
      | last hr => exact .inr ⟨(h.last r hr).symm, .inl rfl⟩
      | step hlt => omega
  | n + 1, j, r, l, hj, hn, hpath => by
      cases hpath with
      | last => omega
      | @step _ _ r' l hlt hr hnext hpath =>
          have htail := h.pathSum_le n (j + 1) r' l (by omega) (by omega) hpath
          have hstep := h.upper j hj hlt r r' hr hpath.ok_head hnext
          rw [pathSum]
          rcases htail with hless | ⟨heq, hbehind⟩
          · refine .inl (lt_of_lt_of_le (add_lt_add_right hless _) ?_)
            exact hstep.elim le_of_lt fun hs => hs.1.le
          rw [heq]
          refine hstep.imp_right fun ⟨hs, hwhich⟩ => ⟨hs, ?_⟩
          rcases hwhich with rfl | hpref
          · rw [follow]
            obtain ⟨m, hm⟩ := follow_eq_cons back n (j + 1) (back r j)
            rcases hbehind with hsame | hbefore
            · exact .inl (by rw [hsame])
            · rw [hm] at hbefore ⊢
              exact .inr (.tail hbefore)
          · obtain ⟨m, hm⟩ := follow_eq_cons back n (j + 1) (back r j)
            rw [follow, hm]
            exact .inr (.head hpref)

/-- **The pointers lead along the first of the best paths.** -/
theorem Table.first_follow (h : Table ok next prefers start gain lo stop score back)
    {n j : Nat} {r : L} (hj : lo ≤ j) (hn : j + n = stop) (hr : ok r) :
    First ok next prefers start gain stop j (follow back n j r) where
  path := (h.isPath_follow n j r hj hn hr).1
  best := by
    intro Q hQ hhead
    obtain ⟨l, hl⟩ := follow_eq_cons back n j r
    cases Q with
    | nil => simp [hl] at hhead
    | cons q Q =>
        obtain rfl : q = r := by simpa [hl] using hhead
        rw [(h.isPath_follow n j q hj hn hr).2]
        exact h.pathSum_le n j q Q hj hn hQ

/-- An entry is the greatest sum of the paths from its cell. -/
theorem Table.isGreatest (h : Table ok next prefers start gain lo stop score back)
    {j : Nat} {r : L} (hj : lo ≤ j) (hstop : j ≤ stop) (hr : ok r) :
    IsGreatest {x | ∃ l, IsPath ok next stop j (r :: l) ∧ pathSum start gain j (r :: l) = x}
      (score r j) := by
  obtain ⟨n, hn⟩ := Nat.exists_eq_add_of_le hstop
  constructor
  · obtain ⟨hpath, hsum⟩ := h.isPath_follow n j r hj hn.symm hr
    obtain ⟨l, hl⟩ := follow_eq_cons back n j r
    rw [hl] at hpath hsum
    exact ⟨l, hpath, hsum⟩
  · rintro x ⟨l, hpath, rfl⟩
    rcases h.pathSum_le n j r l hj hn.symm hpath with hlt | ⟨heq, -⟩
    · exact hlt.le
    · exact heq.le

end FirstBest
