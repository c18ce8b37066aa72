import Knp.Walks
import Mathlib.Data.List.Nodup

/-!
# Children that are handed over

A node of a tree may be a group. The group hands some of its children over to
others of them, its takers: each taker gets all of them behind its own children.
A taker that is a group hands them on.

> From the root on, each group comes before its takers. At the end a child that
> is handed over stands once at each taker below its group that is no group
> itself, and nowhere else; all other children have kept their places.
-/

open Walks

/-- Which children stay, which ones are handed over, and to whom. -/
structure HandOver (α : Type*) where
  group : α → Bool
  keep : α → List α
  gives : α → List α
  takers : α → List α
  takers_keep : ∀ p c, c ∈ takers p → c ∈ keep p
  of_takers : ∀ p c, c ∈ takers p → group p
  of_gives : ∀ p c, c ∈ gives p → group p

namespace HandOver

variable {α : Type*} (P : HandOver α)

/-- The children, when `held` stands behind the ones that stay. -/
def kids (held : α → List α) (p : α) : List α := P.keep p ++ held p

/-- From a group to its takers. -/
def Down : α → α → Prop := Relation.ReflTransGen fun q c => c ∈ P.takers q

/-- Group `q` hands over what it holds. -/
def handOver [DecidableEq α] (q : α) (held : α → List α) : α → List α := fun p =>
  if p = q then [] else if p ∈ P.takers q then held p ++ held q else held p

/-- All groups from `p` on, each before its children. -/
def expand [DecidableEq α] : Nat → α → (α → List α) → α → List α
  | 0, _, held => held
  | fuel + 1, p, held =>
      let held := if P.group p then P.handOver p held else held
      (P.kids held p).foldl (fun held c => expand fuel c held) held

/-- The children form a tree, a group has a taker, and `rank` falls on the way
down, also from the takers to what they may get. -/
structure Ranked (root : α) (rank : α → Nat) : Prop where
  tree : IsTree (P.kids P.gives) root
  takers_ne_nil : ∀ q, P.group q → P.takers q ≠ []
  rank_keep : ∀ p c, Reach (P.kids P.gives) root p → c ∈ P.keep p → rank c < rank p
  rank_gives : ∀ q p x, Reach (P.kids P.gives) root q → P.Down q p → x ∈ P.gives q →
    rank x < rank p

/-- What holds of `held` at all times. -/
structure Inv (root : α) (held : α → List α) : Prop where
  source : ∀ p x, x ∈ held p → ∃ q, P.Down q p ∧ x ∈ P.gives q
  nodup : ∀ p, (held p).Nodup
  apart : ∀ q p x, Reach (P.kids P.gives) root q →
    Relation.TransGen (fun q c => c ∈ P.takers q) q p → x ∈ held q → x ∉ held p
  cut : ∀ q x p, Reach (P.kids P.gives) root q → x ∈ P.gives q → P.Down q p → ¬ P.group p →
    ∃ r, P.Down q r ∧ P.Down r p ∧ x ∈ held r

variable {P} {root : α} {rank : α → Nat} {held held' : α → List α} {p q c x : α}

theorem taker_reach (hq : Reach (P.kids P.gives) root q) (hc : c ∈ P.takers q) :
    Reach (P.kids P.gives) root c :=
  hq.tail (List.mem_append_left _ (P.takers_keep q c hc))

theorem down_reach (htree : IsTree (P.kids P.gives) root) (hqp : P.Down q p)
    (hp : Reach (P.kids P.gives) root p) : Reach (P.kids P.gives) root q := by
  induction hqp with
  | refl => exact hp
  | tail _ hc ih =>
      exact ih (htree.reach_parent hp (List.mem_append_left _ (P.takers_keep _ _ hc)))

theorem reach_of_down (hqp : P.Down q p) : Reach (P.kids P.gives) q p := by
  induction hqp with
  | refl => exact .refl
  | tail _ hc ih => exact taker_reach ih hc

namespace Ranked

variable (h : P.Ranked root rank)

include h

theorem taker_ne (hq : Reach (P.kids P.gives) root q) (hc : c ∈ P.takers q) : c ≠ q := by
  rintro rfl
  exact lt_irrefl _ (h.rank_keep c c hq (P.takers_keep c c hc))

/-- A taker has one group. -/
theorem taker_once (hp : c ∈ P.takers p) (hq : c ∈ P.takers q) : p = q :=
  h.tree.once p q c (List.mem_append_left _ (P.takers_keep p c hp))
    (List.mem_append_left _ (P.takers_keep q c hq))

/-- The groups above a taker are its group and the ones above that. -/
theorem down_of_taker (hc : c ∈ P.takers q)
    (hpc : Relation.TransGen (fun q c => c ∈ P.takers q) p c) : P.Down p q := by
  obtain ⟨r, hpr, hrc⟩ := Relation.TransGen.tail'_iff.mp hpc
  rwa [h.taker_once hc hrc]

theorem not_taker_below (hq : Reach (P.kids P.gives) root q) (hc : c ∈ P.takers q) :
    ¬ P.Down c q := by
  have hfall : ∀ p, P.Down c p → rank p ≤ rank c := fun p hcp => by
    induction hcp with
    | refl => exact le_rfl
    | @tail r s hcr hs ih =>
        have hr : Reach (P.kids P.gives) root r := by
          clear ih hs
          induction hcr with
          | refl => exact taker_reach hq hc
          | tail _ hs ih => exact taker_reach ih hs
        exact (h.rank_keep r s hr (P.takers_keep r s hs)).le.trans ih
  intro hcq
  have hlow := h.rank_keep q c hq (P.takers_keep q c hc)
  exact absurd (hfall q hcq) (Nat.not_le_of_lt hlow)

/-- What the lists hold has been handed down from a node of the tree. -/
theorem kids_reach (hinv : P.Inv root held) (hp : Reach (P.kids P.gives) root p)
    (hc : c ∈ P.kids held p) : Reach (P.kids P.gives) root c := by
  rcases List.mem_append.mp hc with hkeep | hheld
  · exact hp.tail (List.mem_append_left _ hkeep)
  · obtain ⟨q, hqp, hcq⟩ := hinv.source p c hheld
    exact (down_reach h.tree hqp hp).tail (List.mem_append_right _ hcq)

theorem kids_rank (hinv : P.Inv root held) (hp : Reach (P.kids P.gives) root p)
    (hc : c ∈ P.kids held p) : rank c < rank p := by
  rcases List.mem_append.mp hc with hkeep | hheld
  · exact h.rank_keep p c hp hkeep
  · obtain ⟨q, hqp, hcq⟩ := hinv.source p c hheld
    exact h.rank_gives q p c (down_reach h.tree hqp hp) hqp hcq

theorem inv_start : P.Inv root P.gives where
  source p x hx := ⟨p, .refl, hx⟩
  nodup p := (List.nodup_append'.mp (h.tree.nodup p)).2.1
  apart q p x hq hqp hx hx' := by
    obtain rfl := h.tree.once q p x (List.mem_append_right _ hx) (List.mem_append_right _ hx')
    obtain ⟨c, hc, hcq⟩ := Relation.TransGen.head'_iff.mp hqp
    exact h.not_taker_below hq hc hcq
  cut q x p _ hx hqp _ := ⟨q, .refl, hqp, hx⟩

end Ranked

/-! ## The order of the nodes -/

section Order

variable {a b : α} {w w' : List Nat}

/-- `a` is a child of `b`, or may become one. -/
def Comes (P : HandOver α) (root a b : α) : Prop :=
  Reach (P.kids P.gives) root b ∧ (a ∈ P.keep b ∨ ∃ q, P.Down q b ∧ a ∈ P.gives q)

theorem Comes.reach (htree : IsTree (P.kids P.gives) root) (h : P.Comes root a b) :
    Reach (P.kids P.gives) root a := by
  obtain ⟨hb, hkeep | ⟨q, hqb, hgives⟩⟩ := h
  · exact hb.tail (List.mem_append_left _ hkeep)
  · exact (down_reach htree hqb hb).tail (List.mem_append_right _ hgives)

/-- What is handed over stands behind the takers, so its walk comes later. -/
theorem Comes.walk_lt (htree : IsTree (P.kids P.gives) root) (h : P.Comes root a b)
    (hb : follow (P.kids P.gives) root w = some b)
    (ha : follow (P.kids P.gives) root w' = some a) : w < w' := by
  have hchild : ∀ p u j, follow (P.kids P.gives) root u = some p →
      (P.kids P.gives p)[j]? = some a → w' = u ++ [j] := fun p u j hp hj =>
    htree.follow_inj ha (follow_snoc_eq_some.mpr ⟨p, hp, hj⟩)
  obtain ⟨hreach, hkeep | ⟨q, hqb, hgives⟩⟩ := h
  · obtain ⟨j, hj⟩ := List.mem_iff_getElem?.mp (List.mem_append_left (P.gives b) hkeep)
    rw [hchild b w j hb hj]
    exact lt_snoc w j
  · obtain ⟨j, hj⟩ := List.mem_iff_getElem?.mp hgives
    have hplace : (P.kids P.gives q)[(P.keep q).length + j]? = some a := by
      unfold kids
      rwa [List.getElem?_append_right (Nat.le_add_right _ _), Nat.add_sub_cancel_left]
    obtain ⟨u, hu⟩ := reach_iff_follow.mp (down_reach htree hqb hreach)
    rw [hchild q u _ hu hplace]
    rcases Relation.ReflTransGen.cases_head hqb with rfl | ⟨c, hc, hcb⟩
    · rw [htree.follow_inj hb hu]
      exact lt_snoc u _
    · obtain ⟨i, hi⟩ := List.mem_iff_getElem?.mp (P.takers_keep q c hc)
      have hlt := (List.getElem?_eq_some_iff.mp hi).1
      obtain ⟨v, hv⟩ := reach_iff_follow.mp (reach_of_down hcb)
      have hwalk : follow (P.kids P.gives) root (u ++ [i] ++ v) = some b := by
        rw [follow_append, follow_snoc, hu, Option.bind_some, kids, List.getElem?_append_left hlt, hi]
        exact hv
      rw [htree.follow_inj hb hwalk, List.append_assoc]
      exact below_lt u v (Nat.lt_of_lt_of_le hlt (Nat.le_add_right _ _))

/-- No node comes below itself. -/
theorem comes_acyclic (htree : IsTree (P.kids P.gives) root) (a : α) :
    ¬ Relation.TransGen (P.Comes root) a a := by
  have hwalks : ∀ b, Relation.TransGen (P.Comes root) a b → ∀ w w',
      follow (P.kids P.gives) root w = some b → follow (P.kids P.gives) root w' = some a →
        w < w' := fun b hab => by
    induction hab with
    | single hstep => exact fun w w' hw hw' => hstep.walk_lt htree hw hw'
    | tail _ hstep ih =>
        intro w w' hw hw'
        obtain ⟨u, hu⟩ := reach_iff_follow.mp (hstep.reach htree)
        exact (hstep.walk_lt htree hw hu).trans (ih u w' hu hw')
  intro haa
  obtain ⟨b, hab, -⟩ := Relation.TransGen.head'_iff.mp haa
  obtain ⟨w, hw⟩ := reach_iff_follow.mp (hab.reach htree)
  exact lt_irrefl w (hwalks a haa w w hw hw)

end Order

/-! ## One group -/

section Step

variable [DecidableEq α]

theorem handOver_self : P.handOver q held q = [] := if_pos rfl

theorem handOver_taker (hne : p ≠ q) (h : p ∈ P.takers q) :
    P.handOver q held p = held p ++ held q := (if_neg hne).trans (if_pos h)

theorem handOver_other (hne : p ≠ q) (h : p ∉ P.takers q) : P.handOver q held p = held p :=
  (if_neg hne).trans (if_neg h)

theorem mem_handOver (h : x ∈ P.handOver q held p) :
    p ≠ q ∧ (x ∈ held p ∨ p ∈ P.takers q ∧ x ∈ held q) := by
  unfold handOver at h
  split_ifs at h with hpq htaker
  · cases h
  · exact ⟨hpq, (List.mem_append.mp h).imp_right fun hx => ⟨htaker, hx⟩⟩
  · exact ⟨hpq, Or.inl h⟩

theorem subset_handOver (hne : p ≠ q) (h : x ∈ held p) : x ∈ P.handOver q held p := by
  by_cases htaker : p ∈ P.takers q
  · rw [handOver_taker hne htaker]
    exact List.mem_append_left _ h
  · rwa [handOver_other hne htaker]

theorem Ranked.inv_handOver (h : P.Ranked root rank) (hinv : P.Inv root held)
    (hq : Reach (P.kids P.gives) root q) (hgroup : P.group q) : P.Inv root (P.handOver q held) where
  source p x hx := by
    obtain ⟨-, hx | ⟨htaker, hx⟩⟩ := mem_handOver hx
    · exact hinv.source p x hx
    · obtain ⟨r, hrq, hxr⟩ := hinv.source q x hx
      exact ⟨r, hrq.tail htaker, hxr⟩
  nodup p := by
    by_cases hpq : p = q
    · rw [hpq, handOver_self]
      exact List.nodup_nil
    by_cases htaker : p ∈ P.takers q
    · rw [handOver_taker hpq htaker]
      refine List.nodup_append'.mpr ⟨hinv.nodup p, hinv.nodup q, fun x hx hx' => ?_⟩
      exact hinv.apart q p x hq (.single htaker) hx' hx
    · rw [handOver_other hpq htaker]
      exact hinv.nodup p
  apart r p x hr hrp hx hx' := by
    obtain ⟨hrq, hx⟩ := mem_handOver hx
    obtain ⟨-, hx'⟩ := mem_handOver hx'
    rcases hx with hx | ⟨hrtaker, hx⟩ <;> rcases hx' with hx' | ⟨hptaker, hx'⟩
    · exact hinv.apart r p x hr hrp hx hx'
    · -- `r` lies above `q`, which has held `x` until now
      rcases Relation.reflTransGen_iff_eq_or_transGen.mp (h.down_of_taker hptaker hrp) with heq | hrq'
      · exact hrq heq.symm
      · exact hinv.apart r q x hr hrq' hx hx'
    · exact hinv.apart q p x hq (.head hrtaker hrp) hx hx'
    · exact h.not_taker_below hq hrtaker (h.down_of_taker hptaker hrp)
  cut r x p hr hx hrp hp := by
    obtain ⟨s, hrs, hsp, hxs⟩ := hinv.cut r x p hr hx hrp hp
    by_cases hsq : s = q
    · subst hsq
      rcases Relation.ReflTransGen.cases_head hsp with rfl | ⟨c, hc, hcp⟩
      · exact absurd hgroup hp
      · refine ⟨c, hrs.tail hc, hcp, ?_⟩
        rw [handOver_taker (h.taker_ne hq hc) hc]
        exact List.mem_append_right _ hxs
    · exact ⟨s, hrs, hsp, subset_handOver hsq hxs⟩

/-! ## All groups -/

/-- A group of rank below `k` hands over. -/
def HandsOver (P : HandOver α) (root : α) (rank : α → Nat) (k : Nat)
    (held held' : α → List α) : Prop :=
  ∃ q, Reach (P.kids P.gives) root q ∧ P.group q ∧ rank q < k ∧ held' = P.handOver q held

/-- One group after the other. -/
abbrev Steps (P : HandOver α) (root : α) (rank : α → Nat) (k : Nat) :
    (α → List α) → (α → List α) → Prop := Relation.ReflTransGen (P.HandsOver root rank k)

theorem Steps.mono {k k' : Nat} (hk : k ≤ k') (h : P.Steps root rank k held held') :
    P.Steps root rank k' held held' := by
  induction h with
  | refl => exact .refl
  | tail _ hstep ih =>
      obtain ⟨q, hq, hgroup, hrank, heq⟩ := hstep
      exact ih.tail ⟨q, hq, hgroup, lt_of_lt_of_le hrank hk, heq⟩

theorem Steps.inv {k : Nat} (h : P.Ranked root rank) (hsteps : P.Steps root rank k held held')
    (hinv : P.Inv root held) : P.Inv root held' := by
  induction hsteps with
  | refl => exact hinv
  | tail _ hstep ih =>
      obtain ⟨q, hq, hgroup, -, rfl⟩ := hstep
      exact h.inv_handOver ih hq hgroup

/-- Nodes of a higher rank keep what they hold. -/
theorem Steps.frame {k : Nat} (h : P.Ranked root rank) (hsteps : P.Steps root rank k held held')
    (hp : k ≤ rank p) : held' p = held p := by
  induction hsteps with
  | refl => rfl
  | tail _ hstep ih =>
      obtain ⟨q, hq, -, hrank, rfl⟩ := hstep
      rw [← ih]
      refine handOver_other (fun hpq => ?_) fun htaker => ?_
      · rw [hpq] at hp
        omega
      · have := h.rank_keep q p hq (P.takers_keep q p htaker)
        omega

/-- A loop over nodes of a rank below `k`. -/
theorem foldl_steps {k : Nat} (h : P.Ranked root rank) {body : (α → List α) → α → α → List α} :
    ∀ {l : List α} {held : α → List α},
      (∀ c ∈ l, ∀ held, P.Inv root held → P.Steps root rank k held (body held c)) →
      P.Inv root held → P.Steps root rank k held (l.foldl body held)
  | [], _, _, _ => .refl
  | c :: l, held, hbody, hinv => by
      have hfirst := hbody c List.mem_cons_self held hinv
      exact hfirst.trans (foldl_steps h (fun c hc => hbody c (List.mem_cons_of_mem _ hc))
        (hfirst.inv h hinv))

theorem visit_steps (rank : α → Nat) (held : α → List α) (hp : Reach (P.kids P.gives) root p) :
    P.Steps root rank (rank p + 1) held (if P.group p then P.handOver p held else held) := by
  split_ifs with hgroup
  · exact .single ⟨p, hp, hgroup, Nat.lt_succ_self _, rfl⟩
  · exact .refl

theorem expand_steps (h : P.Ranked root rank) : ∀ (fuel : Nat) {p : α} {held : α → List α},
    rank p < fuel → Reach (P.kids P.gives) root p → P.Inv root held →
      P.Steps root rank (rank p + 1) held (P.expand fuel p held)
  | 0, _, _, hfuel, _, _ => absurd hfuel (Nat.not_lt_zero _)
  | fuel + 1, p, held, hfuel, hp, hinv => by
      have hvisit := visit_steps rank held hp
      have hinv' := hvisit.inv h hinv
      refine hvisit.trans (foldl_steps h (fun c hc held hinv => ?_) hinv')
      have hrank := h.kids_rank hinv' hp hc
      exact (expand_steps h fuel (by omega) (h.kids_reach hinv' hp hc) hinv).mono (by omega)

/-! ## Nothing is left at a group -/

/-- From `p` on, no group holds anything. -/
def Clear (P : HandOver α) (held : α → List α) (p : α) : Prop :=
  ∀ x, Reach (P.kids held) p x → P.group x → held x = []

/-- What lies below a child of `p` is not touched by the groups of lower rank, if
it has been cleared. -/
theorem Clear.handOver (h : P.Ranked root rank) (hinv : P.Inv root held)
    (hclear : P.Clear held c) (hc : c ∈ P.kids held p) (hq : Reach (P.kids P.gives) root q)
    (hgroup : P.group q) (hrank : rank q < rank p) : P.Clear (P.handOver q held) c := by
  by_cases hbelow : Reach (P.kids held) c q
  · have hsame : P.handOver q held = held := by
      funext y
      have hempty := hclear q hbelow hgroup
      by_cases hyq : y = q
      · rw [hyq, handOver_self, hempty]
      by_cases htaker : y ∈ P.takers q
      · rw [handOver_taker hyq htaker, hempty, List.append_nil]
      · exact handOver_other hyq htaker
    rwa [hsame]
  · -- a taker of `q` is a child of `q` alone
    have hparent : ∀ y r, y ∈ P.takers q → y ∈ P.kids held r → r = q := by
      intro y r hy hyr
      have hkeep := P.takers_keep q y hy
      rcases List.mem_append.mp hyr with hstay | hheld
      · exact h.tree.once r q y (List.mem_append_left _ hstay) (List.mem_append_left _ hkeep)
      · obtain ⟨s, -, hys⟩ := hinv.source r y hheld
        obtain rfl := h.tree.once s q y (List.mem_append_right _ hys) (List.mem_append_left _ hkeep)
        exact absurd hys ((List.nodup_append'.mp (h.tree.nodup s)).2.2 hkeep)
    have hsame : ∀ y, Reach (P.kids held) c y → P.handOver q held y = held y := by
      intro y hy
      refine handOver_other (fun hyq => hbelow (hyq ▸ hy)) fun htaker => ?_
      rcases Relation.ReflTransGen.cases_tail hy with rfl | ⟨r, hr, hyr⟩
      · rw [hparent y p htaker hc] at hrank
        exact lt_irrefl _ hrank
      · rw [hparent y r htaker hyr] at hr
        exact hbelow hr
    have hreach : ∀ y, Reach (P.kids (P.handOver q held)) c y → Reach (P.kids held) c y := by
      intro y hy
      induction hy with
      | refl => exact .refl
      | @tail r y _ hy ih =>
          refine ih.tail ?_
          unfold kids at hy ⊢
          rwa [hsame r ih] at hy
    exact fun x hx hxgroup => (hsame x (hreach x hx)).trans (hclear x (hreach x hx) hxgroup)

theorem Clear.steps (h : P.Ranked root rank) (hinv : P.Inv root held) (hclear : P.Clear held c)
    (hc : c ∈ P.kids held p) (hsteps : P.Steps root rank (rank p) held held') :
    P.Clear held' c := by
  induction hsteps with
  | refl => exact hclear
  | @tail held₁ _ hfirst hstep ih =>
      obtain ⟨q, hq, hgroup, hrank, rfl⟩ := hstep
      have hc₁ : c ∈ P.kids held₁ p := by
        unfold kids at hc ⊢
        rwa [Steps.frame h hfirst le_rfl]
      exact ih.handOver h (Steps.inv h hfirst hinv) hc₁ hq hgroup hrank

/-- Each child of `p` is cleared by its own turn, and stays so. -/
theorem foldl_clear (h : P.Ranked root rank) (hinv : P.Inv root held)
    {body : (α → List α) → α → α → List α}
    (hsteps : ∀ c ∈ P.kids held p, ∀ held, P.Inv root held →
      P.Steps root rank (rank p) held (body held c))
    (hclear : ∀ c ∈ P.kids held p, ∀ held, P.Inv root held → P.Clear (body held c) c) :
    ∀ (l done : List α) (held₁ : α → List α), P.Steps root rank (rank p) held held₁ →
      (∀ c ∈ done ++ l, c ∈ P.kids held p) → (∀ c ∈ done, P.Clear held₁ c) →
      ∀ c ∈ done ++ l, P.Clear (l.foldl body held₁) c
  | [], done, held₁, _, _, hdone, c, hc => hdone c (by rwa [List.append_nil] at hc)
  | a :: l, done, held₁, hbefore, hl, hdone, c, hc => by
      have ha : a ∈ P.kids held p := hl a (List.mem_append_right _ List.mem_cons_self)
      have hinv₁ := Steps.inv h hbefore hinv
      have hturn := hsteps a ha held₁ hinv₁
      have hlist : P.kids held₁ p = P.kids held p := by
        unfold kids
        rw [Steps.frame h hbefore le_rfl]
      rw [List.append_cons] at hl hc
      refine foldl_clear h hinv hsteps hclear l (done ++ [a]) (body held₁ a) (hbefore.trans hturn)
        hl (fun b hb => ?_) c hc
      rcases List.mem_append.mp hb with hbdone | hba
      · exact (hdone b hbdone).steps h hinv₁ (hlist ▸ hl b (List.mem_append_left _ hb)) hturn
      · obtain rfl := List.mem_singleton.mp hba
        exact hclear b ha held₁ hinv₁

theorem expand_clear (h : P.Ranked root rank) : ∀ (fuel : Nat) {p : α} {held : α → List α},
    rank p < fuel → Reach (P.kids P.gives) root p → P.Inv root held →
      P.Clear (P.expand fuel p held) p
  | 0, _, _, hfuel, _, _ => absurd hfuel (Nat.not_lt_zero _)
  | fuel + 1, p, held, hfuel, hp, hinv => by
      rw [expand]
      have hinv₁ := (visit_steps rank held hp).inv h hinv
      have hown : P.group p → (if P.group p then P.handOver p held else held) p = [] := fun hg => by
        rw [if_pos hg, handOver_self]
      revert hinv₁ hown
      generalize (if P.group p then P.handOver p held else held) = held₁
      intro hinv₁ hown
      have hsteps : ∀ c ∈ P.kids held₁ p, ∀ held, P.Inv root held →
          P.Steps root rank (rank p) held (P.expand fuel c held) := fun c hc held hinv => by
        have hrank := h.kids_rank hinv₁ hp hc
        exact (expand_steps h fuel (by omega) (h.kids_reach hinv₁ hp hc) hinv).mono (by omega)
      have hclear : ∀ c ∈ P.kids held₁ p, ∀ held, P.Inv root held →
          P.Clear (P.expand fuel c held) c := fun c hc held hinv => by
        have hrank := h.kids_rank hinv₁ hp hc
        exact expand_clear h fuel (by omega) (h.kids_reach hinv₁ hp hc) hinv
      have hall := foldl_clear h hinv₁ hsteps hclear (P.kids held₁ p) [] held₁ .refl
        (fun c hc => hc) (fun c hc => absurd hc List.not_mem_nil)
      have hframe := Steps.frame h (foldl_steps h hsteps hinv₁) (le_refl (rank p))
      intro x hx hxgroup
      rcases Relation.ReflTransGen.cases_head hx with rfl | ⟨c, hc, hcx⟩
      · exact hframe.trans (hown hxgroup)
      · refine hall c ?_ x hcx hxgroup
        rw [kids, hframe] at hc
        exact hc

end Step

/-! ## The result -/

section Result

/-- Each node keeps its first children; behind them it holds once what the groups
above have for it, and a group holds nothing. -/
structure Settled (P : HandOver α) (root : α) (held : α → List α) : Prop where
  nodup : ∀ p, (held p).Nodup
  mem_held : ∀ p x, Reach (P.kids P.gives) root p →
    (x ∈ held p ↔ ¬ P.group p ∧ ∃ q, P.Down q p ∧ x ∈ P.gives q)

/-- A group has a taker below it that is no group. -/
theorem Ranked.exists_taker (h : P.Ranked root rank) (hq : Reach (P.kids P.gives) root q) :
    ∃ p, P.Down q p ∧ ¬ P.group p := by
  induction hrank : rank q using Nat.strong_induction_on generalizing q with
  | _ n ih =>
      by_cases hgroup : P.group q
      · obtain ⟨c, hc⟩ := List.exists_mem_of_ne_nil _ (h.takers_ne_nil q hgroup)
        have hlow := h.rank_keep q c hq (P.takers_keep q c hc)
        obtain ⟨p, hcp, hp⟩ := ih (rank c) (hrank ▸ hlow) (taker_reach hq hc) rfl
        exact ⟨p, .head hc hcp, hp⟩
      · exact ⟨q, .refl, hgroup⟩

/-- From a node that is no group, nothing is handed on. -/
theorem down_of_not_group (hpq : P.Down p q) (hp : ¬ P.group p) : q = p := by
  rcases Relation.ReflTransGen.cases_head hpq with rfl | ⟨c, hc, -⟩
  · rfl
  · exact absurd (P.of_takers p c hc) hp

/-- All that the tree reaches is still reached. -/
theorem Ranked.reach_held (h : P.Ranked root rank) (hinv : P.Inv root held) :
    Reach (P.kids held) root x ↔ Reach (P.kids P.gives) root x := by
  constructor
  · intro hx
    induction hx with
    | refl => exact .refl
    | tail _ hc ih => exact h.kids_reach hinv ih hc
  · intro hx
    have hdown : ∀ p q, P.Down p q → Reach (P.kids held) p q := fun p q hpq => by
      induction hpq with
      | refl => exact .refl
      | tail _ hc ih => exact ih.tail (List.mem_append_left _ (P.takers_keep _ _ hc))
    induction hx with
    | refl => exact .refl
    | @tail p x hp hc ih =>
        rcases List.mem_append.mp hc with hkeep | hgives
        · exact ih.tail (List.mem_append_left _ hkeep)
        · obtain ⟨r, hpr, hr⟩ := h.exists_taker hp
          obtain ⟨s, hps, -, hxs⟩ := hinv.cut p x r hp hgives hpr hr
          exact (ih.trans (hdown p s hps)).tail (List.mem_append_right _ hxs)

theorem expand_settled [DecidableEq α] (h : P.Ranked root rank) {fuel : Nat} (hfuel : rank root < fuel) :
    P.Settled root (P.expand fuel root P.gives) := by
  have hinv := (expand_steps h fuel hfuel .refl h.inv_start).inv h h.inv_start
  have hclear := expand_clear h fuel hfuel .refl h.inv_start
  refine ⟨hinv.nodup, fun p x hp => ⟨fun hx => ⟨fun hgroup => ?_, hinv.source p x hx⟩, ?_⟩⟩
  · rw [hclear p ((h.reach_held hinv).mpr hp) hgroup] at hx
    cases hx
  · rintro ⟨hgroup, q, hqp, hx⟩
    obtain ⟨r, hqr, hrp, hxr⟩ := hinv.cut q x p (down_reach h.tree hqp hp) hx hqp hgroup
    have hr := down_reach h.tree hrp hp
    by_cases hrgroup : P.group r
    · rw [hclear r ((h.reach_held hinv).mpr hr) hrgroup] at hxr
      cases hxr
    · rwa [down_of_not_group hrp hrgroup]

/-! Nodes that are not handed over keep their places. -/

theorem Inv.getElem?_kids (hinv : P.Inv root held) (hx : ∀ q, x ∉ P.gives q) (i : Nat) :
    (P.kids held p)[i]? = some x ↔ (P.kids P.gives p)[i]? = some x := by
  have hkeep : ∀ tail : List α, x ∉ tail →
      ((P.keep p ++ tail)[i]? = some x ↔ (P.keep p)[i]? = some x) := fun tail htail => by
    rw [List.getElem?_append]
    split_ifs with hi
    · rfl
    · rw [List.getElem?_eq_none (Nat.le_of_not_lt hi)]
      exact ⟨fun hmem => absurd (List.mem_of_getElem? hmem) htail, fun hnone => nomatch hnone⟩
  have hheld : x ∉ held p := fun hmem => by
    obtain ⟨q, -, hq⟩ := hinv.source p x hmem
    exact hx q hq
  exact (hkeep (held p) hheld).trans (hkeep (P.gives p) (hx p)).symm

/-- A walk that meets no node that is handed over is still the only one. -/
theorem Inv.walk_unique (h : P.Ranked root rank) (hinv : P.Inv root held) {w : List Nat}
    (hw : follow (P.kids P.gives) root w = some x)
    (hstay : ∀ u v y, w = u ++ v → follow (P.kids P.gives) root u = some y → ∀ q, y ∉ P.gives q) :
    follow (P.kids held) root w = some x ∧
      ∀ w', follow (P.kids held) root w' = some x → w' = w := by
  have hroot : ∀ p, root ∉ P.kids held p := fun p hmem => by
    obtain ⟨i, hi⟩ := List.mem_iff_getElem?.mp hmem
    rw [hinv.getElem?_kids fun q hq => h.tree.root_free q (List.mem_append_right _ hq)] at hi
    exact h.tree.root_free p (List.mem_of_getElem? hi)
  induction w using List.reverseRecOn generalizing x with
  | nil =>
      obtain rfl := Option.some.inj hw
      refine ⟨rfl, fun w' hw' => ?_⟩
      rcases List.eq_nil_or_concat' w' with rfl | ⟨u, j, rfl⟩
      · rfl
      · obtain ⟨q, -, hq⟩ := follow_snoc_eq_some.mp hw'
        exact absurd (List.mem_of_getElem? hq) (hroot q)
  | append_singleton w i ih =>
      obtain ⟨p, hp, hpx⟩ := follow_snoc_eq_some.mp hw
      obtain ⟨hwalk, honly⟩ := ih hp fun u v y huv => hstay u (v ++ [i]) y (by
        rw [huv, List.append_assoc])
      have hx := hstay (w ++ [i]) [] x (List.append_nil _).symm hw
      refine ⟨follow_snoc_eq_some.mpr ⟨p, hwalk, (hinv.getElem?_kids hx i).mpr hpx⟩, fun w' hw' => ?_⟩
      rcases List.eq_nil_or_concat' w' with rfl | ⟨u, j, rfl⟩
      · obtain rfl := Option.some.inj hw'
        exact absurd (List.mem_of_getElem? hpx) (h.tree.root_free p)
      · obtain ⟨q, hq, hqx⟩ := follow_snoc_eq_some.mp hw'
        rw [hinv.getElem?_kids hx] at hqx
        obtain rfl := h.tree.once p q x (List.mem_of_getElem? hpx) (List.mem_of_getElem? hqx)
        have hlt := (List.getElem?_eq_some_iff.mp hqx).1
        rw [honly u hq, (List.getElem?_inj hlt (h.tree.nodup p)).mp (hqx.trans hpx.symm)]

end Result

end HandOver
