import Mathlib.Logic.Relation
import Mathlib.Order.Defs.LinearOrder
import Mathlib.Order.Basic
import Mathlib.Algebra.Order.Group.Nat
import Mathlib.Logic.Function.Basic

/-!
# Nested two-part scopes

A *scope* has a first part `[start, key]` and a second part `[key + 1, stop]`.
A family of scopes with distinct keys is *nested* when a scope whose key lies
strictly inside the second part of an earlier one lies inside it altogether.

Two scopes may still be linked end to key: the second part of the one stops
exactly at the key of the other. If they are of comparable size (`near`) they
are links of one chain (`Sibling`), and the chains are the groups of the
family. Between groups one lies `Under` the other (it starts inside the other's
second part) or stops `Before` the other's key.

> A scope that stops before another one keeps everything it reaches before it
> (`Before.path_lt`), and what stops before a scope under `u` lies inside `u`
> (`Before.under`).
-/

/-- A family of nested scopes. -/
structure Scopes (ι : Type*) where
  start : ι → ℕ
  key : ι → ℕ
  stop : ι → ℕ
  /-- The two sides of an end-to-key link are of comparable size. -/
  near : ι → ι → Prop
  start_le_key : ∀ i, start i ≤ key i
  key_lt_stop : ∀ i, key i < stop i
  key_injective : Function.Injective key
  nested : ∀ i j, key i < key j → key j < stop i → key i < start j ∧ stop j ≤ stop i
  near_mono : ∀ i i' j, key i < key i' → stop i = key j → stop i' = key j →
    near i j → near i' j

namespace Scopes

open Relation

variable {ι : Type*} (S : Scopes ι)

/-- `j` starts, and has its key, in the second part of `i`. -/
def Down (i j : ι) : Prop := S.key i < S.start j ∧ S.key j ≤ S.stop i

/-- `j` is the next link of the chain of `i`. -/
def Sibling (i j : ι) : Prop := S.Down i j ∧ S.key j = S.stop i ∧ S.near i j

/-- `j` lies in the second part of `i` without continuing its chain. -/
def Under (i j : ι) : Prop := S.Down i j ∧ ¬ S.Sibling i j

/-- `i` ends no later than the key of `j`, and either reaches the start of `j`,
or its second part stops at a key from which `j` is continued. -/
def Before (i j : ι) : Prop :=
  (S.start j ≤ S.stop i ∧ S.stop i ≤ S.key j ∧ ¬ S.Down i j) ∨
    ∃ m, S.Under i m ∧ S.key m = S.stop i ∧ S.start j = S.key m + 1 ∧ S.stop m < S.key j

/-- `i` belongs below `j`. -/
def Below (i j : ι) : Prop := S.Before i j ∨ S.Under j i

variable {S} {a b c i j p q u x y z C : ι}

/-! ## Two scopes -/

theorem Down.key_lt (h : S.Down i j) : S.key i < S.key j :=
  h.1.trans_le (S.start_le_key j)

theorem down_of_key_lt (hij : S.key i < S.key j) (hj : S.key j < S.stop i) : S.Down i j :=
  ⟨(S.nested i j hij hj).1, hj.le⟩

theorem stop_le_of_key_lt (hij : S.key i < S.key j) (hj : S.key j < S.stop i) :
    S.stop j ≤ S.stop i :=
  (S.nested i j hij hj).2

theorem under_of_key_lt (hij : S.key i < S.key j) (hj : S.key j < S.stop i) : S.Under i j :=
  ⟨down_of_key_lt hij hj, fun h => by have := h.2.1; omega⟩

theorem Before.stop_le (h : S.Before i j) : S.stop i ≤ S.key j := by
  rcases h with h | ⟨m, -, hm, hj, -⟩
  · exact h.2.1
  · have := S.start_le_key j
    omega

theorem Before.key_lt (h : S.Before i j) : S.key i < S.key j :=
  (S.key_lt_stop i).trans_le h.stop_le

/-- Unless related, the earlier of two scopes stops before the later one starts. -/
theorem stop_lt_start (hij : S.key i < S.key j) (hd : ¬ S.Down i j) (hb : ¬ S.Before i j) :
    S.stop i < S.start j := by
  by_contra hstart
  by_cases hkey : S.key j < S.stop i
  · exact hd (down_of_key_lt hij hkey)
  · exact hb (Or.inl ⟨by omega, by omega, hd⟩)

/-- The chains branch to the left only: a nearer link to the same key is one too. -/
theorem Sibling.mono (h : S.Sibling i j) (hiq : S.key i < S.key q) (hq : S.Down q j)
    (hstop : S.stop q = S.key j) : S.Sibling q j :=
  ⟨hq, hstop.symm, S.near_mono i q j hiq h.2.1.symm hstop h.2.2⟩

theorem Sibling.under_of_lt (h : S.Sibling i j) (hqi : S.key q < S.key i)
    (hq : S.stop q = S.key j) : S.Under q i := by
  refine under_of_key_lt hqi ?_
  have := S.key_lt_stop i
  have := h.2.1
  omega

/-! ## Descending paths -/

theorem key_lt_of_path (h : TransGen S.Down q x) :
    S.key q < S.start x := by
  induction h with
  | single h => exact h.1
  | tail hqu hux ih =>
      have := hux.1
      rename_i u x
      have := S.start_le_key u
      omega

theorem key_le_of_path (h : ReflTransGen S.Down q x) : S.key q ≤ S.key x := by
  rcases reflTransGen_iff_eq_or_transGen.mp h with rfl | h
  · exact le_rfl
  · exact ((key_lt_of_path h).trans_le (S.start_le_key x)).le

/-- What a path reaches lies inside the scope, or beyond the scope continued at
its stop. The invariant of the induction along the path. -/
theorem path_cases (h : TransGen S.Down q x) :
    S.key x < S.stop q ∨
      ∃ t, S.Down q t ∧ S.key t = S.stop q ∧ ReflTransGen S.Down t x := by
  induction h with
  | @single x h =>
      rcases h.2.lt_or_eq with hlt | heq
      · exact Or.inl hlt
      · exact Or.inr ⟨x, h, heq, .refl⟩
  | @tail u x hqu hux ih =>
      rcases ih with hin | ⟨t, hqt, ht, htu⟩
      · have hqu' : S.key q < S.key u := (key_lt_of_path hqu).trans_le (S.start_le_key u)
        have hstop : S.stop u ≤ S.stop q := stop_le_of_key_lt hqu' hin
        rcases (hux.2.trans hstop).lt_or_eq with hlt | heq
        · exact Or.inl hlt
        · exact Or.inr ⟨x, ⟨hqu'.trans hux.1, heq.le⟩, heq, .refl⟩
      · exact Or.inr ⟨t, hqt, ht, htu.tail hux⟩

/-- A path that passes over a key passes over it in one step. -/
theorem exists_down_of_path (h : ReflTransGen S.Down q x) (hq : S.key q < S.key y)
    (hy : S.key y ≤ S.key x) : ∃ u, ReflTransGen S.Down q u ∧ S.Down u y := by
  induction h with
  | refl => omega
  | @tail u x hqu hux ih =>
      by_cases hyu : S.key y ≤ S.key u
      · exact ih hyu
      · rcases hy.lt_or_eq with hlt | heq
        · have := hux.2
          exact ⟨u, hqu, down_of_key_lt (by omega) (by omega)⟩
        · exact ⟨u, hqu, S.key_injective heq ▸ hux⟩

/-- A scope that stops before `j` hands this on to the scope continued at its stop. -/
theorem Before.next (h : S.Before q y) (ht : S.Down q z) (hz : S.key z = S.stop q) :
    S.Before z y := by
  have hzt := S.key_lt_stop z
  rcases h with ⟨hstart, hstop, hnd⟩ | ⟨m, hm, hmq, hym, hmy⟩
  · have hne : z ≠ y := fun h => hnd (h ▸ ht)
    have hzy : S.key z < S.key y :=
      lt_of_le_of_ne (hz.le.trans hstop) fun h => hne (S.key_injective h)
    have hin : ¬ S.key y < S.stop z := fun h => by
      have := (down_of_key_lt hzy h).1
      omega
    exact Or.inl ⟨by omega, by omega, fun h => by have := h.1; omega⟩
  · obtain rfl : m = z := S.key_injective (hmq.trans hz.symm)
    exact Or.inl ⟨by omega, hmy.le, fun h => by have := h.2; omega⟩

/-- Nothing below a scope that stops before `y` reaches the key of `y`. -/
theorem Before.path_lt {q : ι} (h : S.Before q y) (hx : ReflTransGen S.Down q x) :
    S.key x < S.key y := by
  rcases reflTransGen_iff_eq_or_transGen.mp hx with rfl | hx
  · exact h.key_lt
  · rcases path_cases hx with hin | ⟨t, hqt, ht, htx⟩
    · exact hin.trans_le h.stop_le
    · exact (h.next hqt ht).path_lt htx
termination_by S.key y - S.key q
decreasing_by
  have := h.key_lt
  have := hqt.key_lt
  have := (h.next hqt ht).key_lt
  omega

/-- Nor does anything below it stop after the key of `y`. -/
theorem Before.path_stop_le (h : S.Before q y) (hx : ReflTransGen S.Down q x) :
    S.stop x ≤ S.key y := by
  by_contra hlt
  have hxy := h.path_lt hx
  exact lt_irrefl _ (h.path_lt (hx.tail (down_of_key_lt hxy (by omega))))

/-- What stops before a scope under `u` lies inside `u`. -/
theorem Before.inside (h : S.Before x y) (hu : S.Down u y) :
    S.key u < S.key x ∧ S.key x < S.stop u := by
  have hxy := h.key_lt
  have hin : S.key x < S.stop u := hxy.trans_le hu.2
  rcases lt_trichotomy (S.key u) (S.key x) with hlt | heq | hgt
  · exact ⟨hlt, hin⟩
  · obtain rfl := S.key_injective heq
    exact absurd (h.path_lt (.single hu)) (lt_irrefl _)
  · -- then `u` lies below `x`, and `y` with it
    have hxu : S.Down x u := by
      have hstart := hu.1
      rcases h with ⟨hs, -, -⟩ | ⟨m, hm, hmx, hym, -⟩
      · exact down_of_key_lt hgt (by omega)
      · rcases (show S.key u ≤ S.stop x by omega).lt_or_eq with hlt | heq
        · exact down_of_key_lt hgt hlt
        · exact S.key_injective (hmx.trans heq.symm) ▸ hm.1
    exact absurd (h.path_lt (.tail (.single hxu) hu)) (lt_irrefl _)

theorem Before.under (h : S.Before x y) (hu : S.Down u y) : S.Under u x :=
  under_of_key_lt (h.inside hu).1 (h.inside hu).2

/-- What lies under `j` has the previous links of its chain strictly inside `j`. -/
theorem Under.prev (h : S.Under j i) (hp : S.Sibling p i) :
    S.key j < S.key p ∧ S.key p < S.stop j := by
  have hpi := hp.2.1
  have hps := S.key_lt_stop p
  have hji := h.1.key_lt
  have hlt : S.key p < S.stop j := by
    have := h.1.2
    omega
  refine ⟨?_, hlt⟩
  by_contra hle
  rcases (show S.key p ≤ S.key j by omega).lt_or_eq with hpj | heq
  · -- `p` lies further away
    have hjp : S.stop j ≤ S.stop p := stop_le_of_key_lt hpj (by omega)
    have hstop : S.stop j = S.key i := le_antisymm (hjp.trans hpi.ge) h.1.2
    exact h.2 (hp.mono hpj h.1 hstop)
  · obtain rfl := S.key_injective heq
    exact h.2 hp

theorem Under.prev_under (h : S.Under j i) (hp : S.Sibling p i) : S.Under j p :=
  under_of_key_lt (h.prev hp).1 (h.prev hp).2

/-- Of two scopes before which one stops, the earlier stops before the later. -/
theorem Before.total (hx : S.Before x b) (hy : S.Before x c) (hbc : S.key b < S.key c) :
    S.Before b c := by
  have hb := S.start_le_key b
  have hstart : S.start c ≤ S.key b := by
    rcases hy with ⟨hs, -, -⟩ | ⟨m, hm, hmx, hcm, -⟩
    · exact hs.trans hx.stop_le
    · rcases hx with ⟨-, hstop, hnd⟩ | ⟨m', -, hm'x, hbm, -⟩
      · have hne : S.key b ≠ S.stop x := fun h =>
          hnd (S.key_injective (hmx.trans h.symm) ▸ hm.1)
        omega
      · omega
  have hkb := S.key_lt_stop b
  have hin : ¬ S.key c < S.stop b := fun h => by
    have := (down_of_key_lt hbc h).1
    omega
  exact Or.inl ⟨by omega, by omega, fun h => by have := h.1; omega⟩

theorem Under.total (ha : S.Under a C) (hb : S.Under b C) (hab : S.key a < S.key b) :
    S.Under a b :=
  under_of_key_lt hab (hb.1.key_lt.trans_le ha.1.2)

end Scopes

/-! ## Groups

A group is named by its first scope, its root. A scope with several previous
links belongs to the group of the nearest one.
-/

/-- The chains of a family, each scope with the root of its group. -/
structure ScopeGroups {ι : Type*} (S : Scopes ι) where
  root : ι → ι
  root_first : ∀ x p, ¬ S.Sibling p (root x)
  root_step : ∀ y, root y = y ∨
    ∃ p, S.Sibling p y ∧ root p = root y ∧ ∀ p', S.Sibling p' y → S.key p' ≤ S.key p

namespace ScopeGroups

open Relation Scopes

variable {ι : Type*} {S : Scopes ι} (G : ScopeGroups S) {a b c p q u x y z A C P X Y : ι}

/-- A property of the roots that is handed from link to link holds of all scopes. -/
theorem chain_induction {motive : ι → Prop} (root : ∀ y, G.root y = y → motive y)
    (next : ∀ p y, S.Sibling p y → G.root p = G.root y →
      (∀ p', S.Sibling p' y → S.key p' ≤ S.key p) → motive p → motive y) (y : ι) : motive y := by
  rcases G.root_step y with h | ⟨p, hp, hroot, hmax⟩
  · exact root y h
  · exact next p y hp hroot hmax (chain_induction root next p)
termination_by S.key y
decreasing_by exact hp.1.key_lt

@[simp] theorem root_root (y : ι) : G.root (G.root y) = G.root y := by
  rcases G.root_step (G.root y) with h | ⟨p, hp, -, -⟩
  · exact h
  · exact absurd hp (G.root_first y p)

theorem path_root (y : ι) : ReflTransGen S.Down (G.root y) y := by
  induction y using G.chain_induction with
  | root y h => rw [h]
  | next p y hp hroot hmax ih => exact hroot ▸ ih.tail hp.1

theorem key_root_le (y : ι) : S.key (G.root y) ≤ S.key y := key_le_of_path (G.path_root y)

/-- What lies under `q` has its whole group up to there under `q`. -/
theorem under_root (h : S.Under q y) : S.Under q (G.root y) := by
  induction y using G.chain_induction with
  | root y hy => exact hy.symm ▸ h
  | next p y hp hroot hmax ih => exact hroot ▸ ih (h.prev_under hp)

/-- `x` is in the group `A`, or continues it from another group. -/
def Member (A x : ι) : Prop := G.root x = A ∨ ∃ p, G.root p = A ∧ S.Sibling p x

variable {G} in
theorem Member.path (h : G.Member A x) : ReflTransGen S.Down A x := by
  rcases h with rfl | ⟨p, rfl, hp⟩
  · exact G.path_root x
  · exact (G.path_root p).tail hp.1

variable {G} in
theorem Member.under (h : G.Member A x) (hx : S.Under q x) : S.Under q A := by
  rcases h with rfl | ⟨p, rfl, hp⟩
  · exact G.under_root hx
  · exact G.under_root (hx.prev_under hp)

theorem sibling_path_cases (hp : S.Sibling p x) (hz : ReflTransGen S.Down p z) :
    S.stop z ≤ S.key x ∨ ReflTransGen S.Down x z := by
  rcases reflTransGen_iff_eq_or_transGen.mp hz with rfl | hz
  · exact Or.inl hp.2.1.ge
  · rcases path_cases hz with hin | ⟨t, -, ht, htz⟩
    · left
      rw [hp.2.1]
      exact stop_le_of_key_lt ((key_lt_of_path hz).trans_le (S.start_le_key z)) hin
    · obtain rfl : t = x := S.key_injective (ht.trans hp.2.1.symm)
      exact Or.inr htz

/-- What a group reaches stops by the key of a given member, or is reached from it. -/
theorem root_path_cases (x : ι) (hz : ReflTransGen S.Down (G.root x) z) :
    S.stop z ≤ S.key x ∨ ReflTransGen S.Down x z := by
  induction x using G.chain_induction with
  | root x hx => exact Or.inr (hx ▸ hz)
  | next p x hp hroot hmax ih =>
      rcases ih (hroot.symm ▸ hz) with h | h
      · exact Or.inl (h.trans hp.1.key_lt.le)
      · exact sibling_path_cases hp h

variable {G} in
theorem Member.path_cases (h : G.Member A x) (hz : ReflTransGen S.Down A z) :
    S.stop z ≤ S.key x ∨ ReflTransGen S.Down x z := by
  rcases h with rfl | ⟨p, rfl, hp⟩
  · exact G.root_path_cases x hz
  · rcases G.root_path_cases p hz with h | h
    · exact Or.inl (h.trans hp.1.key_lt.le)
    · exact sibling_path_cases hp h

variable {G} in
/-- Everything below a group that stops before `y` does so too. -/
theorem Member.stop_le (h : G.Member A x) (hy : S.Before x y) (hz : ReflTransGen S.Down A z) :
    S.stop z ≤ S.key y := by
  rcases h.path_cases hz with hzx | hxz
  · exact hzx.trans hy.key_lt.le
  · exact hy.path_stop_le hxz

/-- A step down stays in the group or leads under the scope. -/
theorem root_of_down (h : S.Down a b) : G.root b = G.root a ∨ S.Under a (G.root b) := by
  by_cases hab : S.Sibling a b
  · rcases G.root_step b with hb | ⟨p, hp, hroot, hmax⟩
    · exact absurd (hb.symm ▸ hab : S.Sibling a (G.root b)) (G.root_first b a)
    · rcases (hmax a hab).lt_or_eq with hlt | heq
      · right
        rw [← hroot]
        exact G.under_root (hp.under_of_lt hlt hab.2.1.symm)
      · obtain rfl := S.key_injective heq
        exact Or.inl hroot.symm
  · exact Or.inr (G.under_root ⟨h, hab⟩)

theorem root_of_path (h : TransGen S.Down q z) :
    G.root z = G.root q ∨ ∃ u, ReflTransGen S.Down q u ∧ S.Under u (G.root z) := by
  induction h with
  | single h =>
      rcases G.root_of_down h with hz | hz
      · exact Or.inl hz
      · exact Or.inr ⟨q, .refl, hz⟩
  | @tail u z hqu huz ih =>
      rcases G.root_of_down huz with hz | hz
      · rw [hz]
        exact ih
      · exact Or.inr ⟨u, hqu.to_reflTransGen, hz⟩

/-- A group that passes over a key has it strictly inside one of its scopes. -/
theorem under_of_root_lt (hc : S.key (G.root x) < S.key c) (hcx : S.key c < S.key x)
    (hroot : G.root c ≠ G.root x) : ∃ w, G.root w = G.root x ∧ S.Under w c := by
  induction x using G.chain_induction with
  | root x hx =>
      rw [hx] at hc
      omega
  | next p x hp hpx hmax ih =>
      rw [← hpx] at hc hroot ⊢
      rcases lt_trichotomy (S.key c) (S.key p) with hlt | heq | hgt
      · exact ih hc hlt hroot
      · exact absurd (congrArg G.root (S.key_injective heq)) hroot
      · exact ⟨p, rfl, under_of_key_lt hgt (hcx.trans_eq hp.2.1)⟩

/-- Along a group, to stop before `b` is inherited to the right. -/
theorem before_chain (hroot : G.root x = G.root y) (hxy : S.key x ≤ S.key y)
    (h : S.Before x b) : S.Before y b := by
  induction y using G.chain_induction with
  | root y hy =>
      have hyx := G.key_root_le x
      rw [hroot, hy] at hyx
      exact S.key_injective (hxy.antisymm hyx) ▸ h
  | next p y hp hpy hmax ih =>
      rcases hxy.lt_or_eq with hlt | heq
      · have hle : S.key x ≤ S.key p := by
          by_contra hgt
          -- otherwise `p` stops by the key of `x`, and not at the key of `y`
          rcases G.root_path_cases x (hroot.trans hpy.symm ▸ G.path_root p) with h' | h'
          · have := hp.2.1
            omega
          · exact hgt (key_le_of_path h')
        exact (ih (hroot.trans hpy.symm) hle).next hp.1 hp.2.1
      · exact S.key_injective heq ▸ h

/-- `Y` is an upper group of `X`. -/
def Upper (X Y : ι) : Prop := ∃ x y, G.root x = X ∧ G.root y = Y ∧ S.Below x y

/-- Of two scopes a group lies under, the later one's group lies below the earlier one's. -/
theorem upper_of_under (ha : S.Under a C) (hb : S.Under b C) (hab : S.key a < S.key b) :
    G.Upper (G.root b) (G.root a) :=
  ⟨b, a, rfl, rfl, Or.inr (ha.total hb hab)⟩

/-- An upper scope inside a group lies under the previous link of its chain, so
what stops before it is attached to the first scope of the group or lies under
one of the others. -/
theorem root_or_under (hy : G.root y = P) (hx : S.Below x y) :
    (y = P ∧ S.Before x P) ∨ ∃ w, G.root w = P ∧ S.Under w x := by
  rcases hx with hx | hx
  · rcases G.root_step y with h | ⟨p, hp, hroot, -⟩
    · have hyP : y = P := h.symm.trans hy
      exact Or.inl ⟨hyP, hyP ▸ hx⟩
    · exact Or.inr ⟨p, hroot.trans hy, hx.under hp.1⟩
  · exact Or.inr ⟨y, hy, hx⟩

end ScopeGroups
