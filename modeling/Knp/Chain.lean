import Mathlib.Data.List.Basic
import Mathlib.Data.List.Nodup

/-!
# Chains of entries

An association list in which an entry is overwritten in its place and a new
one is appended, as a bucket of a hash table with chaining. A key is looked up
with `List.lookup`.
-/

namespace Chain

variable {κ ν : Type*} [BEq κ] [LawfulBEq κ] [DecidableEq κ] {k k' : κ} {v : ν} {c : List (κ × ν)}

def put (k : κ) (v : ν) : List (κ × ν) → List (κ × ν)
  | [] => [(k, v)]
  | e :: c => if e.1 = k then (k, v) :: c else e :: put k v c

omit [DecidableEq κ] in
theorem lookup_cons_of_eq (e : κ × ν) (h : e.1 = k) : List.lookup k (e :: c) = some e.2 := by
  rw [← h]
  exact List.lookup_cons_self

omit [DecidableEq κ] in
theorem lookup_cons_of_ne (e : κ × ν) (h : e.1 ≠ k) : List.lookup k (e :: c) = List.lookup k c := by
  obtain ⟨a, b⟩ := e
  have hne : (k == a) = false := beq_eq_false_iff_ne.mpr fun heq => h heq.symm
  rw [List.lookup_cons, hne]

/-- The key that was put has the value that was put. -/
theorem lookup_put_self (c : List (κ × ν)) : List.lookup k (put k v c) = some v := by
  induction c with
  | nil => exact lookup_cons_of_eq (k, v) rfl
  | cons e c ih =>
      unfold put
      split_ifs with he
      · exact lookup_cons_of_eq (k, v) rfl
      · rw [lookup_cons_of_ne e he, ih]

/-- Other keys keep their values. -/
theorem lookup_put_of_ne (h : k' ≠ k) (c : List (κ × ν)) :
    List.lookup k' (put k v c) = List.lookup k' c := by
  induction c with
  | nil => exact lookup_cons_of_ne (k, v) h.symm
  | cons e c ih =>
      unfold put
      split_ifs with he
      · rw [lookup_cons_of_ne (k, v) h.symm, lookup_cons_of_ne e (he ▸ h.symm)]
      · by_cases hk : e.1 = k'
        · rw [lookup_cons_of_eq e hk, lookup_cons_of_eq e hk]
        · rw [lookup_cons_of_ne e hk, lookup_cons_of_ne e hk, ih]

omit [BEq κ] [LawfulBEq κ] in
theorem mem_keys_put : k' ∈ (put k v c).map Prod.fst ↔ k' = k ∨ k' ∈ c.map Prod.fst := by
  induction c with
  | nil => simp [put]
  | cons e c ih =>
      unfold put
      split_ifs with he
      · simp [he]
      · simp only [List.map_cons, List.mem_cons, ih]
        exact or_left_comm

omit [BEq κ] [LawfulBEq κ] in
/-- The keys of a chain stay distinct. -/
theorem nodup_put (h : (c.map Prod.fst).Nodup) : ((put k v c).map Prod.fst).Nodup := by
  induction c with
  | nil => simp [put]
  | cons e c ih =>
      obtain ⟨hnot, hc⟩ := List.nodup_cons.mp h
      unfold put
      split_ifs with he
      · exact List.nodup_cons.mpr ⟨he ▸ hnot, hc⟩
      · refine List.nodup_cons.mpr ⟨fun hmem => ?_, ih hc⟩
        rcases mem_keys_put.mp hmem with heq | hmem
        · exact he heq
        · exact hnot hmem

theorem mem_of_lookup (h : List.lookup k c = some v) : (k, v) ∈ c := by
  induction c with
  | nil => cases h
  | cons e c ih =>
      by_cases he : e.1 = k
      · rw [lookup_cons_of_eq e he] at h
        obtain rfl := Option.some.inj h
        exact he ▸ List.mem_cons_self
      · rw [lookup_cons_of_ne e he] at h
        exact List.mem_cons_of_mem e (ih h)

omit [DecidableEq κ] in
/-- With distinct keys, every entry is found. -/
theorem lookup_of_mem (h : (c.map Prod.fst).Nodup) {e : κ × ν} (he : e ∈ c) :
    List.lookup e.1 c = some e.2 := by
  induction c with
  | nil => cases he
  | cons a c ih =>
      obtain ⟨hnot, hc⟩ := List.nodup_cons.mp h
      rcases List.mem_cons.mp he with rfl | he
      · exact lookup_cons_of_eq _ rfl
      · rw [lookup_cons_of_ne a fun heq => hnot (heq ▸ List.mem_map_of_mem he), ih hc he]

end Chain
