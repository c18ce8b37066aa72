import Mathlib.Data.List.Induction
import Mathlib.Data.List.Nodup

/-!
# Ledgers

A list of entries that is searched for the key of what is registered: the
first entry with the key is updated in its place, and where there is none a
new entry is appended. After any registrations an entry is what those with its
key have made of it, and the entries stand in the order in which their keys
came first.
-/

structure Ledger (ρ ε κ : Type*) where
  key : ρ → κ
  keyOf : ε → κ
  new : ρ → ε
  touch : ρ → ε → ε
  keyOf_new : ∀ r, keyOf (new r) = key r
  keyOf_touch : ∀ r e, keyOf e = key r → keyOf (touch r e) = key r

namespace Ledger

variable {ρ ε κ : Type*} [DecidableEq κ] (L : Ledger ρ ε κ) {r : ρ} {k : κ} {c : List ε}
  {rs : List ρ}

def record (r : ρ) : List ε → List ε
  | [] => [L.new r]
  | e :: c => if L.keyOf e = L.key r then L.touch r e :: c else e :: record r c

def recordAll (rs : List ρ) : List ε := rs.foldl (fun c r => L.record r c) []

def find (k : κ) (c : List ε) : Option ε := c.find? fun e => L.keyOf e = k

/-- What registrations of one key make of its entry. -/
def entry (rs : List ρ) : Option ε := rs.foldl (fun o r => some (o.elim (L.new r) (L.touch r))) none

theorem recordAll_concat (rs : List ρ) (r : ρ) :
    L.recordAll (rs ++ [r]) = L.record r (L.recordAll rs) := by
  simp [recordAll]

omit [DecidableEq κ] in
theorem entry_concat (rs : List ρ) (r : ρ) :
    L.entry (rs ++ [r]) = some ((L.entry rs).elim (L.new r) (L.touch r)) := by
  simp [entry]

theorem find_cons_of_eq {e : ε} (h : L.keyOf e = k) : L.find k (e :: c) = some e := by
  simp [find, h]

theorem find_cons_of_ne {e : ε} (h : L.keyOf e ≠ k) : L.find k (e :: c) = L.find k c := by
  simp [find, h]

theorem find_record_self : ∀ c : List ε,
    L.find (L.key r) (L.record r c) = some ((L.find (L.key r) c).elim (L.new r) (L.touch r))
  | [] => L.find_cons_of_eq (L.keyOf_new r)
  | e :: c => by
      unfold record
      split_ifs with h
      · rw [L.find_cons_of_eq h, L.find_cons_of_eq (L.keyOf_touch r e h)]
        rfl
      · rw [L.find_cons_of_ne h, L.find_cons_of_ne h, find_record_self c]

theorem find_record_of_ne (h : L.key r ≠ k) : ∀ c : List ε, L.find k (L.record r c) = L.find k c
  | [] => L.find_cons_of_ne (by rwa [L.keyOf_new])
  | e :: c => by
      unfold record
      split_ifs with he
      · rw [L.find_cons_of_ne (by rwa [L.keyOf_touch r e he]), L.find_cons_of_ne (by rwa [he])]
      · by_cases hk : L.keyOf e = k
        · rw [L.find_cons_of_eq hk, L.find_cons_of_eq hk]
        · rw [L.find_cons_of_ne hk, L.find_cons_of_ne hk, find_record_of_ne h c]

/-- The entry of a key is made by the registrations of the key. -/
theorem find_recordAll (rs : List ρ) (k : κ) :
    L.find k (L.recordAll rs) = L.entry (rs.filter fun r => L.key r = k) := by
  induction rs using List.reverseRecOn with
  | nil => rfl
  | append_singleton rs r ih =>
      rw [recordAll_concat, List.filter_append]
      by_cases h : L.key r = k
      · subst h
        rw [find_record_self, ih, List.filter_cons_of_pos (by simp), List.filter_nil, entry_concat]
      · rw [L.find_record_of_ne h, ih, List.filter_cons_of_neg (by simpa using h), List.filter_nil,
          List.append_nil]

omit [DecidableEq κ] in
/-- Where an update leaves nothing of the old entry, the last registration counts. -/
theorem entry_of_touch (h : ∀ r e, L.touch r e = L.new r) (rs : List ρ) :
    L.entry rs = rs.getLast?.map L.new := by
  cases rs using List.reverseRecOn with
  | nil => rfl
  | append_singleton rs r =>
      rw [entry_concat, List.getLast?_concat]
      cases L.entry rs with
      | none => rfl
      | some e => exact congrArg some (h r e)

/-! ## The order of the entries -/

theorem keys_record : ∀ c : List ε, (L.record r c).map L.keyOf =
    if L.key r ∈ c.map L.keyOf then c.map L.keyOf else c.map L.keyOf ++ [L.key r]
  | [] => by simp [record, L.keyOf_new]
  | e :: c => by
      unfold record
      split_ifs with h hmem hmem
      · simp [L.keyOf_touch r e h, h]
      · simp [h] at hmem
      · have : L.key r ∈ c.map L.keyOf := by
          rcases List.mem_cons.mp hmem with heq | hmem
          · exact absurd heq.symm h
          · exact hmem
        rw [List.map_cons, keys_record c, if_pos this, List.map_cons]
      · have : L.key r ∉ c.map L.keyOf := fun h' => hmem (List.mem_cons_of_mem _ h')
        rw [List.map_cons, keys_record c, if_neg this, List.map_cons, List.cons_append]

theorem keys_recordAll (rs : List ρ) :
    (L.recordAll rs).map L.keyOf = (rs.map L.key).eraseDups := by
  induction rs using List.reverseRecOn with
  | nil => rfl
  | append_singleton rs r ih =>
      rw [recordAll_concat, keys_record, ih, List.map_append, List.eraseDups_append]
      by_cases h : L.key r ∈ rs.map L.key
      · rw [if_pos (List.mem_eraseDups.mpr h)]
        simp [List.removeAll, List.mem_map.mp h]
      · rw [if_neg fun h' => h (List.mem_eraseDups.mp h')]
        have : [L.key r].removeAll (rs.map L.key) = [L.key r] := by
          simp only [List.removeAll, List.filter_cons, List.elem_eq_mem, h, decide_false,
            Bool.not_false, if_true, List.filter_nil]
        rw [List.map_cons, List.map_nil, this]
        rfl

theorem nodup_keys_record (h : (c.map L.keyOf).Nodup) : ((L.record r c).map L.keyOf).Nodup := by
  rw [keys_record]
  split_ifs with hmem
  · exact h
  · exact h.append (List.nodup_singleton _) (by simpa using hmem)

theorem nodup_keys_recordAll (rs : List ρ) : ((L.recordAll rs).map L.keyOf).Nodup := by
  induction rs using List.reverseRecOn with
  | nil => exact List.nodup_nil
  | append_singleton rs r ih =>
      rw [recordAll_concat]
      exact L.nodup_keys_record ih

/-- Where no key comes twice, an entry is what is found under its key. -/
theorem find_keyOf : ∀ {c : List ε} {e : ε}, (c.map L.keyOf).Nodup → e ∈ c →
    L.find (L.keyOf e) c = some e
  | a :: c, e, hnd, hmem => by
      obtain ⟨hnot, hnd⟩ := List.nodup_cons.mp hnd
      rcases List.mem_cons.mp hmem with rfl | hmem
      · exact L.find_cons_of_eq rfl
      · have hne : L.keyOf a ≠ L.keyOf e :=
          fun heq => hnot (heq ▸ List.mem_map_of_mem hmem)
        rw [L.find_cons_of_ne hne]
        exact find_keyOf hnd hmem

/-- What is found under the keys, and the order of the keys, is all there is to a ledger. -/
theorem ext_find {c' : List ε} (hnd : (c.map L.keyOf).Nodup)
    (hkeys : c'.map L.keyOf = c.map L.keyOf) (hfind : ∀ k, L.find k c' = L.find k c) : c' = c := by
  have hall : ∀ {d : List ε}, (d.map L.keyOf).Nodup →
      (d.map L.keyOf).filterMap (fun k => L.find k d) = d := fun {d} hd => by
    rw [List.filterMap_map]
    calc d.filterMap ((fun k => L.find k d) ∘ L.keyOf)
        = d.filterMap some := List.filterMap_congr fun e he => L.find_keyOf hd he
      _ = d := List.filterMap_some
  calc c' = (c'.map L.keyOf).filterMap fun k => L.find k c' := (hall (hkeys ▸ hnd)).symm
    _ = (c.map L.keyOf).filterMap fun k => L.find k c := by
        rw [hkeys]
        exact List.filterMap_congr fun k _ => hfind k
    _ = c := hall hnd

/-- The key that was the last one to be new. -/
def newest (rs : List ρ) : Option κ := (rs.map L.key).eraseDups.getLast?

/-- The last entry is that of the newest key. -/
theorem getLast?_recordAll (rs : List ρ) : (L.recordAll rs).getLast? =
    (L.newest rs).bind fun k => L.entry (rs.filter fun r => L.key r = k) := by
  rw [newest, ← keys_recordAll, List.getLast?_map]
  cases h : (L.recordAll rs).getLast? with
  | none => rfl
  | some e =>
      have hmem : e ∈ L.recordAll rs := List.mem_of_getLast? h
      exact ((L.find_recordAll rs (L.keyOf e)).symm.trans
        (L.find_keyOf (L.nodup_keys_recordAll rs) hmem)).symm

/-- The first entry whose key has a property has the first registered key that has it. -/
theorem find?_keys_recordAll (p : κ → Bool) (rs : List ρ) :
    ((L.recordAll rs).map L.keyOf).find? p = (rs.map L.key).find? p := by
  induction rs using List.reverseRecOn with
  | nil => rfl
  | append_singleton rs r ih =>
      rw [recordAll_concat, keys_record, List.map_append]
      split_ifs with hmem
      · rw [keys_recordAll, List.mem_eraseDups] at hmem
        rw [ih, List.find?_append]
        cases h : (rs.map L.key).find? p with
        | some k => rfl
        | none =>
            have := List.find?_eq_none.mp h _ hmem
            simpa using this
      · rw [List.find?_append, List.find?_append, ih]
        rfl

end Ledger
