import Knp.FeatureAssign
import Knp.LinkedList

/-!
# Temporary features (`delete_temp_feature`)

While the n-best structures of a sentence are compared, features are assigned with
「仮付与」 in front, and deleted before the next structure. The deletion follows the
links of the list with a pointer `prep` to the cell before, which is null as long as
no cell has been kept.

> If the head of the list is temporary, the link in the null cell is read after it has been
> deleted. Otherwise the features that are not temporary are left.
-/

namespace Knp.Feature

open LinkedList StepRun

/-! ## The deletion -/

/-- 仮付与したfeature -/
def isTemp (cp : String) : Bool := compFeature cp "仮付与"

/-- The loop of `delete_temp_feature`. `fpp` is the place of the link to the next cell. -/
def deleteTempLoop : Nat → Mem String → Option Nat → Place → Option (Mem String)
  | 0, _, _, _ => none
  | fuel + 1, m, prep, fpp => do
      match ← m.read fpp with
      | none => return m
      | some p =>
          let c ← m.cell p
          if isTemp c.val then
            let m ← (m.free p).write c.next (if prep.isNone then fpp else .next prep)
            deleteTempLoop fuel m prep (.next prep)
          else deleteTempLoop fuel m (some p) (.next (some p))

/-- `delete_temp_feature`, with a bound on the turns of the loop. -/
def deleteTempFeature (fuel : Nat) (m : Mem String) : Option (Mem String) :=
  deleteTempLoop fuel m none .head

/-- The features that are not temporary. -/
def permanent (l : List String) : List String := l.filter fun cp => !isTemp cp

/-- The call comes to an end, and leaves `l'`. -/
def Deletes (m : Mem String) (l' : List String) : Prop :=
  ∃ fuel m', deleteTempFeature fuel m = some m' ∧ Represents m' l'

section Loop

variable {m m' : Mem String} {p : Nat} {a : String} {link : Option Nat} {cs : List (Nat × String)}
  {l l' : List String}

/-- Behind a cell that has been kept the temporary features are deleted, and nothing but the
cells behind it and its own link is changed. -/
theorem deleteTempLoop_spec (hp : m.cell p = some ⟨a, link⟩) (hcs : Chain m link cs)
    (hnd : (p :: cs.map Prod.fst).Nodup) :
    ∃ m' link', deleteTempLoop (cs.length + 1) m (some p) (.next (some p)) = some m' ∧
      m'.head = m.head ∧ m'.cell p = some ⟨a, link'⟩ ∧
      Chain m' link' (cs.filter fun c => !isTemp c.2) ∧
      ∀ q, q ∉ p :: cs.map Prod.fst → m'.cell q = m.cell q := by
  induction cs generalizing m p a link with
  | nil =>
      obtain rfl : link = none := hcs
      exact ⟨m, none, by simp [deleteTempLoop, Mem.read, hp], rfl, hp, rfl, fun _ _ => rfl⟩
  | cons c cs ih =>
      obtain ⟨rfl, next, hc, hcs⟩ := hcs
      obtain ⟨hpnot, hnd⟩ := List.nodup_cons.mp hnd
      obtain ⟨hcnot, hrest⟩ := List.nodup_cons.mp hnd
      rw [List.map_cons, List.mem_cons, not_or] at hpnot
      obtain ⟨hne, hpnot⟩ := hpnot
      by_cases htemp : isTemp c.2 = true
      · -- the cell is freed, and the one before takes its link
        have hfree : (m.free c.1).cell p = some ⟨a, some c.1⟩ := by
          rw [Mem.free, Mem.set_of_ne _ _ hne, hp]
        have hp' : ((m.free c.1).set p (some ⟨a, next⟩)).cell p = some ⟨a, next⟩ := Mem.set_self ..
        have hother : ∀ q, q ∉ p :: (c :: cs).map Prod.fst →
            ((m.free c.1).set p (some ⟨a, next⟩)).cell q = m.cell q := fun q hq => by
          simp only [List.map_cons, List.mem_cons, not_or] at hq
          rw [Mem.set_of_ne _ _ hq.1, Mem.free, Mem.set_of_ne _ _ hq.2.1]
        have hcs' : Chain ((m.free c.1).set p (some ⟨a, next⟩)) next cs := hcs.congr fun q hq => by
          have hqp : q ≠ p := fun h => hpnot (h ▸ hq)
          have hqc : q ≠ c.1 := fun h => hcnot (h ▸ hq)
          rw [Mem.set_of_ne _ _ hqp, Mem.free, Mem.set_of_ne _ _ hqc]
        obtain ⟨m', link', hloop, hhead, hcell, hchain, hframe⟩ :=
          ih hp' hcs' (List.nodup_cons.mpr ⟨hpnot, hrest⟩)
        refine ⟨m', link', ?_, hhead, hcell, ?_, fun q hq => ?_⟩
        · rw [List.length_cons, deleteTempLoop]
          simpa [Mem.read, Mem.write, hp, hc, htemp, hfree] using hloop
        · rwa [List.filter_cons_of_neg (by simp [htemp])]
        · have hq' : q ∉ p :: cs.map Prod.fst := fun h => hq (by
            rw [List.map_cons]
            rcases List.mem_cons.mp h with rfl | h
            · exact List.mem_cons_self
            · exact List.mem_cons_of_mem _ (List.mem_cons_of_mem _ h))
          exact (hframe q hq').trans (hother q hq)
      · obtain ⟨m', link', hloop, hhead, hcell, hchain, hframe⟩ := ih hc hcs hnd
        have hkeep : m'.cell p = m.cell p := hframe p (by
          rw [List.mem_cons, not_or]
          exact ⟨hne, hpnot⟩)
        refine ⟨m', some c.1, ?_, hhead, hkeep.trans hp, ?_, fun q hq => ?_⟩
        · rw [List.length_cons, deleteTempLoop]
          simpa [Mem.read, hp, hc, htemp] using hloop
        · rw [List.filter_cons_of_pos (by simp [htemp])]
          exact ⟨rfl, link', hcell, hchain⟩
        · exact hframe q fun h => hq (List.mem_cons_of_mem _ h)

/-- A list that does not begin with a temporary feature keeps its other features. -/
theorem deletes_permanent (h : Represents m l) (hhead : ∀ cp ∈ l.head?, isTemp cp = false) :
    Deletes m (permanent l) := by
  obtain ⟨cs, hnd, hcs, rfl⟩ := h
  cases cs with
  | nil =>
      have hnone : m.head = none := hcs
      refine ⟨1, m, by simp [deleteTempFeature, deleteTempLoop, Mem.read, hnone], [], ?_⟩
      exact ⟨List.nodup_nil, hnone, rfl⟩
  | cons c cs =>
      obtain ⟨hlink, next, hc, hcs⟩ := hcs
      have hkept : isTemp c.2 = false := hhead c.2 rfl
      obtain ⟨m', link', hloop, hhead', hcell, hchain, -⟩ := deleteTempLoop_spec hc hcs hnd
      refine ⟨cs.length + 2, m', ?_, c :: cs.filter fun c => !isTemp c.2, ?_, ?_, ?_⟩
      · rw [deleteTempFeature, deleteTempLoop]
        simpa [Mem.read, hlink, hc, hkept] using hloop
      · have hsub : (c :: cs.filter fun c => !isTemp c.2).Sublist (c :: cs) :=
          List.filter_sublist.cons_cons c
        exact (hsub.map Prod.fst).nodup hnd
      · exact ⟨hhead'.trans hlink, link', hcell, hchain⟩
      · rw [permanent, List.map_cons, List.map_cons, List.filter_cons_of_pos (by simp [hkept]),
          List.filter_map]
        rfl

/-- Where the head is temporary, the call does not come to an end. -/
theorem not_deletes (h : Represents m (a :: l)) (htemp : isTemp a = true) : ¬Deletes m l' := by
  rintro ⟨fuel, m', hdelete, -⟩
  obtain ⟨cs, -, hcs, hmap⟩ := h
  cases cs with
  | nil => exact absurd hmap (by simp)
  | cons c cs =>
      obtain ⟨hlink, next, hc, -⟩ := hcs
      obtain ⟨rfl, -⟩ := List.cons.inj hmap
      unfold deleteTempFeature at hdelete
      cases fuel with
      | zero => exact absurd hdelete (by simp [deleteTempLoop])
      | succ fuel =>
          have hnull : ∀ m'' : Mem String, deleteTempLoop fuel m'' none (.next none) = none := by
            intro m''
            cases fuel with
            | zero => rfl
            | succ fuel => simp [deleteTempLoop, Mem.read]
          rw [deleteTempLoop] at hdelete
          simp [Mem.read, Mem.write, hlink, hc, htemp, hnull] at hdelete

/-- `delete_temp_feature` leaves the features that are not temporary if and only if the head of
the list is not temporary. -/
theorem deleteTempFeature_iff (m : Mem String) (l : List String) (h : Represents m l) :
    Deletes m (permanent l) ↔ ∀ cp ∈ l.head?, isTemp cp = false := by
  refine ⟨fun hdeletes cp hcp => ?_, deletes_permanent h⟩
  by_contra htemp
  obtain ⟨rest, rfl⟩ : ∃ rest, l = cp :: rest := List.head?_eq_some_iff.mp hcp
  exact not_deletes h (by simpa using htemp) hdeletes

end Loop

/-- The one feature is kept. -/
theorem permanent_deleted : Deletes (place 0 ["x", "仮付与:y"]) (permanent ["x", "仮付与:y"]) :=
  (deleteTempFeature_iff (place 0 ["x", "仮付与:y"]) ["x", "仮付与:y"] (represents_place _ 0)).mpr (by
    decide)

/-- A list with a single temporary feature cannot be emptied. -/
theorem temporary_not_deleted :
    ¬∀ (m : Mem String) (l : List String), Represents m l → Deletes m (permanent l) := fun h =>
  not_deletes (represents_place ["仮付与:x"] 0) (by decide) (h _ _ (represents_place ["仮付与:x"] 0))

/-! ## Assigning and deleting -/

section RollBack

variable {fp orig : List String} {found : Buffer} {fname cp : String} {m m' : Mem String}

theorem deleteTempLoop_mono {fuel : Nat} {prep : Option Nat} {fpp : Place}
    (h : deleteTempLoop fuel m prep fpp = some m') (k : Nat) :
    deleteTempLoop (fuel + k) m prep fpp = some m' := by
  induction fuel generalizing m prep fpp with
  | zero => exact absurd h (by simp [deleteTempLoop])
  | succ fuel ih =>
      rw [Nat.succ_add]
      rw [deleteTempLoop] at h ⊢
      obtain ⟨link, hlink, h⟩ := Option.bind_eq_some_iff.mp h
      refine Option.bind_eq_some_iff.mpr ⟨link, hlink, ?_⟩
      cases link with
      | none => exact h
      | some p =>
          obtain ⟨c, hc, h⟩ := Option.bind_eq_some_iff.mp h
          refine Option.bind_eq_some_iff.mpr ⟨c, hc, ?_⟩
          by_cases htemp : isTemp c.val = true
          · rw [if_pos htemp] at h ⊢
            obtain ⟨m₁, hm₁, h⟩ := Option.bind_eq_some_iff.mp h
            exact Option.bind_eq_some_iff.mpr ⟨m₁, hm₁, ih h⟩
          · rw [if_neg htemp] at h ⊢
            exact ih h

theorem deletes_unique {l l' : List String} (h : Deletes m l) (h' : Deletes m l') : l = l' := by
  obtain ⟨fuel, m₁, hdelete, hm₁⟩ := h
  obtain ⟨fuel', m₂, hdelete', hm₂⟩ := h'
  have hm : m₁ = m₂ := by
    have hleft := deleteTempLoop_mono hdelete fuel'
    have hright := deleteTempLoop_mono hdelete' fuel
    rw [Nat.add_comm] at hright
    exact Option.some.inj (hleft.symm.trans hright)
  exact hm₁.unique (hm ▸ hm₂)

/-- What is left of a list, whatever its cells in memory. -/
theorem deletes_all_iff : (∀ m, Represents m fp → Deletes m orig) ↔
    (∀ cp ∈ fp.head?, isTemp cp = false) ∧ permanent fp = orig := by
  constructor
  · intro h
    have hdeletes := h _ (represents_place fp 0)
    have hhead : ∀ cp ∈ fp.head?, isTemp cp = false := fun cp hcp => by
      by_contra htemp
      obtain ⟨rest, rfl⟩ : ∃ rest, fp = cp :: rest := List.head?_eq_some_iff.mp hcp
      exact not_deletes (represents_place _ 0) (by simpa using htemp) hdeletes
    exact ⟨hhead, deletes_unique (deletes_permanent (represents_place fp 0) hhead) hdeletes⟩
  · rintro ⟨hhead, rfl⟩ m hm
    exact deletes_permanent hm hhead

/-- One call with the temporary flag; other calls may have changed the buffer before it. -/
def tempStep (s : Option (List String)) (call : Buffer × String) : Option (List String) :=
  s.bind fun fp => (assignCfeature call.1 call.2 true fp).map Prod.snd

/-- The deletion leaves the original list. -/
def RollsBack (orig : List String) (s : Option (List String)) : Prop :=
  ∃ fp, s = some fp ∧ ∀ m, Represents m fp → Deletes m orig

/-- The call finds no feature of a list with a head, or it finds a feature that may be
overwritten: one that is the same or temporary as well. -/
def Harmless (found : Buffer) (fname : String) (fp : List String) : Prop :=
  (searchText found.text fname).utf8ByteSize < DATA_LEN ∧
    match fp.find? (compFeature · (searchText found.text fname)) with
    | none => fp ≠ []
    | some cp => cp = fname ∨ isTemp cp = true ∧ isTemp fname = true

theorem harmless_of_none (hfits : (searchText found.text fname).utf8ByteSize < DATA_LEN)
    (hfind : fp.find? (compFeature · (searchText found.text fname)) = none) (hne : fp ≠ []) :
    Harmless found fname fp := by
  refine ⟨hfits, ?_⟩
  rw [hfind]
  exact hne

def CallHarmless (s : Option (List String)) (call : Buffer × String) : Prop :=
  ∀ fp, s = some fp → Harmless call.1 call.2 fp

theorem isTemp_prefixed : isTemp ("仮付与:" ++ fname) = true := by
  rw [isTemp, compFeature_iff]
  exact Or.inr ⟨fname.toList, by rw [String.toList_append]; rfl⟩

theorem permanent_append {l l' : List String} : permanent (l ++ l') = permanent l ++ permanent l' :=
  List.filter_append ..

theorem append_temp_iff (hhead : ∀ cp ∈ fp.head?, isTemp cp = false) (hfp : permanent fp = orig) :
    ((∀ cp ∈ (fp ++ ["仮付与:" ++ fname]).head?, isTemp cp = false) ∧
      permanent (fp ++ ["仮付与:" ++ fname]) = orig) ↔ fp ≠ [] := by
  have hpermanent : permanent (fp ++ ["仮付与:" ++ fname]) = orig := by
    simpa [permanent_append, permanent, isTemp_prefixed] using hfp
  cases fp with
  | nil => simp [isTemp_prefixed]
  | cons cp fp => exact ⟨fun _ => by simp, fun _ => ⟨hhead, hpermanent⟩⟩

theorem permanent_length {before after : List String} :
    (permanent (before ++ cp :: after)).length =
      (permanent before).length + (permanent after).length + if isTemp cp then 0 else 1 := by
  cases h : isTemp cp with
  | true => simp [permanent, h]
  | false =>
      simp [permanent, h]
      omega

theorem overwrite_temp_iff {before after : List String}
    (hhead : ∀ e ∈ (before ++ cp :: after).head?, isTemp e = false)
    (hfp : permanent (before ++ cp :: after) = orig) :
    ((∀ e ∈ (before ++ fname :: after).head?, isTemp e = false) ∧
      permanent (before ++ fname :: after) = orig) ↔
        cp = fname ∨ isTemp cp = true ∧ isTemp fname = true := by
  subst hfp
  by_cases heq : cp = fname
  · subst heq
    simpa using hhead
  · by_cases hsame : isTemp cp = isTemp fname
    · cases hname : isTemp fname with
      | false =>
          -- both are permanent, and the old one is missed
          simp [permanent, hsame.trans hname, hname, heq, Ne.symm heq]
      | true =>
          have hbefore : before ≠ [] := by
            rintro rfl
            have := hhead cp rfl
            rw [hsame, hname] at this
            exact absurd this (by simp)
          obtain ⟨e, before, rfl⟩ := List.exists_cons_of_ne_nil hbefore
          have hhead' : isTemp e = false := hhead e rfl
          simp [permanent, hsame.trans hname, hname, hhead']
    · -- one of them is permanent, so that the lengths differ
      constructor
      · rintro ⟨-, h⟩
        have hlen := congrArg List.length h
        rw [permanent_length, permanent_length] at hlen
        cases hcp : isTemp cp <;> cases hname : isTemp fname <;> simp_all
      · rintro (h | ⟨hcp, hname⟩)
        · exact absurd h heq
        · exact absurd (hcp.trans hname.symm) hsame

/-- A call keeps what the deletion will leave if and only if it is harmless. -/
theorem rollsBack_step {s : Option (List String)} {call : Buffer × String}
    (h : RollsBack orig s) : RollsBack orig (tempStep s call) ↔ CallHarmless s call := by
  obtain ⟨fp, rfl, hfp⟩ := h
  obtain ⟨hhead, hperm⟩ := deletes_all_iff.mp hfp
  have hcall : CallHarmless (some fp) call ↔ Harmless call.1 call.2 fp := by simp [CallHarmless]
  rw [hcall]
  unfold RollsBack tempStep Harmless assignCfeature
  rw [scanName_eq, strcpy]
  simp only [deletes_all_iff]
  by_cases hfits : (searchText call.1.text call.2).utf8ByteSize < DATA_LEN
  · rw [dif_pos hfits]
    simp only [Option.bind_some, Option.map_some, if_true, Option.some.injEq, exists_eq_left',
      hfits, true_and]
    cases hfind : fp.find? (compFeature · (searchText call.1.text call.2)) with
    | none =>
        rw [overwrite_of_none hfind]
        exact append_temp_iff hhead hperm
    | some cp =>
        obtain ⟨before, after, rfl, hover⟩ := overwrite_of_some call.2 ("仮付与:" ++ call.2) hfind
        rw [hover]
        exact overwrite_temp_iff hhead hperm
  · rw [dif_neg hfits]
    simp [hfits]

/-- In every run of calls with the temporary flag, the deletion leaves the original list after
each call if and only if each call is harmless. -/
theorem temp_run_iff (orig : List String) (horig : ∀ cp ∈ orig, isTemp cp = false)
    (calls : List (Buffer × String)) :
    EachState tempStep (RollsBack orig) (some orig) calls ↔
      EachStep tempStep CallHarmless (some orig) calls := by
  have hstart : RollsBack orig (some orig) := by
    refine ⟨orig, rfl, deletes_all_iff.mpr ⟨fun cp hcp => horig cp (List.mem_of_mem_head? hcp), ?_⟩⟩
    exact List.filter_eq_self.mpr fun cp hcp => by simp [horig cp hcp]
  exact eachState_iff (W := fun _ => True) (V := fun _ _ => True) (fun _ _ _ _ => trivial)
    (fun s call _ hp _ => rollsBack_step hp) trivial hstart (eachStep_true _ _)

end RollBack

/-- The calls find no feature. -/
theorem new_rollsBack : EachState tempStep (RollsBack ["x"]) (some ["x"])
    [(⟨"", by decide⟩, "y:1"), (⟨"y", by decide⟩, "z")] :=
  (temp_run_iff ["x"] (by decide) [(⟨"", by decide⟩, "y:1"), (⟨"y", by decide⟩, "z")]).mpr
    ⟨fun fp hfp => by
      obtain rfl := Option.some.inj hfp
      exact harmless_of_none (by decide) (by decide) (by simp),
    fun fp hfp => by
      have hstep : tempStep (some ["x"]) (⟨"", by decide⟩, "y:1") = some ["x", "仮付与:y:1"] := by
        decide
      obtain rfl := Option.some.inj (hfp.symm.trans hstep)
      exact harmless_of_none (by decide) (by decide) (by simp),
    trivial⟩

/-- `x:1` is overwritten. -/
theorem overwritten_not_rollsBack :
    ¬∀ orig : List String, (∀ cp ∈ orig, isTemp cp = false) → ∀ calls : List (Buffer × String),
      EachState tempStep (RollsBack orig) (some orig) calls := by
  intro h
  have hlast := (h ["x:1"] (by decide) [(⟨"", by decide⟩, "x:2")]).last
  obtain ⟨fp, hfp, hdeletes⟩ := hlast
  have hnew : fp = ["x:2"] := by
    have : tempStep (some ["x:1"]) (⟨"", by decide⟩, "x:2") = some ["x:2"] := by decide
    exact Option.some.inj (hfp.symm.trans this)
  subst hnew
  exact absurd (deletes_all_iff.mp hdeletes).2 (by decide)

end Knp.Feature
