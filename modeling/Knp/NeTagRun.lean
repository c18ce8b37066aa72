import Knp.NeTag

/-!
# What the tags get (`proper.c`)

At the end of a tag the morphemes ahead are the rest of an entity or none and then those
of whole units. If the text of an entity is carried over, the rest is that entity's.

> A run over some of the tags leaves the tags behind to a run of its own.
-/

namespace Knp

namespace NamedEntity

/-! ## The text -/

section Text

variable {cp : String} {ms rest : List NeMrph}

theorem surface_append (cp : String) (ms rest : List NeMrph) :
    surface cp (ms ++ rest) = surface (surface cp ms) rest := List.foldl_append

theorem surface_size (cp : String) (ms : List NeMrph) :
    (surface cp ms).utf8ByteSize = cp.utf8ByteSize + (ms.map fun m => m.goi2.utf8ByteSize).sum := by
  induction ms generalizing cp with
  | nil => rfl
  | cons m ms ih =>
      have hrest := ih (cp ++ m.goi2)
      rw [String.utf8ByteSize_append] at hrest
      rw [List.map_cons, List.sum_cons, ← Nat.add_assoc]
      exact hrest

theorem size_le_surface (cp : String) (ms : List NeMrph) :
    cp.utf8ByteSize ≤ (surface cp ms).utf8ByteSize := by
  rw [surface_size]
  exact Nat.le_add_right _ _

/-- The morphemes in front of the last one do not close the entity. -/
structure Closes (ms : List NeMrph) : Prop where
  front : ∀ m ∈ ms.dropLast, m.isOther = false ∧ m.closes = false
  last : ∃ m, ms.getLast? = some m ∧ m.isOther = false ∧ m.closes = true

theorem runTag_front (hfront : ∀ m ∈ ms, m.isOther = false ∧ m.closes = false)
    (hfits : (surface cp ms).utf8ByteSize < WORD_LEN_MAX * 16) :
    runTag cp (ms ++ rest) = runTag (surface cp ms) rest := by
  induction ms generalizing cp with
  | nil => rfl
  | cons m ms ih =>
      obtain ⟨⟨hother, hcloses⟩, htail⟩ := List.forall_mem_cons.mp hfront
      have hsize := size_le_surface (cp ++ m.goi2) ms
      rw [String.utf8ByteSize_append] at hsize
      rw [List.cons_append, runTag, hother, hcloses, if_neg Bool.false_ne_true,
        if_neg (not_le.mpr (lt_of_le_of_lt hsize hfits)), if_neg Bool.false_ne_true]
      exact ih htail hfits

/-- The entity ends in the tag; what is behind it is not looked at. -/
theorem runTag_closes (h : Closes ms)
    (hfits : (surface cp ms).utf8ByteSize < WORD_LEN_MAX * 16) :
    runTag cp (ms ++ rest) = .ended (surface cp ms) := by
  obtain ⟨m, hlast, hother, hcloses⟩ := h.last
  have hsplit : ms = ms.dropLast ++ [m] := (List.dropLast_append_getLast? m hlast).symm
  have hfront : (surface cp ms.dropLast).utf8ByteSize < WORD_LEN_MAX * 16 := by
    rw [hsplit, surface_append] at hfits
    exact lt_of_le_of_lt (size_le_surface _ _) hfits
  have hsize : (surface cp ms).utf8ByteSize =
      (surface cp ms.dropLast).utf8ByteSize + m.goi2.utf8ByteSize := by
    rw [congrArg (surface cp) hsplit, surface_append]
    exact String.utf8ByteSize_append
  rw [congrArg (fun l => runTag cp (l ++ rest)) hsplit, List.append_assoc,
    runTag_front h.front hfront, List.singleton_append, runTag, hother, hcloses,
    if_neg Bool.false_ne_true, if_neg (not_le.mpr (hsize ▸ hfits)), if_pos rfl]
  rw [congrArg (surface cp) hsplit, surface_append]
  rfl

theorem Closes.ne_nil (h : Closes ms) : ms ≠ [] := by
  rintro rfl
  obtain ⟨m, hm, -⟩ := h.last
  cases hm

theorem Closes.of_append (h : Closes (ms ++ rest)) (hrest : rest ≠ []) :
    (∀ m ∈ ms, m.isOther = false ∧ m.closes = false) ∧ Closes rest := by
  have hdrop := h.front
  have hlast := h.last
  rw [List.dropLast_append_of_ne_nil hrest] at hdrop
  rw [List.getLast?_append_of_ne_nil _ hrest] at hlast
  exact ⟨fun m hm => hdrop m (List.mem_append_left _ hm),
    fun m hm => hdrop m (List.mem_append_right _ hm), hlast⟩

end Text

section Entity

variable {type : Nat} {ms : List NeMrph} {m : NeMrph}

theorem closes_of_position (h : m.position = TAIL ∨ m.position = SINGLE) : m.closes = true := by
  rw [NeMrph.closes]
  rcases h with h | h
  · rw [h]
    decide
  · rw [h]
    decide

theorem not_closes_of_position (h : m.position = HEAD ∨ m.position = MIDDLE) :
    m.closes = false := by
  rw [NeMrph.closes]
  rcases h with h | h
  · rw [h]
    decide
  · rw [h]
    decide

theorem Closes.cons (hother : m.isOther = false) (hopen : m.closes = false) (h : Closes ms) :
    Closes (m :: ms) := by
  refine ⟨?_, ?_⟩
  · rw [List.dropLast_cons_of_ne_nil h.ne_nil]
    exact List.forall_mem_cons.mpr ⟨⟨hother, hopen⟩, h.front⟩
  · obtain ⟨l, hl, hlast⟩ := h.last
    refine ⟨l, ?_, hlast⟩
    rw [List.getLast?_cons, hl]
    rfl

theorem Closes.singleton (hother : m.isOther = false) (hcloses : m.closes = true) : Closes [m] :=
  ⟨fun _ h => absurd h List.not_mem_nil, m, rfl, hother, hcloses⟩

theorem IsRest.closes (h : IsRest type ms) : Closes ms := by
  induction ms with
  | nil => exact h.elim
  | cons m ms ih =>
      obtain ⟨hother, -, ⟨hpos, rfl⟩ | ⟨hpos, hrest⟩⟩ := h
      · exact Closes.singleton hother (closes_of_position (.inl hpos))
      · exact (ih hrest).cons hother (not_closes_of_position (.inr hpos))

theorem IsRest.type_eq (h : IsRest type ms) : ∀ m ∈ ms, m.type = type := by
  induction ms with
  | nil => exact h.elim
  | cons m ms ih =>
      obtain ⟨-, htype, ⟨-, rfl⟩ | ⟨-, hrest⟩⟩ := h
      · exact List.forall_mem_singleton.mpr htype
      · exact List.forall_mem_cons.mpr ⟨htype, ih hrest⟩

theorem IsEntity.closes (h : IsEntity type ms) : Closes ms := by
  cases ms with
  | nil => exact h.elim
  | cons m ms =>
      obtain ⟨hother, -, ⟨hpos, rfl⟩ | ⟨hpos, hrest⟩⟩ := h
      · exact Closes.singleton hother (closes_of_position (.inr hpos))
      · exact hrest.closes.cons hother (not_closes_of_position (.inl hpos))

theorem IsEntity.type_eq (h : IsEntity type ms) : ∀ m ∈ ms, m.type = type := by
  cases ms with
  | nil => exact h.elim
  | cons m ms =>
      obtain ⟨-, htype, ⟨-, rfl⟩ | ⟨-, hrest⟩⟩ := h
      · exact List.forall_mem_singleton.mpr htype
      · exact List.forall_mem_cons.mpr ⟨htype, hrest.type_eq⟩

/-- The morphemes of an entity from one of them on. -/
structure Ending (type : Nat) (ms : List NeMrph) : Prop where
  closes : Closes ms
  types : ∀ m ∈ ms, m.type = type
  fits : (neText type ms).utf8ByteSize < WORD_LEN_MAX * 16

theorem IsEntity.ending (h : IsEntity type ms)
    (hfits : (neText type ms).utf8ByteSize < WORD_LEN_MAX * 16) : Ending type ms :=
  ⟨h.closes, h.type_eq, hfits⟩

theorem Ending.of_append {rest : List NeMrph} (h : Ending type (ms ++ rest)) (hrest : rest ≠ []) :
    Ending type rest := by
  refine ⟨(h.closes.of_append hrest).2, ?_, ?_⟩
  · intro m hm
    exact h.types m (List.mem_append_right _ hm)
  · have hfits := h.fits
    rw [neText, surface_size, List.map_append, List.sum_append] at hfits
    rw [neText, surface_size]
    exact lt_of_le_of_lt (Nat.add_le_add_left (Nat.le_add_left _ _) _) hfits

theorem Closes.not_other (h : Closes ms) : ∀ m ∈ ms, m.isOther = false := by
  intro m hm
  obtain ⟨l, hl, hother, -⟩ := h.last
  rw [← List.dropLast_append_getLast? l hl] at hm
  rcases List.mem_append.mp hm with hm | hm
  · exact (h.front m hm).1
  · rw [List.mem_singleton.mp hm]
    exact hother

theorem hasFeature_of_not_other (h : m.isOther = false) : hasFeature m.f "NE" = true := by
  rw [m.classed]
  rw [NeMrph.isOther, decide_eq_false_iff_not] at h
  exact decide_eq_true h

theorem not_hasFeature_of_other (h : m.isOther = true) : hasFeature m.f "NE" = false := by
  rw [m.classed]
  rw [NeMrph.isOther, decide_eq_true_iff] at h
  exact decide_eq_false (not_not.mpr h)

end Entity

/-! ## The tags of an entity -/

/-- What the tags of an entity get, from the `j`-th tag on. -/
def spreadEvents (text : String) : Nat → List (List NeMrph) → List NeEvent
  | _, [] => []
  | j, [_] => [.feature j text]
  | j, tag :: tag' :: tags =>
      .feature j ("NE内:" ++ firstType tag) :: spreadEvents text (j + 1) (tag' :: tags)

section Spread

variable {before after : List NeMrph} {parts : List (List NeMrph)} {cp : String} {j : Nat}

theorem length_spread (before after : List NeMrph) (parts : List (List NeMrph)) :
    (spread before after parts).length = parts.length := by
  induction parts generalizing before with
  | nil => rfl
  | cons p ps ih =>
      cases ps with
      | nil => rfl
      | cons q ps =>
          rw [spread, List.length_cons, ih]
          rfl

/-- A tag and what it leaves, then the tags behind it. -/
theorem assignTags_step {cp : Option String} {tag : List NeMrph} {tags : List (List NeMrph)}
    {events : List NeEvent} {cp' : Option String} (h : tagStep j tag cp = (events, some cp')) :
    assignTags cp j (tag :: tags) =
      (events ++ (assignTags cp' (j + 1) tags).1, (assignTags cp' (j + 1) tags).2) := by
  rw [assignTags, h]

theorem spreadEvents_cons {text : String} {tag : List NeMrph} {tags : List (List NeMrph)}
    (h : tags ≠ []) :
    spreadEvents text j (tag :: tags) =
      .feature j ("NE内:" ++ firstType tag) :: spreadEvents text (j + 1) tags := by
  cases tags with
  | nil => exact absurd rfl h
  | cons tag' tags => rfl

theorem spread_ne_nil {p : List NeMrph} {ps : List (List NeMrph)} :
    spread before after (p :: ps) ≠ [] := by
  rw [← List.length_pos_iff, length_spread]
  exact Nat.succ_pos _

/-- The first tag of more than one. -/
theorem runTag_part {p q : List NeMrph} {ps : List (List NeMrph)}
    (hne : ∀ p' ∈ q :: ps, p' ≠ []) (hcloses : Closes (p :: q :: ps).flatten)
    (hfits : (surface cp (p :: q :: ps).flatten).utf8ByteSize < WORD_LEN_MAX * 16) :
    runTag cp p = .goesOn (surface cp p) ∧ Closes (q :: ps).flatten := by
  have hflat : (q :: ps).flatten ≠ [] := by
    rw [List.flatten_cons]
    exact List.append_ne_nil_of_left_ne_nil (hne q List.mem_cons_self) _
  rw [List.flatten_cons] at hcloses hfits
  obtain ⟨hopen, hcloses'⟩ := hcloses.of_append hflat
  rw [surface_append] at hfits
  have hfront := @runTag_front cp p [] hopen
    (lt_of_le_of_lt (size_le_surface _ _) hfits)
  rw [List.append_nil] at hfront
  exact ⟨hfront, hcloses'⟩

/-- The tags behind the first one of an entity. -/
theorem assignTags_rest {tags : List (List NeMrph)} (hne : ∀ p ∈ parts, p ≠ [])
    (hcloses : Closes parts.flatten)
    (hfits : (surface cp parts.flatten).utf8ByteSize < WORD_LEN_MAX * 16) :
    assignTags (some cp) j (spread [] after parts ++ tags) =
      (spreadEvents (surface cp parts.flatten) j (spread [] after parts) ++
          (assignTags none (j + parts.length) tags).1,
        (assignTags none (j + parts.length) tags).2) := by
  induction parts generalizing cp j with
  | nil => exact absurd rfl hcloses.ne_nil
  | cons p ps ih =>
      cases ps with
      | nil =>
          rw [List.flatten_cons, List.flatten_nil, List.append_nil] at hcloses hfits ⊢
          have hstep : tagStep j ([] ++ (p ++ after)) (some cp) =
              ([.feature j (surface cp p)], some none) := by
            rw [tagStep, List.nil_append, runTag_closes hcloses hfits]
            rfl
          rw [spread, List.singleton_append, assignTags_step hstep]
          rfl
      | cons q ps =>
          obtain ⟨-, hrest⟩ := List.forall_mem_cons.mp hne
          obtain ⟨hrun, hcloses'⟩ := runTag_part hrest hcloses hfits
          have hstep : tagStep j ([] ++ p) (some cp) =
              ([.feature j ("NE内:" ++ firstType ([] ++ p))], some (some (surface cp p))) := by
            rw [tagStep, List.nil_append, hrun]
            rfl
          rw [List.flatten_cons, surface_append] at hfits ⊢
          rw [spread, List.cons_append, assignTags_step hstep, ih hrest hcloses' hfits,
            spreadEvents_cons spread_ne_nil, List.length_cons (a := p), Nat.add_right_comm,
            ← Nat.add_assoc]
          rfl

theorem dropWhile_others {p : List NeMrph} {m : NeMrph} {rest : List NeMrph}
    (hbefore : ∀ m ∈ before, m.isOther = true) (hp : p = m :: rest) (hm : m.isOther = false) :
    (before ++ p).dropWhile (fun m => !hasFeature m.f "NE") = p := by
  induction before with
  | nil =>
      rw [List.nil_append, hp, List.dropWhile_cons_of_neg]
      rw [hasFeature_of_not_other hm]
      decide
  | cons b before ih =>
      obtain ⟨hb, hrest⟩ := List.forall_mem_cons.mp hbefore
      rw [List.cons_append, List.dropWhile_cons_of_pos]
      · exact ih hrest
      · rw [not_hasFeature_of_other hb]
        rfl

/-- A tag in which an entity begins. -/
theorem tagStep_begins {p : List NeMrph} {m : NeMrph} {rest : List NeMrph}
    (hbefore : ∀ m ∈ before, m.isOther = true) (hp : p = m :: rest) (hm : m.isOther = false) :
    tagStep j (before ++ p) none =
      (assignSm j m ++ (closeTag j (before ++ p) (runTag (neStart m.type) p)).1,
        (closeTag j (before ++ p) (runTag (neStart m.type) p)).2) := by
  rw [tagStep, dropWhile_others hbefore hp hm, hp]

/-- The tags of an entity. -/
theorem assignTags_span {type : Nat} (j : Nat) (after : List NeMrph) (tags : List (List NeMrph))
    (hbefore : ∀ m ∈ before, m.isOther = true) (hne : ∀ p ∈ parts, p ≠ [])
    (h : Ending type parts.flatten) :
    ∃ m, assignTags none j (spread before after parts ++ tags) =
      (assignSm j m ++ (spreadEvents (neText type parts.flatten) j (spread before after parts) ++
          (assignTags none (j + parts.length) tags).1),
        (assignTags none (j + parts.length) tags).2) := by
  obtain ⟨hcloses, htypes, hfits⟩ := h
  rw [neText] at hfits ⊢
  cases parts with
  | nil => exact absurd rfl hcloses.ne_nil
  | cons p ps =>
      obtain ⟨hpne, hpsne⟩ := List.forall_mem_cons.mp hne
      obtain ⟨m, rest, rfl⟩ := List.exists_cons_of_ne_nil hpne
      have hm : m ∈ ((m :: rest) :: ps).flatten := List.mem_append_left _ List.mem_cons_self
      have hother := hcloses.not_other m hm
      refine ⟨m, ?_⟩
      cases ps with
      | nil =>
          rw [List.flatten_cons, List.flatten_nil, List.append_nil] at hcloses hfits ⊢
          have hstep : tagStep j (before ++ (m :: rest ++ after)) none =
              (assignSm j m ++ [.feature j (surface (neStart type) (m :: rest))], some none) := by
            rw [List.cons_append, tagStep_begins hbefore rfl hother, htypes m hm,
              ← List.cons_append, runTag_closes hcloses hfits]
            rfl
          rw [spread, List.singleton_append, assignTags_step hstep, spreadEvents,
            List.append_assoc]
          rfl
      | cons q ps =>
          obtain ⟨hrun, hcloses'⟩ := runTag_part hpsne hcloses hfits
          have hstep : tagStep j (before ++ (m :: rest)) none =
              (assignSm j m ++ [.feature j ("NE内:" ++ firstType (before ++ (m :: rest)))],
                some (some (surface (neStart type) (m :: rest)))) := by
            rw [tagStep_begins hbefore rfl hother, htypes m hm, hrun]
            rfl
          rw [List.flatten_cons, surface_append] at hfits ⊢
          rw [spread, List.cons_append, assignTags_step hstep, assignTags_rest hpsne hcloses' hfits,
            spreadEvents_cons spread_ne_nil, List.length_cons (a := m :: rest), Nat.add_right_comm,
            ← Nat.add_assoc, List.append_assoc]
          rfl

end Spread

/-! ## What is ahead -/

/-- What is ahead of a tag: the rest of an entity or nothing, and units. -/
def Ahead : Option String → List NeMrph → Prop
  | none, ms => ∃ (part : List NeMrph) (units : List NeUnit),
      ms = part ++ units.flatMap NeUnit.mrphs ∧ (part = [] ∨ ∃ type, Ending type part)
  | some cp, ms => ∃ (part : List NeMrph) (units : List NeUnit),
      ms = part ++ units.flatMap NeUnit.mrphs ∧ Closes part ∧
        (surface cp part).utf8ByteSize < WORD_LEN_MAX * 16

section Ahead

variable {tag ms part : List NeMrph} {units : List NeUnit} {cp : String} {j : Nat}

/-- A cut through the units leaves the rest of an entity or nothing. -/
theorem ahead_of_units (h : tag ++ ms = units.flatMap NeUnit.mrphs) : Ahead none ms := by
  induction units generalizing tag with
  | nil =>
      obtain ⟨-, rfl⟩ := List.append_eq_nil_iff.mp h
      exact ⟨[], [], rfl, .inl rfl⟩
  | cons u units ih =>
      rw [List.flatMap_cons] at h
      rcases List.append_eq_append_iff.mp h with ⟨a, hu, hms⟩ | ⟨c, -, hrest⟩
      · cases u with
        | other m hother =>
            cases tag with
            | nil =>
                refine ⟨[], .other m hother :: units, ?_, .inl rfl⟩
                rw [List.flatMap_cons]
                exact h
            | cons m' tag =>
                have hnil : tag ++ a = [] := (List.cons.inj hu).2.symm
                rw [(List.append_eq_nil_iff.mp hnil).2] at hms
                exact ⟨[], units, hms, .inl rfl⟩
        | entity type ms' hentity hfits =>
            have hend : Ending type (tag ++ a) := by
              rw [← hu]
              exact hentity.ending hfits
            refine ⟨a, units, hms, ?_⟩
            by_cases ha : a = []
            · exact .inl ha
            · exact .inr ⟨type, hend.of_append ha⟩
      · exact ih hrest.symm

/-- Either the tag ends inside the entity or the entity inside the tag. -/
theorem runTag_within (hcloses : Closes part)
    (hfits : (surface cp part).utf8ByteSize < WORD_LEN_MAX * 16)
    (h : tag ++ ms = part ++ units.flatMap NeUnit.mrphs) :
    (∃ a, a ≠ [] ∧ part = tag ++ a ∧ ms = a ++ units.flatMap NeUnit.mrphs ∧
        runTag cp tag = .goesOn (surface cp tag)) ∨
      ∃ c, tag = part ++ c ∧ units.flatMap NeUnit.mrphs = c ++ ms ∧
        runTag cp tag = .ended (surface cp part) := by
  rcases List.append_eq_append_iff.mp h with ⟨a, rfl, hms⟩ | ⟨c, rfl, hunits⟩
  · by_cases ha : a = []
    · rw [ha, List.append_nil] at hcloses hfits ⊢
      refine .inr ⟨[], (List.append_nil _).symm, ?_, ?_⟩
      · rw [hms, ha]
        rfl
      · have hrun := @runTag_closes cp tag [] hcloses hfits
        rw [List.append_nil] at hrun
        exact hrun
    · refine .inl ⟨a, ha, rfl, hms, ?_⟩
      rw [surface_append] at hfits
      have hrun := @runTag_front cp tag [] (hcloses.of_append ha).1
        (lt_of_le_of_lt (size_le_surface _ _) hfits)
      rw [List.append_nil] at hrun
      exact hrun
  · exact .inr ⟨c, rfl, hunits, runTag_closes hcloses hfits⟩

/-- A tag without an entity, or with the first one of it. -/
theorem exists_first (h : tag ++ ms = units.flatMap NeUnit.mrphs) :
    (∀ m ∈ tag, m.isOther = true) ∨
      ∃ (front : List NeUnit) (tag' : List NeMrph) (type : Nat) (ms' : List NeMrph)
        (entity : IsEntity type ms') (fits : (neText type ms').utf8ByteSize < WORD_LEN_MAX * 16)
        (back : List NeUnit), units = front ++ .entity type ms' entity fits :: back ∧
        tag = front.flatMap NeUnit.mrphs ++ tag' ∧
        (∀ m ∈ front.flatMap NeUnit.mrphs, m.isOther = true) ∧ tag' ≠ [] ∧
        tag' ++ ms = ms' ++ back.flatMap NeUnit.mrphs := by
  induction units generalizing tag with
  | nil =>
      obtain ⟨rfl, -⟩ := List.append_eq_nil_iff.mp h
      exact .inl fun m hm => absurd hm List.not_mem_nil
  | cons u units ih =>
      cases tag with
      | nil => exact .inl fun m hm => absurd hm List.not_mem_nil
      | cons m tag =>
          rw [List.flatMap_cons] at h
          cases u with
          | other m' hother =>
              obtain ⟨rfl, hrest⟩ := List.cons.inj h
              rcases ih hrest with
                hall | ⟨front, tag', type, ms', entity, fits, back, rfl, rfl, hfront, hfirst⟩
              · exact .inl (List.forall_mem_cons.mpr ⟨hother, hall⟩)
              · exact .inr ⟨.other m hother :: front, tag', type, ms', entity, fits, back, rfl, rfl,
                  List.forall_mem_cons.mpr ⟨hother, hfront⟩, hfirst⟩
          | entity type ms' entity fits =>
              exact .inr ⟨[], m :: tag, type, ms', entity, fits, units, rfl, rfl,
                fun m hm => absurd hm List.not_mem_nil, List.cons_ne_nil _ _, h⟩

theorem Ahead.exists_first (h : Ahead none (tag ++ ms)) :
    (∀ m ∈ tag, m.isOther = true) ∧ Ahead none ms ∨
      ∃ (before tag' : List NeMrph) (type : Nat) (part : List NeMrph) (units' : List NeUnit),
        tag = before ++ tag' ∧ (∀ m ∈ before, m.isOther = true) ∧ tag' ≠ [] ∧
        Ending type part ∧ tag' ++ ms = part ++ units'.flatMap NeUnit.mrphs := by
  obtain ⟨part, units, heq, rfl | ⟨type, hend⟩⟩ := h
  · rw [List.nil_append] at heq
    rcases NamedEntity.exists_first heq with
      hall | ⟨front, tag', type, part, entity, fits, back, -, htag, hfront, hne, hfirst⟩
    · exact .inl ⟨hall, ahead_of_units heq⟩
    · exact .inr ⟨_, tag', type, part, back, htag, hfront, hne, entity.ending fits, hfirst⟩
  · by_cases htag : tag = []
    · rw [htag] at heq ⊢
      exact .inl ⟨fun m hm => absurd hm List.not_mem_nil, part, units, heq, .inr ⟨type, hend⟩⟩
    · exact .inr ⟨[], tag, type, part, units, rfl, fun m hm => absurd hm List.not_mem_nil, htag,
        hend, heq⟩

theorem mem_of_first {m : NeMrph} {rest : List NeMrph} (hcloses : Closes part)
    (h : m :: rest ++ ms = part ++ units.flatMap NeUnit.mrphs) : m ∈ part := by
  obtain ⟨m', part', rfl⟩ := List.exists_cons_of_ne_nil hcloses.ne_nil
  rw [(List.cons.inj h).1]
  exact List.mem_cons_self

/-- No text is carried over to OTHER. -/
theorem Ahead.eq_none {m : NeMrph} {cp : Option String} (h : Ahead cp (m :: ms))
    (hother : m.isOther = true) : cp = none := by
  cases cp with
  | none => rfl
  | some cp =>
      obtain ⟨part, units, heq, hcloses, -⟩ := h
      have hm := hcloses.not_other m (@mem_of_first ms part units m [] hcloses heq)
      rw [hother] at hm
      cases hm

theorem Ahead.eq_none_of_nil {cp : Option String} (h : Ahead cp []) : cp = none := by
  cases cp with
  | none => rfl
  | some cp =>
      obtain ⟨part, units, heq, hcloses, -⟩ := h
      exact absurd (List.append_eq_nil_iff.mp heq.symm).1 hcloses.ne_nil

/-! ## A step -/

theorem tagStep_others (h : ∀ m ∈ tag, m.isOther = true) :
    tagStep j tag none = ([], some none) := by
  have hnil : tag.dropWhile (fun m => !hasFeature m.f "NE") = [] := by
    rw [List.dropWhile_eq_nil_iff]
    intro m hm
    rw [not_hasFeature_of_other (h m hm)]
    rfl
  rw [tagStep, hnil]

theorem closeTag_ahead {whole : List NeMrph} (hcloses : Closes part)
    (hfits : (surface cp part).utf8ByteSize < WORD_LEN_MAX * 16)
    (h : tag ++ ms = part ++ units.flatMap NeUnit.mrphs) :
    ∃ events cp', closeTag j whole (runTag cp tag) = (events, some cp') ∧ Ahead cp' ms := by
  rcases runTag_within hcloses hfits h with ⟨a, ha, rfl, hms, hrun⟩ | ⟨c, -, hunits, hrun⟩
  · rw [hrun]
    rw [surface_append] at hfits
    exact ⟨_, _, rfl, a, units, hms, (hcloses.of_append ha).2, hfits⟩
  · rw [hrun]
    exact ⟨_, _, rfl, ahead_of_units hunits.symm⟩

/-- What is ahead is kept by a step. -/
theorem tagStep_ahead {cp : Option String} (h : Ahead cp (tag ++ ms)) :
    ∃ events cp', tagStep j tag cp = (events, some cp') ∧ Ahead cp' ms := by
  cases cp with
  | some cp =>
      obtain ⟨part, units, heq, hcloses, hfits⟩ := h
      exact closeTag_ahead hcloses hfits heq
  | none =>
      rcases h.exists_first with
        ⟨hall, hahead⟩ | ⟨before, tag', type, part, units, rfl, hbefore, hne, hend, heq⟩
      · exact ⟨[], none, tagStep_others hall, hahead⟩
      · obtain ⟨m, rest, rfl⟩ := List.exists_cons_of_ne_nil hne
        have hm := mem_of_first hend.closes heq
        obtain ⟨events, cp', hclose, hahead⟩ :=
          @closeTag_ahead _ _ _ _ _ j (before ++ m :: rest) hend.closes hend.fits heq
        refine ⟨assignSm j m ++ events, cp', ?_, hahead⟩
        rw [tagStep_begins hbefore rfl (hend.closes.not_other m hm), hend.types m hm, hclose]

/-- An entity that ends in the tag: what is behind it is cut. -/
theorem tagStep_cut {cp : Option String} {cut : List NeMrph} (h : Ahead cp tag)
    (hentity : ∃ m ∈ tag, m.isOther = false) :
    ∃ events, tagStep j (tag ++ cut) cp = (events, some none) := by
  cases cp with
  | some cp =>
      obtain ⟨part, units, rfl, hcloses, hfits⟩ := h
      refine ⟨[.feature j (surface cp part)], ?_⟩
      rw [tagStep, List.append_assoc, runTag_closes hcloses hfits]
      rfl
  | none =>
      rw [← List.append_nil tag] at h
      rcases h.exists_first with
        ⟨hall, -⟩ | ⟨before, tag', type, part, units, rfl, hbefore, hne, hend, heq⟩
      · obtain ⟨m, hm, hother⟩ := hentity
        rw [hall m hm] at hother
        cases hother
      · obtain ⟨m, rest, rfl⟩ := List.exists_cons_of_ne_nil hne
        have hm := mem_of_first hend.closes heq
        rw [List.append_nil] at heq
        refine ⟨assignSm j m ++ [.feature j (neText type part)], ?_⟩
        rw [List.append_assoc, List.cons_append,
          tagStep_begins hbefore rfl (hend.closes.not_other m hm), hend.types m hm,
          ← List.cons_append, heq, List.append_assoc, runTag_closes hend.closes hend.fits]
        rfl

end Ahead

/-! ## What is given -/

section Given

variable {j j' : Nat} {text : String} {tag : List NeMrph} {tags : List (List NeMrph)}

theorem given_append (events events' : List NeEvent) (j : Nat) :
    given (events ++ events') j = given events j ++ given events' j := List.filterMap_append

theorem given_feature_self (j : Nat) (text : String) (events : List NeEvent) :
    given (.feature j text :: events) j = text :: given events j :=
  List.filterMap_cons_some (if_pos rfl)

theorem given_feature_ne (h : j ≠ j') (text : String) (events : List NeEvent) :
    given (.feature j text :: events) j' = given events j' :=
  List.filterMap_cons_none (if_neg h)

theorem given_assignSm (j j' : Nat) (m : NeMrph) : given (assignSm j m) j' = [] := by
  rw [assignSm]
  split
  · rfl
  · split
    · rfl
    · rfl

theorem given_closeTag (h : j ≠ j') (r : TagRun) : given (closeTag j tag r).1 j' = [] := by
  cases r with
  | goesOn cp => exact given_feature_ne h _ []
  | ended cp => exact given_feature_ne h _ []
  | illegal => rfl
  | exit => rfl

theorem given_tagStep (h : j ≠ j') (cp : Option String) : given (tagStep j tag cp).1 j' = [] := by
  cases cp with
  | some cp => exact given_closeTag h _
  | none =>
      rw [tagStep]
      split
      · rfl
      · rw [given_append, given_assignSm, given_closeTag h]
        rfl

/-- The tags before the run get nothing. -/
theorem given_assignTags (h : j' < j) (cp : Option String) :
    given (assignTags cp j tags).1 j' = [] := by
  induction tags generalizing cp j with
  | nil =>
      cases cp with
      | none => rfl
      | some cp => rfl
  | cons tag tags ih =>
      have hstep := @given_tagStep j j' tag h.ne' cp
      rw [assignTags]
      split
      · rename_i events heq
        rw [heq] at hstep
        exact hstep
      · rename_i events cp' heq
        rw [heq] at hstep
        rw [given_append, ih (Nat.lt_succ_of_lt h), List.append_nil]
        exact hstep

theorem given_spreadEvents_lt (h : j' < j) : given (spreadEvents text j tags) j' = [] := by
  induction tags generalizing j with
  | nil => rfl
  | cons tag tags ih =>
      cases tags with
      | nil => exact given_feature_ne h.ne' _ []
      | cons tag' tags =>
          rw [spreadEvents, given_feature_ne h.ne']
          exact ih (Nat.lt_succ_of_lt h)

/-- The tags of an entity get a feature each. -/
theorem given_spreadEvents {k : Nat} (h : k < tags.length) :
    given (spreadEvents text j tags) (j + k) =
      if k + 1 = tags.length then [text] else ["NE内:" ++ firstType (tags.getD k [])] := by
  induction tags generalizing j k with
  | nil => exact absurd h (Nat.not_lt_zero k)
  | cons tag tags ih =>
      cases tags with
      | nil =>
          obtain rfl : k = 0 := Nat.lt_one_iff.mp h
          exact given_feature_self j text []
      | cons tag' tags =>
          rw [spreadEvents]
          cases k with
          | zero =>
              rw [Nat.add_zero j, given_feature_self, given_spreadEvents_lt (Nat.lt_succ_self j),
                if_neg]
              · rfl
              · exact fun hlen => Nat.succ_ne_zero _ (Nat.succ.inj hlen).symm
          | succ k =>
              have hindex : j + (k + 1) = j + 1 + k := by omega
              have hne : j ≠ j + 1 + k := by omega
              rw [hindex, given_feature_ne hne, @ih (j + 1) k (Nat.lt_of_succ_lt_succ h),
                List.length_cons (a := tag), List.getD_cons_succ]
              simp only [Nat.add_right_cancel_iff]

theorem firstType_spread {type k : Nat} {before after : List NeMrph} {parts : List (List NeMrph)}
    (htypes : ∀ m ∈ parts.flatten, m.type = type) (hne : ∀ p ∈ parts, p ≠ [])
    (hk : k + 1 < parts.length) (h : 0 < k ∨ before = []) :
    firstType ((spread before after parts).getD k []) = typeText type := by
  induction parts generalizing before k with
  | nil => exact absurd hk (Nat.not_lt_zero _)
  | cons p ps ih =>
      cases ps with
      | nil => exact absurd (Nat.lt_of_succ_lt_succ hk) (Nat.not_lt_zero _)
      | cons q ps =>
          obtain ⟨hpne, hpsne⟩ := List.forall_mem_cons.mp hne
          rw [spread]
          cases k with
          | zero =>
              obtain ⟨m, rest, rfl⟩ := List.exists_cons_of_ne_nil hpne
              rw [h.resolve_left (Nat.lt_irrefl 0), List.getD_cons_zero, List.nil_append]
              exact congrArg typeText (htypes m (List.mem_append_left _ List.mem_cons_self))
          | succ k =>
              rw [List.getD_cons_succ]
              exact ih (fun m hm => htypes m (List.mem_append_right _ hm)) hpsne
                (Nat.lt_of_succ_lt_succ hk) (.inr rfl)

end Given

/-! ## A run -/

section Run

variable {j : Nat} {ms : List NeMrph} {tags : List (List NeMrph)}

/-- The run over the tags in front, whatever is behind them. -/
theorem assignTags_append {cp : Option String} (h : Ahead cp (tags.flatten ++ ms)) :
    ∃ events cp', (∀ rest, assignTags cp j (tags ++ rest) =
        (events ++ (assignTags cp' (j + tags.length) rest).1,
          (assignTags cp' (j + tags.length) rest).2)) ∧
      Ahead cp' ms ∧ ∀ j', j + tags.length ≤ j' → given events j' = [] := by
  induction tags generalizing cp j with
  | nil => exact ⟨[], cp, fun _ => rfl, h, fun _ _ => rfl⟩
  | cons tag tags ih =>
      rw [List.flatten_cons, List.append_assoc] at h
      obtain ⟨events, cp', hstep, hahead⟩ := tagStep_ahead (j := j) h
      obtain ⟨events', cp'', hrun, hahead', hgiven⟩ := @ih (j + 1) cp' hahead
      have hlen : j + 1 + tags.length = j + (tag :: tags).length := by
        rw [List.length_cons, Nat.add_assoc, Nat.add_comm 1]
      rw [hlen] at hrun hgiven
      refine ⟨events ++ events', cp'', ?_, hahead', ?_⟩
      · intro rest
        rw [List.cons_append, assignTags_step hstep, hrun rest, List.append_assoc]
      · intro j' hj'
        have hne : j ≠ j' := by
          rw [List.length_cons] at hj'
          omega
        have hfirst := @given_tagStep j j' tag hne cp
        rw [hstep] at hfirst
        rw [given_append, hfirst, hgiven j' hj']
        rfl

theorem ahead_none_of_units {units : List NeUnit} (h : ms = units.flatMap NeUnit.mrphs) :
    Ahead none ms := ⟨[], units, h, .inl rfl⟩

/-- Nothing is carried over to the first tag of an entity in which it is the first one. -/
theorem NeFront.run {units : List NeUnit} {before cut : List NeMrph}
    (h : NeFront (units.flatMap NeUnit.mrphs) tags before cut) :
    ∃ events, (∀ rest, assignNeFeatureTag (tags ++ rest) =
        (events ++ (assignTags none tags.length rest).1, (assignTags none tags.length rest).2)) ∧
      ∀ j', tags.length ≤ j' → given events j' = [] := by
  cases h with
  | first _ _ hcovers hothers =>
      obtain ⟨events, cp, hrun, hahead, hgiven⟩ :=
        assignTags_append (j := 0) (ahead_none_of_units hcovers)
      have hcp : cp = none := by
        cases before with
        | nil => exact hahead.eq_none_of_nil
        | cons m before => exact hahead.eq_none (hothers m List.mem_cons_self)
      rw [hcp, Nat.zero_add] at hrun
      rw [Nat.zero_add] at hgiven
      exact ⟨events, hrun, hgiven⟩
  | behind tags tag _ hcovers hanother =>
      obtain ⟨events, cp, hrun, hahead, hgiven⟩ :=
        assignTags_append (j := 0) (ahead_none_of_units hcovers)
      rw [Nat.zero_add] at hrun hgiven
      obtain ⟨events', hstep⟩ := @tagStep_cut _ tags.length cp cut hahead hanother
      refine ⟨events ++ events', ?_, ?_⟩
      · intro rest
        rw [assignNeFeatureTag, List.append_assoc, List.singleton_append, hrun,
          assignTags_step hstep, List.append_assoc, List.length_append, List.length_singleton]
      · intro j' hj'
        rw [List.length_append, List.length_singleton] at hj'
        have hlast := @given_tagStep tags.length j' (tag ++ cut) (Nat.ne_of_lt hj') cp
        rw [hstep] at hlast
        rw [given_append, hgiven j' (Nat.le_of_succ_le hj'), hlast]
        rfl

variable {s : NeSentence}

theorem NeSentence.ahead (s : NeSentence) : Ahead none s.tags.flatten :=
  ahead_none_of_units s.covers

/-- The run over the whole sentence. -/
theorem NeSentence.run (s : NeSentence) :
    (assignNeFeatureTag s.tags).2 = .done ∧
      ∀ j, s.tags.length ≤ j → given (assignNeFeatureTag s.tags).1 j = [] := by
  have hahead := s.ahead
  rw [← List.append_nil s.tags.flatten] at hahead
  obtain ⟨events, cp, hrun, hend, hgiven⟩ := assignTags_append (j := 0) hahead
  rw [hend.eq_none_of_nil, Nat.zero_add] at hrun
  rw [Nat.zero_add] at hgiven
  have hall := hrun []
  rw [List.append_nil] at hall
  rw [assignNeFeatureTag, hall]
  refine ⟨rfl, ?_⟩
  intro j hj
  rw [given_append, hgiven j hj]
  rfl

theorem NePlace.ending (p : NePlace s) (hne : p.parts.flatten ≠ []) :
    Ending p.type p.parts.flatten := by
  have hend := p.entity.ending p.fits
  rw [p.ms_eq] at hend
  exact hend.of_append hne

theorem NeFront.others {front before cut : List NeMrph} (h : NeFront front tags before cut) :
    ∀ m ∈ before, m.isOther = true := by
  cases h with
  | first _ _ _ hothers => exact hothers
  | behind _ _ _ _ _ =>
      intro m hm
      exact absurd hm List.not_mem_nil

theorem entityGiven (p : NePlace s) : EntityGiven (assignNeFeatureTag s.tags).1 p := by
  intro k hk
  obtain ⟨q, hq⟩ := List.exists_mem_of_length_pos (Nat.zero_lt_of_lt hk)
  have hflat : p.parts.flatten ≠ [] := by
    intro hnil
    exact p.parts_ne q hq (List.flatten_eq_nil_iff.mp hnil q hq)
  have hend := p.ending hflat
  obtain ⟨events, hrun, hgiven⟩ := p.place.run
  obtain ⟨m, hspan⟩ :=
    assignTags_span p.tagsBefore.length p.after p.tagsAfter p.place.others p.parts_ne hend
  have hlen : k < (spread p.before p.after p.parts).length := by
    rw [length_spread]
    exact hk
  have htag : given (assignNeFeatureTag s.tags).1 (p.tagsBefore.length + k) =
      if k + 1 = p.parts.length then [neText p.type p.parts.flatten]
      else ["NE内:" ++ firstType ((spread p.before p.after p.parts).getD k [])] := by
    rw [p.tags_eq, hrun, hspan, given_append, given_append, given_append,
      hgiven _ (Nat.le_add_right _ _), given_assignSm, given_spreadEvents hlen,
      given_assignTags (Nat.add_lt_add_left hk _), length_spread, List.append_nil]
    rfl
  refine ⟨?_, ?_⟩
  · intro hlast
    rw [htag, if_pos hlast]
  · intro hbefore
    refine ⟨firstType ((spread p.before p.after p.parts).getD k []), ?_, ?_⟩
    · rw [htag, if_neg hbefore.ne]
    · intro h
      exact firstType_spread hend.types p.parts_ne hbefore h

theorem given_others {front back : List (List NeMrph)} {tag : List NeMrph}
    (h : s.tags = front ++ tag :: back) (hothers : ∀ m ∈ tag, m.isOther = true) :
    given (assignNeFeatureTag s.tags).1 front.length = [] := by
  have hahead := s.ahead
  rw [h, List.flatten_append] at hahead
  obtain ⟨events, cp, hrun, htag, hgiven⟩ := assignTags_append (j := 0) hahead
  rw [Nat.zero_add] at hrun hgiven
  have hcp : cp = none := by
    obtain ⟨m, rest, rfl⟩ := List.exists_cons_of_ne_nil
      (s.tags_ne tag (h ▸ List.mem_append_right _ List.mem_cons_self))
    exact htag.eq_none (hothers m List.mem_cons_self)
  rw [h, assignNeFeatureTag, hrun, hcp, assignTags_step (tagStep_others hothers), given_append,
    hgiven _ le_rfl, given_append, given_assignTags (Nat.lt_succ_self _)]
  rfl

end Run

end NamedEntity

end Knp
