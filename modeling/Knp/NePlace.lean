import Knp.NeTagRun

/-!
# The tags of the entities (`proper.c`)

A tag that has an entity has a first one. It begins in the tag, or it comes from a tag
before; the tags in between are its own.

> Every tag that has an entity is one of those in which some entity is the first one.

So what every tag of a sentence gets is known.
-/

namespace Knp

namespace NamedEntity

section Place

variable {front back tags : List (List NeMrph)} {tag ms rest before after : List NeMrph}
  {units : List NeUnit}

theorem spread_cons {p : List NeMrph} {parts : List (List NeMrph)} (hparts : parts ≠ []) :
    spread before after (p :: parts) = (before ++ p) :: spread [] after parts := by
  obtain ⟨q, ps, rfl⟩ := List.exists_cons_of_ne_nil hparts
  rfl

theorem spread_append {parts : List (List NeMrph)} (hparts : parts ≠ []) :
    spread [] after (front ++ parts) = front ++ spread [] after parts := by
  induction front with
  | nil => rfl
  | cons p front ih =>
      rw [List.cons_append, spread_cons (List.append_ne_nil_of_right_ne_nil front hparts), ih]
      rfl

/-- The tags over which an entity is spread that begins in the first one. -/
theorem exists_spread (hne : ∀ t ∈ back, t ≠ []) (htag : tag ≠ []) (hms : ms ≠ [])
    (h : tag ++ back.flatten = ms ++ rest) :
    ∃ parts after back', parts ≠ [] ∧ (∀ p ∈ parts, p ≠ []) ∧ parts.flatten = ms ∧
      (before ++ tag) :: back = spread before after parts ++ back' := by
  induction back generalizing tag ms before with
  | nil =>
      rw [List.flatten_nil, List.append_nil] at h
      refine ⟨[ms], rest, [], List.cons_ne_nil _ _, List.forall_mem_singleton.mpr hms, ?_, ?_⟩
      · exact List.append_nil ms
      · rw [h]
        rfl
  | cons t back ih =>
      obtain ⟨ht, hback⟩ := List.forall_mem_cons.mp hne
      rw [List.flatten_cons] at h
      rcases List.append_eq_append_iff.mp h with ⟨a, rfl, hrest⟩ | ⟨c, rfl, -⟩
      · by_cases ha : a = []
        · refine ⟨[tag], [], t :: back, List.cons_ne_nil _ _,
            List.forall_mem_singleton.mpr htag, ?_, ?_⟩
          · rw [ha]
            rfl
          · rw [spread, List.append_nil]
            rfl
        · obtain ⟨parts, after, back', hparts, hpne, hflat, hspread⟩ := @ih t a [] hback ht ha hrest
          refine ⟨tag :: parts, after, back', List.cons_ne_nil _ _,
            List.forall_mem_cons.mpr ⟨htag, hpne⟩, ?_, ?_⟩
          · rw [List.flatten_cons, hflat]
          · rw [spread_cons hparts, List.cons_append, ← hspread]
            rfl
      · refine ⟨[ms], c, t :: back, List.cons_ne_nil _ _,
          List.forall_mem_singleton.mpr hms, ?_, rfl⟩
        exact List.append_nil ms

/-- A point in the sentence is between two units or inside an entity. -/
theorem exists_cut (h : tag ++ ms = units.flatMap NeUnit.mrphs) :
    (∃ front back, units = front ++ back ∧ tag = front.flatMap NeUnit.mrphs ∧
        ms = back.flatMap NeUnit.mrphs) ∨
      ∃ (front : List NeUnit) (type : Nat) (a b : List NeMrph) (entity : IsEntity type (a ++ b))
        (fits : (neText type (a ++ b)).utf8ByteSize < WORD_LEN_MAX * 16) (back : List NeUnit),
        units = front ++ .entity type (a ++ b) entity fits :: back ∧ a ≠ [] ∧ b ≠ [] ∧
        tag = front.flatMap NeUnit.mrphs ++ a ∧ ms = b ++ back.flatMap NeUnit.mrphs := by
  induction units generalizing tag with
  | nil =>
      obtain ⟨rfl, rfl⟩ := List.append_eq_nil_iff.mp h
      exact .inl ⟨[], [], rfl, rfl, rfl⟩
  | cons u units ih =>
      rw [List.flatMap_cons] at h
      rcases List.append_eq_append_iff.mp h with ⟨b, hu, hms⟩ | ⟨c, rfl, hrest⟩
      · by_cases htag : tag = []
        · rw [htag, List.nil_append] at h
          exact .inl ⟨[], u :: units, rfl, htag, h⟩
        · by_cases hb : b = []
          · rw [hb] at hu hms
            refine .inl ⟨[u], units, rfl, ?_, hms⟩
            rw [List.append_nil] at hu
            rw [← hu, List.flatMap_singleton]
          · cases u with
            | other m hother =>
                have hlen := congrArg List.length hu
                have htag' := List.length_pos_iff.mpr htag
                have hb' := List.length_pos_iff.mpr hb
                rw [NeUnit.mrphs, List.length_append, List.length_singleton] at hlen
                omega
            | entity type ms' entity fits =>
                rw [NeUnit.mrphs] at hu
                subst hu
                exact .inr ⟨[], type, tag, b, entity, fits, units, rfl, htag, hb, rfl, hms⟩
      · rcases ih hrest.symm with ⟨front, back, rfl, rfl, hms⟩ |
          ⟨front, type, a, b, entity, fits, back, rfl, ha, hb, rfl, hms⟩
        · exact .inl ⟨u :: front, back, rfl, List.flatMap_cons.symm, hms⟩
        · refine .inr ⟨u :: front, type, a, b, entity, fits, back, rfl, ha, hb, ?_, hms⟩
          rw [List.flatMap_cons, List.append_assoc]

/-- The tag in which the last morphemes of the tags begin. -/
theorem exists_begin {a : List NeMrph} (ha : a ≠ []) (h : front.flatten = ms ++ a) :
    ∃ (tf : List (List NeMrph)) (t a₀ : List NeMrph) (tf₂ : List (List NeMrph)),
      front = tf ++ (t ++ a₀) :: tf₂ ∧ tf.flatten ++ t = ms ∧ a₀ ≠ [] ∧
        a = a₀ ++ tf₂.flatten := by
  induction front generalizing ms with
  | nil => exact absurd (List.append_eq_nil_iff.mp h.symm).2 ha
  | cons tag front ih =>
      rw [List.flatten_cons] at h
      rcases List.append_eq_append_iff.mp h with ⟨c, rfl, hrest⟩ | ⟨c, rfl, rfl⟩
      · obtain ⟨tf, t, a₀, tf₂, rfl, rfl, ha₀, hflat⟩ := ih hrest
        refine ⟨tag :: tf, t, a₀, tf₂, rfl, ?_, ha₀, hflat⟩
        rw [List.flatten_cons, List.append_assoc]
      · by_cases hc : c = []
        · rw [hc, List.nil_append] at ih ⊢
          obtain ⟨tf, t, a₀, tf₂, rfl, hnil, ha₀, hflat⟩ := @ih [] rfl
          refine ⟨(ms ++ []) :: tf, t, a₀, tf₂, rfl, ?_, ha₀, hflat⟩
          rw [List.flatten_cons, List.append_assoc, hnil, List.append_nil, List.append_nil]
        · exact ⟨[], ms, c, front, rfl, rfl, hc, rfl⟩

/-- A tag that an entity of the tags in front of it reaches into. -/
theorem exists_place_across {s : NeSentence} (h : s.tags = front ++ tag :: back)
    (hfront : ∀ t ∈ front, t ≠ []) (htag : tag ≠ []) (hback : ∀ t ∈ back, t ≠ [])
    {units₁ units₂ : List NeUnit} {type : Nat} {a b : List NeMrph}
    {entity : IsEntity type (a ++ b)}
    {fits : (neText type (a ++ b)).utf8ByteSize < WORD_LEN_MAX * 16}
    (hunits : s.units = units₁ ++ .entity type (a ++ b) entity fits :: units₂)
    (ha : a ≠ []) (hb : b ≠ []) (hu₁ : front.flatten = units₁.flatMap NeUnit.mrphs ++ a)
    (hu₂ : tag ++ back.flatten = b ++ units₂.flatMap NeUnit.mrphs) :
    ∃ p : NePlace s, ∃ k < p.parts.length, p.tagsBefore.length + k = front.length := by
  obtain ⟨tf, t, a₀, tf₂, rfl, ht, ha₀, rfl⟩ := exists_begin ha hu₁
  obtain ⟨parts, after, back', hparts, hpne, hflat, hspread⟩ :=
    @exists_spread back tag b (units₂.flatMap NeUnit.mrphs) [] hback htag hb hu₂
  rw [List.nil_append] at hspread
  have hmiddle : ∀ p ∈ tf₂ ++ parts, p ≠ [] := by
    intro p hp
    rcases List.mem_append.mp hp with hp | hp
    · exact hfront p (List.mem_append_right _ (List.mem_cons_of_mem _ hp))
    · exact hpne p hp
  have hpos := List.length_pos_iff.mpr hparts
  by_cases hothers : ∀ m ∈ t, m.isOther = true
  · refine ⟨{
      front := units₁
      type := type
      ms := a₀ ++ tf₂.flatten ++ b
      entity := entity
      fits := fits
      back := units₂
      units_eq := hunits
      tagsBefore := tf
      before := t
      cut := []
      place := .first tf t ht hothers
      parts := a₀ :: (tf₂ ++ parts)
      parts_ne := List.forall_mem_cons.mpr ⟨ha₀, hmiddle⟩
      ms_eq := by rw [List.nil_append, List.flatten_cons, List.flatten_append, hflat,
        List.append_assoc]
      after := after
      tagsAfter := back'
      tags_eq := ?_ }, tf₂.length + 1, ?_, ?_⟩
    · rw [h, hspread, spread_cons (List.append_ne_nil_of_right_ne_nil tf₂ hparts),
        spread_append hparts, List.append_assoc, List.cons_append, List.cons_append,
        List.append_assoc]
    · rw [List.length_cons, List.length_append]
      omega
    · rw [List.length_append, List.length_cons]
  · refine ⟨{
      front := units₁
      type := type
      ms := a₀ ++ tf₂.flatten ++ b
      entity := entity
      fits := fits
      back := units₂
      units_eq := hunits
      tagsBefore := tf ++ [t ++ a₀]
      before := []
      cut := a₀
      place := .behind tf t a₀ ht ?_
      parts := tf₂ ++ parts
      parts_ne := hmiddle
      ms_eq := by rw [List.flatten_append, hflat, List.append_assoc]
      after := after
      tagsAfter := back'
      tags_eq := ?_ }, tf₂.length, ?_, ?_⟩
    · obtain ⟨m, hm, hother⟩ := not_forall₂.mp hothers
      exact ⟨m, hm, Bool.not_eq_true _ ▸ hother⟩
    · rw [h, hspread, spread_append hparts, List.append_assoc, List.append_assoc,
        List.append_assoc, List.cons_append]
      rfl
    · rw [List.length_append]
      omega
    · simp only [List.length_append, List.length_cons, List.length_nil]
      omega

/-- Every tag that has an entity is one of those in which some entity is the first one. -/
theorem exists_place {s : NeSentence} (h : s.tags = front ++ tag :: back)
    (hentity : ∃ m ∈ tag, m.isOther = false) :
    ∃ p : NePlace s, ∃ k < p.parts.length, p.tagsBefore.length + k = front.length := by
  have hcovers := s.covers
  have htags := s.tags_ne
  rw [h] at hcovers htags
  rw [List.flatten_append, List.flatten_cons] at hcovers
  rw [List.forall_mem_append, List.forall_mem_cons] at htags
  obtain ⟨hfront, htag, hback⟩ := htags
  rcases exists_cut hcovers with ⟨units₁, units₂, hunits, hu₁, hu₂⟩ |
    ⟨units₁, type, a, b, entity, fits, units₂, hunits, ha, hb, hu₁, hu₂⟩
  · rcases exists_first hu₂ with hall |
      ⟨others, tag', type, ms', entity, fits, units₃, rfl, rfl, hothers, htag', hfirst⟩
    · obtain ⟨m, hm, hother⟩ := hentity
      rw [hall m hm] at hother
      cases hother
    · obtain ⟨parts, after, back', hparts, hpne, hflat, hspread⟩ :=
        @exists_spread back tag' ms' (units₃.flatMap NeUnit.mrphs) (others.flatMap NeUnit.mrphs)
          hback htag' entity.closes.ne_nil hfirst
      refine ⟨{
        front := units₁ ++ others
        type := type
        ms := ms'
        entity := entity
        fits := fits
        back := units₃
        units_eq := by rw [hunits, List.append_assoc]
        tagsBefore := front
        before := others.flatMap NeUnit.mrphs
        cut := []
        place := .first front _ (by rw [hu₁, List.flatMap_append]) hothers
        parts := parts
        parts_ne := hpne
        ms_eq := hflat.symm
        after := after
        tagsAfter := back'
        tags_eq := by rw [h, hspread] }, 0, List.length_pos_iff.mpr hparts, rfl⟩
  · exact exists_place_across h hfront htag hback hunits ha hb hu₁ hu₂

end Place

/-- Every entity is given to the tags in which it is the first one, and nothing else is. -/
theorem tagLaw (s : NeSentence) : TagLaw s where
  inside := s.run.1
  placed _ _ _ h hentity := exists_place h hentity
  entity := entityGiven
  other _ _ _ h hothers := given_others h hothers
  behind := s.run.2

/-- A person and a place in one tag. -/
def person : NeMrph where
  f := ["NE:PERSON:single"]
  goi2 := "太郎"
  classed := by decide +kernel

def location : NeMrph where
  f := ["NE:LOCATION:single"]
  goi2 := "京都"
  classed := by decide +kernel

theorem isEntity_single {m : NeMrph} (hother : m.isOther = false) (hpos : m.position = SINGLE) :
    IsEntity m.type [m] := ⟨hother, rfl, .inl ⟨hpos, rfl⟩⟩

def personUnit : NeUnit :=
  .entity 1 [person] (isEntity_single (by decide +kernel) (by decide +kernel)) (by decide +kernel)

def twoEntities : NeSentence where
  units := [personUnit,
    .entity 2 [location] (isEntity_single (by decide +kernel) (by decide +kernel))
      (by decide +kernel)]
  tags := [[person, location]]
  tags_ne := by decide
  covers := rfl

theorem secondEntity_lost : ¬ FullText twoEntities := by
  intro h
  have hgiven := h [personUnit] 2 [location] _ _ [] rfl [] [person, location] [] rfl
    (by decide) (by decide)
  have hnot : neText 2 [location] ∉ given (assignNeFeatureTag twoEntities.tags).1 0 := by
    decide +kernel
  exact hnot hgiven

end NamedEntity

end Knp
