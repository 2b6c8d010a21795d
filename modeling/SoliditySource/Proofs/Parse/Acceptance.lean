import SoliditySource.Proofs.Grammar.Sentences

/-! # The texts that are source units

A text is read as a source unit exactly when it falls into tokens whose kinds are a sentence
of the grammar. Each slot of the unit then holds the last construct of its sort.
-/

namespace SoliditySource

open Phrase

/-! ## Outcomes and verdicts -/

theorem Place.Upcoming.isEnd {place : Place} {ts : List Token} {ending : Except Fault Token}
    (h : place.Upcoming ts ending) : IsEnd ending.toOption := by
  intro t ht
  cases ending with
  | error fault => cases ht
  | ok eos =>
      cases ht
      exact h.isEos

/-- A construct is read with the outcome of a verdict that is sound for its phrases. -/
theorem TokenReader.parse_verdict {α : Type} (production : Production α) {r : TokenReader}
    {place : Place} {ts : List Token} {ending : Except Fault Token} (hr : r.At place)
    (hup : place.Upcoming ts ending) :
    ∃ v : Verdict α, v.Describes ending (r.parse production) ∧
      v.SoundUpTo (· = []) ending.toOption production.phrase ts :=
  ⟨_, Rule.run_describes (production.rule (r.weight + 1)) hr hup,
    production.sound hup.isEnd (Nat.lt_succ_of_le (length_le_weight hup hr))⟩

/-- A source unit is read to the end of the text. -/
theorem TokenReader.parse_sourceUnit_ok {r : TokenReader} {place : Place} {ts : List Token}
    {ending : Except Fault Token} {unit : SourceUnit} (hr : r.At place)
    (hup : place.Upcoming ts ending) (h : (r.parse .sourceUnit).result = .ok unit) :
    (∃ eos, ending = .ok eos) ∧ Phrase.sourceUnit.Spells ts unit := by
  have hlen := Nat.lt_succ_of_le (length_le_weight hup hr)
  have hsound := Production.sourceUnit.sound hup.isEnd hlen
  have hdescribes := Rule.run_describes (Production.sourceUnit.rule (r.weight + 1)) hr hup
  obtain ⟨rest, hv, -⟩ := hdescribes.of_ok h
  rw [hv] at hsound
  obtain ⟨used, rfl, ha, -⟩ := hsound
  obtain ⟨t, ht, hk⟩ := Grammar.eos_of_constructs (Nat.le_refl _) hup.isEnd hlen hv
  cases rest with
  | nil =>
      rw [List.append_nil]
      cases ending with
      | error fault => cases ht
      | ok eos => exact ⟨⟨eos, rfl⟩, ha⟩
  | cons u rest =>
      cases ht
      exact absurd hk (hup.ne_eos t (List.mem_append_right _ List.mem_cons_self))

/-- Tokens that make up a construct are read as it, and the end token is what comes next. -/
theorem TokenReader.parse_of_spells {α : Type} (production : Production α) {r : TokenReader}
    {place : Place} {ts : List Token} {eos : Token} {tree : α} (hr : r.At place)
    (hup : place.Upcoming ts (.ok eos)) (h : production.phrase.Spells ts tree) :
    (r.parse production).result = .ok tree ∧
      ∃ s, (r.parse production).reader.next = .ok eos s := by
  obtain ⟨v, hdescribes, hsound⟩ := parse_verdict production hr hup
  cases v with
  | value a rest =>
      obtain ⟨used, rfl, ha, hend⟩ := hsound
      obtain ⟨hresult, place', hr', hup'⟩ := hdescribes
      cases rest with
      | nil =>
          rw [List.append_nil] at h
          rw [production.predictive.unique h ha]
          refine ⟨hresult, ?_⟩
          cases hup' with
          | finished hread ht =>
              obtain ⟨s, hs, -⟩ := next_ok hr' hread
              exact ⟨s, hs⟩
      | cons t rest => exact absurd h.viable_append (hend t rfl)
  | refusal fault rest =>
      -- the refusal would stand inside the phrase or right behind it
      obtain ⟨used, back, t, rfl, ht, -, -, hn, hs⟩ := hsound
      cases back with
      | nil =>
          rw [List.append_nil] at h
          exact absurd h (hs rfl tree)
      | cons u back =>
          cases ht
          exact absurd h.viable_append hn
  | starved =>
      obtain ⟨fault, hf, -⟩ := hdescribes
      cases hf

/-! ## The slots of a source unit -/

/-- Constructs in a row are segments of the tokens, each with its tree. -/
theorem repeated_iff_segments {α : Type} {spells : List Token → α → Prop} {ts : List Token}
    {as : List α} :
    Repeated spells ts as ↔ ∃ segments : List (List Token), ts = segments.flatten ∧
      List.Forall₂ spells segments as := by
  constructor
  · intro h
    induction h with
    | nil => exact ⟨[], rfl, .nil⟩
    | @cons us vs a as h _ ih =>
        obtain ⟨segments, rfl, hall⟩ := ih
        exact ⟨us :: segments, rfl, .cons h hall⟩
  · rintro ⟨segments, rfl, hall⟩
    induction hall with
    | nil => exact .nil
    | cons h _ ih => exact .cons h ih

/-- A slot holds the last tree of its sort among `items`, and none if no segment is a
sentence of that sort. -/
structure SlotOf {α : Type} (sort? : TopLevel → Option α) (sentences : Language TokenKind)
    (segments : List (List Token)) (items : List TopLevel) (slot : Option α) : Prop where
  last : slot = (items.filterMap sort?).getLast?
  none_iff : slot = none ↔ ∀ segment ∈ segments, segment.map Token.kind ∉ sentences

/-- The slots of a unit that is made up of `items`, which stand for the `segments`. -/
structure SourceUnit.MadeUpOf (unit : SourceUnit) (segments : List (List Token))
    (items : List TopLevel) : Prop where
  spells : List.Forall₂ topLevel.Spells segments items
  pragma : SlotOf TopLevel.pragma? Sentence.pragmaDirective segments items unit.pragma
  imports : SlotOf TopLevel.imports? Sentence.importDirective segments items unit.imports
  contract : SlotOf TopLevel.contract? Sentence.contractDefinition segments items unit.contract
  function : SlotOf TopLevel.function? Sentence.functionDefinition segments items unit.function

theorem TopLevel.foldl_store (items : List TopLevel) (unit : SourceUnit) :
    items.foldl store unit =
      ⟨(items.filterMap pragma?).getLast?.or unit.pragma,
        (items.filterMap imports?).getLast?.or unit.imports,
        (items.filterMap contract?).getLast?.or unit.contract,
        (items.filterMap function?).getLast?.or unit.function⟩ := by
  induction items using List.reverseRecOn with
  | nil => rfl
  | append_singleton items item ih =>
      rw [List.foldl_append, ih]
      cases item <;> simp [store, pragma?, imports?, contract?, function?]

section

variable {α : Type} {p : Phrase α} (wrap : α → TopLevel) {sort? : TopLevel → Option α}

/-- A segment stands for a tree of some sort when it is a sentence of that sort. -/
theorem sort_eq_none_iff (hsort : ∀ x a, sort? x = some a ↔ x = wrap a)
    (hwrap : ∀ ts a, topLevel.Spells ts (wrap a) ↔ p.Spells ts a) {ts : List Token}
    {item : TopLevel} (h : topLevel.Spells ts item) :
    sort? item = none ↔ ts.map Token.kind ∉ p.language := by
  rw [← exists_spells_iff, not_exists]
  constructor
  · intro hnone a ha
    have heq := predictive_topLevel.unique h ((hwrap ts a).mpr ha)
    rw [(hsort item a).mpr heq] at hnone
    cases hnone
  · intro hall
    cases hi : sort? item with
    | none => rfl
    | some a =>
        have heq := (hsort item a).mp hi
        rw [heq] at h
        exact absurd ((hwrap ts a).mp h) (hall a)

theorem slotOf_last (hsort : ∀ x a, sort? x = some a ↔ x = wrap a)
    (hwrap : ∀ ts a, topLevel.Spells ts (wrap a) ↔ p.Spells ts a)
    {segments : List (List Token)} {items : List TopLevel}
    (h : List.Forall₂ topLevel.Spells segments items) :
    SlotOf sort? p.language segments items (items.filterMap sort?).getLast? := by
  refine ⟨rfl, ?_⟩
  rw [List.getLast?_eq_none_iff, List.filterMap_eq_nil_iff]
  induction h with
  | nil => simp
  | cons h _ ih =>
      rw [List.forall_mem_cons, List.forall_mem_cons, ih, sort_eq_none_iff wrap hsort hwrap h]

end

theorem SourceUnit.madeUpOf_iff {unit : SourceUnit} {segments : List (List Token)}
    {items : List TopLevel} :
    unit.MadeUpOf segments items ↔
      List.Forall₂ topLevel.Spells segments items ∧ unit = items.foldl TopLevel.store .empty := by
  rw [TopLevel.foldl_store]
  simp only [SourceUnit.empty, Option.or_none]
  constructor
  · intro h
    refine ⟨h.spells, ?_⟩
    rw [← h.pragma.last, ← h.imports.last, ← h.contract.last, ← h.function.last]
  · rintro ⟨h, rfl⟩
    refine ⟨h, ?_, ?_, ?_, ?_⟩
    · rw [← language_pragmaDirective]
      refine slotOf_last .pragma (fun x a => ?_) (fun ts a => ?_) h
      · cases x <;> simp [TopLevel.pragma?]
      · simp [topLevel, Spells, Functor.map]
    · rw [← language_importDirective]
      refine slotOf_last .imports (fun x a => ?_) (fun ts a => ?_) h
      · cases x <;> simp [TopLevel.imports?]
      · simp [topLevel, Spells, Functor.map]
    · rw [← language_contractDefinition]
      refine slotOf_last .contract (fun x a => ?_) (fun ts a => ?_) h
      · cases x <;> simp [TopLevel.contract?]
      · simp [topLevel, Spells, Functor.map]
    · rw [← language_functionDefinition]
      refine slotOf_last .function (fun x a => ?_) (fun ts a => ?_) h
      · cases x <;> simp [TopLevel.function?]
      · simp [topLevel, Spells, Functor.map]

theorem spells_sourceUnit_iff {ts : List Token} {unit : SourceUnit} :
    Phrase.sourceUnit.Spells ts unit ↔
      ∃ segments items, ts = segments.flatten ∧ unit.MadeUpOf segments items := by
  constructor
  · rintro ⟨items, h, rfl⟩
    obtain ⟨segments, rfl, hall⟩ := repeated_iff_segments.mp h
    exact ⟨segments, items, rfl, SourceUnit.madeUpOf_iff.mpr ⟨hall, rfl⟩⟩
  · rintro ⟨segments, items, rfl, h⟩
    obtain ⟨hall, rfl⟩ := SourceUnit.madeUpOf_iff.mp h
    exact ⟨items, repeated_iff_segments.mpr ⟨segments, rfl, hall⟩, rfl⟩

/-! ## Acceptance -/

/-- Handing out all tokens comes to an end with the end token. -/
theorem TokenReader.all_eq_ok_iff {r : TokenReader} {place : Place} {ts us : List Token}
    {ending : Except Fault Token} {eos : Token} (hr : r.At place) (hup : place.Upcoming ts ending) :
    (∃ s, r.all = .ok (us ++ [eos]) s) ↔ us = ts ∧ ending = .ok eos := by
  obtain ⟨s, hs⟩ := all_upcoming hup hr
  rw [hs]
  cases ending with
  | ok t => simp [total, eq_comm]
  | error fault => simp [total]

/-- A text is a source unit exactly when its tokens, the end token apart, are a sentence of
the grammar. They then fall into segments, one for each construct, and each slot holds the
last construct of its sort. -/
theorem SourceUnit.parse_eq_ok_iff (text : String) :
    ((∃ unit, SourceUnit.parse text = .ok unit) ↔
      ∃ ts eos s, (TokenReader.ofFeed (.ofText text.toList)).all = .ok (ts ++ [eos]) s ∧
        eos.kind = .eos ∧ ts.map Token.kind ∈ Sentence.sourceUnit) ∧
    ∀ unit, SourceUnit.parse text = .ok unit ↔
      ∃ segments items eos s,
        (TokenReader.ofFeed (.ofText text.toList)).all = .ok (segments.flatten ++ [eos]) s ∧
          eos.kind = .eos ∧ unit.MadeUpOf segments items := by
  have hr := TokenReader.at_ofFeed text.toList
  obtain ⟨ts, ending, hup⟩ := (Place.ofText text.toList).exists_upcoming
  have hunit : ∀ unit, SourceUnit.parse text = .ok unit ↔
      (∃ eos, ending = .ok eos) ∧ Phrase.sourceUnit.Spells ts unit := by
    intro unit
    constructor
    · exact TokenReader.parse_sourceUnit_ok hr hup
    · rintro ⟨⟨eos, rfl⟩, hunit⟩
      exact (TokenReader.parse_of_spells .sourceUnit hr hup hunit).1
  constructor
  · constructor
    · rintro ⟨unit, h⟩
      obtain ⟨⟨eos, rfl⟩, hspells⟩ := (hunit unit).mp h
      obtain ⟨s, hs⟩ := (TokenReader.all_eq_ok_iff hr hup).mpr ⟨rfl, rfl⟩
      refine ⟨ts, eos, s, hs, hup.isEos, ?_⟩
      rw [← language_sourceUnit, ← exists_spells_iff]
      exact ⟨unit, hspells⟩
    · rintro ⟨us, eos, s, hs, -, hmem⟩
      obtain ⟨rfl, rfl⟩ := (TokenReader.all_eq_ok_iff hr hup).mp ⟨s, hs⟩
      rw [← language_sourceUnit, ← exists_spells_iff] at hmem
      obtain ⟨unit, hspells⟩ := hmem
      exact ⟨unit, (hunit unit).mpr ⟨⟨eos, rfl⟩, hspells⟩⟩
  · intro unit
    rw [hunit, spells_sourceUnit_iff]
    constructor
    · rintro ⟨⟨eos, rfl⟩, segments, items, rfl, h⟩
      obtain ⟨s, hs⟩ := (TokenReader.all_eq_ok_iff hr hup).mpr ⟨rfl, rfl⟩
      exact ⟨segments, items, eos, s, hs, hup.isEos, h⟩
    · rintro ⟨segments, items, eos, s, hs, -, h⟩
      obtain ⟨rfl, rfl⟩ := (TokenReader.all_eq_ok_iff hr hup).mp ⟨s, hs⟩
      exact ⟨⟨eos, rfl⟩, segments, items, rfl, h⟩

end SoliditySource
