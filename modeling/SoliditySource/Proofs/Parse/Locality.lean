import SoliditySource.Proofs.Parse.Acceptance

/-! # Where a text is refused

A production that fails has read the beginning of a sentence, and the token it points at is
the first one that breaks it. What stands behind that token is not looked at: a text that
does not even fall into tokens is refused for the earlier one of the two reasons.
-/

namespace SoliditySource

open Phrase

/-- The tokens are the beginning of a sentence of the production. -/
def Production.Begins {α : Type} (production : Production α) (ts : List Token) : Prop :=
  ∃ w, ts.map Token.kind ++ w ∈ production.language

/-- The first of the tokens that no sentence of the production goes on with is `t`. -/
def Production.BreaksAt {α : Type} (production : Production α) (ts : List Token) (t : Token) :
    Prop :=
  ∃ front back, ts = front ++ t :: back ∧ production.Begins front ∧
    ¬ production.Begins (front ++ [t])

theorem Production.begins_iff {α : Type} (production : Production α) (ts : List Token) :
    production.Begins ts ↔ production.phrase.Viable ts := by
  rw [Begins, viable_iff, language_phrase]

/-- The reader hands out the tokens, one after the other, and becomes `s`. -/
inductive TokenReader.Hands : TokenReader → List Token → TokenReader → Prop where
  | nil (r : TokenReader) : Hands r [] r
  | cons {r s u : TokenReader} {t : Token} {ts : List Token} (h : r.next = .ok t s)
      (hs : Hands s ts u) : Hands r (t :: ts) u

/-- A reader that fails has handed out all tokens ahead, and fails with what comes after them. -/
theorem TokenReader.Hands.upcoming {r s s' : TokenReader} {us : List Token} {e : SourceError}
    (h : r.Hands us s) (he : s.next = .error e s') {place : Place} {ts : List Token}
    {ending : Except Fault Token} (hr : r.At place) (hup : place.Upcoming ts ending) :
    us = ts ∧ ∃ fault, ending = .error fault ∧ e = .refused fault := by
  induction h generalizing place ts with
  | nil r =>
      cases hup with
      | refused hread =>
          obtain ⟨u, hu⟩ := next_error hr hread
          cases he.symm.trans hu
          exact ⟨rfl, _, rfl, rfl⟩
      | finished hread _ =>
          obtain ⟨u, hu, -⟩ := next_ok hr hread
          cases he.symm.trans hu
      | token hread _ _ =>
          obtain ⟨u, hu, -⟩ := next_ok hr hread
          cases he.symm.trans hu
  | cons hnext _ ih =>
      cases hup with
      | refused hread =>
          obtain ⟨u, hu⟩ := next_error hr hread
          cases hnext.symm.trans hu
      | finished hread ht =>
          -- behind the end token there is nothing to fail at
          obtain ⟨u, hu, ha⟩ := next_ok hr hread
          cases hnext.symm.trans hu
          obtain ⟨-, fault, hf, -⟩ := ih he ha (.finished (Place.read_eos hread ht) ht)
          cases hf
      | token hread _ hup =>
          obtain ⟨u, hu, ha⟩ := next_ok hr hread
          cases hnext.symm.trans hu
          obtain ⟨rfl, hfault⟩ := ih he ha hup
          exact ⟨rfl, hfault⟩

/-- A verdict that refuses points at the token that breaks the beginning of a sentence. -/
theorem Verdict.SoundUpTo.breaksAt {α : Type} {stop : List Token → Prop} {end? : Option Token}
    {production : Production α} {ts rest : List Token} {fault : Fault}
    (h : (Verdict.refusal fault rest).SoundUpTo stop end? production.phrase ts) :
    ∃ t, fault.position = t.position ∧ production.BreaksAt (ts ++ end?.toList) t := by
  obtain ⟨used, back, t, rfl, ht, hpos, hviable, hn, -⟩ := h
  have hback : ∃ back', back ++ end?.toList = t :: back' := by
    cases back with
    | nil =>
        have hend : end? = some t := ht
        exact ⟨[], by rw [hend]; rfl⟩
    | cons u back =>
        cases ht
        exact ⟨back ++ end?.toList, rfl⟩
  obtain ⟨back', hback⟩ := hback
  refine ⟨t, hpos, used, back', ?_, (production.begins_iff used).mpr hviable,
    fun hb => hn ((production.begins_iff _).mp hb)⟩
  rw [List.append_assoc, hback]

theorem TokenReader.refused_at_break {α : Type} (production : Production α) {r : TokenReader}
    {place : Place} {ts : List Token} {eos : Token} {e : SourceError} (hr : r.At place)
    (hup : place.Upcoming ts (.ok eos)) (h : (r.parse production).result = .error e) :
    ∃ fault t, e = .refused fault ∧ fault.position = t.position ∧
      production.BreaksAt (ts ++ [eos]) t := by
  obtain ⟨v, hdescribes, hsound⟩ := parse_verdict production hr hup
  cases v with
  | value a rest => cases h.symm.trans hdescribes.1
  | refusal fault rest =>
      cases h.symm.trans hdescribes.1
      obtain ⟨t, hpos, hbreaks⟩ := hsound.breaksAt
      exact ⟨fault, t, rfl, hpos, hbreaks⟩
  | starved =>
      obtain ⟨fault, hf, -⟩ := hdescribes
      cases hf

theorem TokenReader.refused_before_fault {r : TokenReader} {place : Place} {ts : List Token}
    {fault : Fault} (hr : r.At place) (hup : place.Upcoming ts (.error fault)) :
    (∃ earlier t, (r.parse .sourceUnit).result = .error (.refused earlier) ∧
        earlier.position = t.position ∧ Production.sourceUnit.BreaksAt ts t) ∨
      (Production.sourceUnit.Begins ts ∧
        (r.parse .sourceUnit).result = .error (.refused fault)) := by
  obtain ⟨v, hdescribes, hsound⟩ := parse_verdict .sourceUnit hr hup
  cases v with
  | value a rest =>
      obtain ⟨⟨eos, heos⟩, -⟩ := parse_sourceUnit_ok hr hup hdescribes.1
      cases heos
  | refusal earlier rest =>
      obtain ⟨t, hpos, hbreaks⟩ := hsound.breaksAt
      rw [show (Except.error fault : Except Fault Token).toOption.toList = [] from rfl,
        List.append_nil] at hbreaks
      exact .inl ⟨earlier, t, hdescribes.1, hpos, hbreaks⟩
  | starved =>
      obtain ⟨fault', hf, hresult⟩ := hdescribes
      cases hf
      exact .inr ⟨(Production.begins_iff _ ts).mpr hsound.2, hresult⟩

/-- A production that fails on a text that falls into tokens points at the first token that
no sentence goes on with; this may be the end token. When the text does not fall into tokens,
a source unit is refused at such a token among those before, or else for what keeps the text
from falling into tokens. -/
theorem TokenReader.parse_error_locality (text : String) :
    (∀ {α : Type} (production : Production α) (ts : List Token) (s : TokenReader)
        (e : SourceError), (ofFeed (.ofText text.toList)).all = .ok ts s →
      ((ofFeed (.ofText text.toList)).parse production).result = .error e →
      ∃ fault t, e = .refused fault ∧ fault.position = t.position ∧ production.BreaksAt ts t) ∧
    ∀ (ts : List Token) (s s' : TokenReader) (e : SourceError),
      (ofFeed (.ofText text.toList)).Hands ts s → s.next = .error e s' →
      (∃ fault t, SourceUnit.parse text = .error (.refused fault) ∧
          fault.position = t.position ∧ Production.sourceUnit.BreaksAt ts t) ∨
        (Production.sourceUnit.Begins ts ∧ SourceUnit.parse text = .error e) := by
  have hr := at_ofFeed text.toList
  obtain ⟨ts, ending, hup⟩ := (Place.ofText text.toList).exists_upcoming
  constructor
  · intro α production us s e hall herror
    obtain ⟨s', hs'⟩ := all_upcoming hup hr
    rw [hs'] at hall
    cases ending with
    | error fault => cases hall
    | ok eos =>
        cases hall
        exact refused_at_break production hr hup herror
  · intro us s s' e hhands herror
    obtain ⟨rfl, fault, rfl, rfl⟩ := hhands.upcoming herror hr hup
    exact refused_before_fault hr hup

theorem TokenReader.parse_error_locality_import :
    (∃ fault t, SourceUnit.parse "import 1" = .error (.refused fault) ∧
        fault.position = t.position ∧ Production.sourceUnit.BreaksAt
          [⟨.kwImport, "import".toList, ⟨1, 1⟩⟩, ⟨.number, ['1'], ⟨1, 8⟩⟩, .eos ⟨1, 9⟩] t) ∧
      ((∃ fault t, SourceUnit.parse "import \\" = .error (.refused fault) ∧
          fault.position = t.position ∧ Production.sourceUnit.BreaksAt
            [⟨.kwImport, "import".toList, ⟨1, 1⟩⟩] t) ∨
        (Production.sourceUnit.Begins [⟨.kwImport, "import".toList, ⟨1, 1⟩⟩] ∧
          SourceUnit.parse "import \\" = .error (.refused ⟨⟨1, 8⟩, .strayBackslash⟩))) := by
  constructor
  · have hr := at_ofFeed "import 1".toList
    have hup : (Place.ofText "import 1".toList).Upcoming
        [⟨.kwImport, "import".toList, ⟨1, 1⟩⟩, ⟨.number, ['1'], ⟨1, 8⟩⟩] (.ok (.eos ⟨1, 9⟩)) :=
      .token (n := ⟨" 1".toList, ⟨1, 7⟩⟩) rfl rfl
        (.token (n := ⟨[], ⟨1, 9⟩⟩) rfl rfl (.finished (n := ⟨[], ⟨1, 9⟩⟩) rfl rfl))
    obtain ⟨s, hs⟩ := all_upcoming hup hr
    have hdescribes : (Verdict.refusal (α := SourceUnit) ⟨⟨1, 8⟩, .missing .importElement⟩
        [⟨.number, ['1'], ⟨1, 8⟩⟩]).Describes (.ok (.eos ⟨1, 9⟩))
        ((ofFeed (.ofText "import 1".toList)).parse .sourceUnit) :=
      Rule.run_describes (Production.sourceUnit.rule _) hr hup
    obtain ⟨fault, t, he, hpos, hbreaks⟩ :=
      (parse_error_locality "import 1").1 .sourceUnit _ s _ hs hdescribes.1
    cases he
    exact ⟨_, t, hdescribes.1, hpos, hbreaks⟩
  · have hr := at_ofFeed "import \\".toList
    have hread : (Place.ofText "import \\".toList).read =
        .ok (⟨.kwImport, "import".toList, ⟨1, 1⟩⟩, ⟨" \\".toList, ⟨1, 7⟩⟩) := rfl
    have hfault : (Place.mk " \\".toList ⟨1, 7⟩).read =
        .error ⟨⟨1, 8⟩, .strayBackslash⟩ := rfl
    obtain ⟨s, hs, ha⟩ := next_ok hr hread
    obtain ⟨s', hs'⟩ := next_error ha hfault
    exact (parse_error_locality "import \\").2 _ s s' _ (.cons hs (.nil s)) hs'

end SoliditySource
