import SoliditySource.Proofs.Reparse.Relocation
import SoliditySource.Proofs.Reparse.Slice
import SoliditySource.Proofs.Token.Behind

/-! # Tokens of a part of a text

A token stays the token that it is when what comes after it is cut short, and the runes of
a token alone do not say where it stands. So a part of a text that starts with a token and
ends with one falls into the same tokens, at other positions.
-/

namespace SoliditySource

/-! ## Tokens at other positions -/

theorem Token.position_le_last (t : Token) : t.position ≤ t.last := Position.le_lastRune _ _

theorem Token.last_eq_advance (t : Token) : t.last = t.position.advance t.text.dropLast :=
  Position.lastRune_eq_advance _ _

namespace Place

/-- What a token that is not the end token takes from a text. -/
structure Takes (place next : Place) (t : Token) (blanks : List Char) : Prop where
  runes : place.runes = blanks ++ (t.text ++ next.runes)
  blank : ∀ c ∈ blanks, Rune.isBlank c = true
  solid : (t.text ++ next.runes).head?.any Rune.isBlank = false
  ne_nil : t.text ≠ []
  position : t.position = place.position.advance blanks
  next_position : next.position = t.position.advance t.text
  token : Runes.token (t.text ++ next.runes) = .ok (t.kind, t.text)

theorem takes_of_read {place next : Place} {t : Token} (h : place.read = .ok (t, next))
    (ht : t.isEos = false) : place.Takes next t (place.runes.takeWhile Rune.isBlank) := by
  rw [read] at h
  cases hs : place.solid.runes with
  | nil =>
      rw [hs, Runes.token, locate] at h
      cases h
      cases ht
  | cons first rest =>
      cases hx : Runes.token (first :: rest) with
      | error e => rw [hs, hx, locate] at h; cases h
      | ok found =>
          obtain ⟨kind, text⟩ := found
          rw [hs, hx, locate] at h
          cases h
          obtain ⟨hne, ⟨after, hafter⟩, -⟩ := Runes.token_cons hx
          have hnext : (place.solid.past text).runes = after := by
            rw [past, hs, ← hafter, List.drop_left]
          have hsolid : (first :: rest).head?.any Rune.isBlank = false := by
            have hnot := List.head?_dropWhile_not Rune.isBlank place.runes
            change place.runes.dropWhile Rune.isBlank = first :: rest at hs
            rw [hs] at hnot
            exact hnot
          refine ⟨?_, fun c hc => Runes.mem_takeWhile_imp hc, ?_, hne, rfl, rfl, ?_⟩
          · rw [hnext, hafter, ← hs]
            exact List.takeWhile_append_dropWhile.symm
          · rw [hnext, hafter]
            exact hsolid
          · rw [hnext, hafter]
            exact hx

theorem Takes.solid_text {place next : Place} {t : Token} {blanks : List Char}
    (h : place.Takes next t blanks) : t.text.head?.any Rune.isBlank = false := by
  rw [← Runes.head?_append_of_ne_nil h.ne_nil next.runes]
  exact h.solid

/-- A text with blanks in front of it is a token wherever it is one without them. -/
theorem read_text {text blanks other : List Char} {kind : TokenKind}
    (hblanks : ∀ c ∈ blanks, Rune.isBlank c = true) (hne : text ≠ [])
    (hsolid : text.head?.any Rune.isBlank = false)
    (h : Runes.token (text ++ other) = .ok (kind, text)) (q : Position) :
    read ⟨blanks ++ (text ++ other), q⟩ =
      .ok (⟨kind, text, q.advance blanks⟩, ⟨other, (q.advance blanks).advance text⟩) := by
  rw [← Runes.head?_append_of_ne_nil hne other] at hsolid
  have hdrop := Runes.dropWhile_blanks hblanks hsolid
  have htake : (blanks ++ (text ++ other)).takeWhile Rune.isBlank = blanks := by
    have hsplit := List.takeWhile_append_dropWhile (p := Rune.isBlank)
      (l := blanks ++ (text ++ other))
    rw [hdrop] at hsplit
    exact List.append_cancel_right hsplit
  rw [read, Place.solid, hdrop, htake, h, locate, past_append]

/-- The same runes, at another place and with other runes behind them, are the same token if
they are a token there. -/
theorem Takes.read_of_token {place next : Place} {t : Token} {blanks other : List Char}
    (h : place.Takes next t blanks) (ht : Runes.token (t.text ++ other) = .ok (t.kind, t.text))
    (q : Position) :
    read ⟨blanks ++ (t.text ++ other), q⟩ =
      .ok (⟨t.kind, t.text, q.advance blanks⟩, ⟨other, (q.advance blanks).advance t.text⟩) :=
  read_text h.blank h.ne_nil h.solid_text ht q

/-- A token is one as well in front of milder runes, if quotes are not nearer in them. -/
theorem Takes.token_milder {place next : Place} {t : Token} {blanks other : List Char}
    (h : place.Takes next t blanks) (hs : Runes.Milder other next.runes)
    (hquote : Runes.Unquoted next.runes → Runes.Unquoted other) :
    Runes.token (t.text ++ other) = .ok (t.kind, t.text) := by
  refine Runes.token_milder hs h.ne_nil h.solid_text h.token fun hlead => ?_
  exact hquote (Runes.token_unquoted h.ne_nil h.token hlead)

/-- Where a token and what comes behind it stand once the place is moved to `q`. -/
theorem Takes.moved {place next : Place} {t : Token} {blanks : List Char}
    (h : place.Takes next t blanks) {f : Position → Position} {q : Position}
    (hf : ∀ text, f (place.position.advance text) = q.advance text) :
    t.relocate f = ⟨t.kind, t.text, q.advance blanks⟩ ∧
      ∀ text, f (next.position.advance text) =
        ((q.advance blanks).advance t.text).advance text := by
  constructor
  · rw [Token.relocate, h.position, hf]
  · intro text
    rw [h.next_position, h.position, ← Position.advance_append, ← Position.advance_append, hf,
      Position.advance_append, Position.advance_append]

/-- Tokens in front of others, once more from a part of the text: the part that the tokens
take, which is read at the place `q`. -/
theorem Upcoming.part {place : Place} {us back : List Token} {ending : Except Fault Token}
    (h : place.Upcoming (us ++ back) ending) :
    ∃ mid rest, place.runes = mid ++ rest ∧ (us = [] → mid = []) ∧
      (∀ t, us.getLast? = some t → mid ≠ [] ∧ t.last = place.position.lastRune mid) ∧
      ∀ (f : Position → Position) (q : Position),
        (∀ text, f (place.position.advance text) = q.advance text) →
        Upcoming ⟨mid, q⟩ (us.map (Token.relocate f)) (.ok (.eos (q.advance mid))) := by
  induction us generalizing place with
  | nil =>
      refine ⟨[], place.runes, rfl, fun _ => rfl, fun t ht => ?_, fun f q _ => ?_⟩
      · cases ht
      · exact .finished (n := ⟨[], q⟩) rfl rfl
  | cons t us ih =>
      cases h with
      | @token _ next _ _ _ hread ht hn =>
          have htakes := takes_of_read hread ht
          obtain ⟨mid, rest, hrunes, hnil, hlast, hpart⟩ := ih hn
          refine ⟨place.runes.takeWhile Rune.isBlank ++ (t.text ++ mid), rest, ?_, ?_, ?_, ?_⟩
          · rw [List.append_assoc, List.append_assoc, ← hrunes]
            exact htakes.runes
          · intro hus
            cases hus
          · intro u hu
            have hne : t.text ++ mid ≠ [] := by simp [htakes.ne_nil]
            refine ⟨by simp [htakes.ne_nil], ?_⟩
            rw [Position.lastRune_append _ _ hne, ← htakes.position]
            cases us with
            | nil =>
                cases hu
                rw [hnil rfl, List.append_nil]
                rfl
            | cons v us =>
                rw [List.getLast?_cons_cons] at hu
                obtain ⟨hmid, hu⟩ := hlast u hu
                rw [Position.lastRune_append _ _ hmid, hu, htakes.next_position]
          · intro f q hf
            obtain ⟨htoken, hbehind⟩ := htakes.moved hf
            have hpart := hpart f _ hbehind
            rw [Position.advance_append, Position.advance_append, List.map_cons, htoken]
            have hmid : mid <+: next.runes := ⟨rest, hrunes.symm⟩
            have htoken := htakes.token_milder (.of_isPrefix hmid) (·.of_isPrefix hmid)
            exact .token (htakes.read_of_token htoken q) ht hpart

/-- The tokens behind others, read from where they start. -/
theorem Upcoming.behind {place : Place} {front us : List Token} {ending : Except Fault Token}
    (h : place.Upcoming (front ++ us) ending) :
    ∃ (before : List Char) (next : Place), place.runes = before ++ next.runes ∧
      next.position = place.position.advance before ∧ next.Upcoming us ending := by
  induction front generalizing place with
  | nil => exact ⟨[], place, rfl, rfl, h⟩
  | cons t front ih =>
      cases h with
      | @token _ next _ _ _ hread ht hn =>
          have htakes := takes_of_read hread ht
          obtain ⟨before, last, hrunes, hposition, hup⟩ := ih hn
          refine ⟨place.runes.takeWhile Rune.isBlank ++ (t.text ++ before), last, ?_, ?_, hup⟩
          · rw [List.append_assoc, List.append_assoc, ← hrunes]
            exact htakes.runes
          · rw [hposition, htakes.next_position, htakes.position, Position.advance_append,
              Position.advance_append]

/-- The tokens ahead of a place depend on the next place that is not blank. -/
theorem Upcoming.of_solid {place other : Place} {ts : List Token} {ending : Except Fault Token}
    (h : place.Upcoming ts ending) (hsolid : other.solid = place.solid) :
    other.Upcoming ts ending := by
  have hread : other.read = place.read := by rw [read, read, hsolid]
  cases h with
  | refused h => exact .refused (hread.trans h)
  | finished h ht => exact .finished (hread.trans h) ht
  | token h ht hn => exact .token (hread.trans h) ht hn

/-- A token is read from its own place as well. -/
theorem Upcoming.solid {place : Place} {ts : List Token} {ending : Except Fault Token}
    (h : place.Upcoming ts ending) : place.solid.Upcoming ts ending :=
  h.of_solid (solid_solid place)

theorem Upcoming.position_head {place : Place} {t : Token} {ts : List Token}
    {ending : Except Fault Token} (h : place.Upcoming (t :: ts) ending) :
    t.position = place.solid.position := by
  cases h with
  | token hread ht _ => exact (takes_of_read hread ht).position

/-- All tokens ahead stand behind the place. -/
theorem Upcoming.position_mem {place : Place} {ts : List Token} {ending : Except Fault Token}
    (h : place.Upcoming ts ending) :
    ∀ t ∈ ts, ∃ text, t.position = place.position.advance text := by
  induction h with
  | refused _ => exact fun t ht => absurd ht List.not_mem_nil
  | finished _ _ => exact fun t ht => absurd ht List.not_mem_nil
  | token hread ht _ ih =>
      have htakes := takes_of_read hread ht
      intro u hu
      rcases List.mem_cons.mp hu with rfl | hu
      · exact ⟨_, htakes.position⟩
      · obtain ⟨text, htext⟩ := ih u hu
        rw [htakes.next_position, htakes.position, ← Position.advance_append,
          ← Position.advance_append] at htext
        exact ⟨_, htext⟩

/-- The marks that close a construct have one rune. -/
theorem Upcoming.last_of_isCloser {place : Place} {ts : List Token} {ending : Except Fault Token}
    (h : place.Upcoming ts ending) :
    ∀ t ∈ ts, Runes.isCloser t.kind = true → t.last = t.position := by
  induction h with
  | refused _ => exact fun t ht => absurd ht List.not_mem_nil
  | finished _ _ => exact fun t ht => absurd ht List.not_mem_nil
  | token hread ht _ ih =>
      have htakes := takes_of_read hread ht
      intro u hu hc
      rcases List.mem_cons.mp hu with rfl | hu
      · rw [Runes.isCloser_token htakes.token hc] at hc
        have hone : ∀ text ∈ [[')'], ['}'], [';']], text.dropLast = [] := by decide
        rw [Token.last_eq_advance, hone _ (Runes.mem_of_isCloser hc), Position.advance_nil]
      · exact ih u hu hc

/-- The part of a text that a run of tokens covers, and where the tokens stand in it. -/
theorem Upcoming.cover {text : List Char} {front us back : List Token}
    {ending : Except Fault Token} {t u : Token}
    (h : (ofText text).Upcoming (front ++ us ++ back) ending) (ht : us.head? = some t)
    (hu : us.getLast? = some u) :
    ∃ before mid rest, text = before ++ mid ++ rest ∧ mid ≠ [] ∧
      t.position = Position.start.advance before ∧ u.last = t.position.lastRune mid ∧
      (∀ v ∈ us, ∃ inner, v.position = t.position.advance inner) ∧
      ∀ (f : Position → Position) (q : Position),
        (∀ inner, f (t.position.advance inner) = q.advance inner) →
        Upcoming ⟨mid, q⟩ (us.map (Token.relocate f)) (.ok (.eos (q.advance mid))) := by
  rw [List.append_assoc] at h
  obtain ⟨before, place, hrunes, hposition, hup⟩ := h.behind
  have hsolid := hup.solid
  have hbase : t.position = place.solid.position := by
    cases us with
    | nil => cases ht
    | cons v us =>
        cases ht
        exact hup.position_head
  obtain ⟨mid, rest, hmid, -, hlast, hpart⟩ := hsolid.part
  obtain ⟨hne, hu⟩ := hlast u hu
  refine ⟨before ++ place.runes.takeWhile Rune.isBlank, mid, rest, ?_, hne, ?_, ?_, ?_, ?_⟩
  · have hplace : place.runes = place.runes.takeWhile Rune.isBlank ++ place.solid.runes :=
      List.takeWhile_append_dropWhile.symm
    rw [List.append_assoc, List.append_assoc, ← hmid, ← hplace, ← hrunes]
    rfl
  · rw [hbase, Position.advance_append]
    show place.position.advance _ = _
    rw [hposition]
    rfl
  · rw [hu, hbase]
  · intro v hv
    rw [hbase]
    exact hsolid.position_mem v (List.mem_append_left _ hv)
  · rw [hbase]
    exact hpart

/-- The end of a token moves with its start. -/
theorem Upcoming.last_relocate {place : Place} {ts : List Token} {ending : Except Fault Token}
    (h : place.Upcoming ts ending) {f : Position → Position} {q : Position}
    (hf : ∀ text, f (place.position.advance text) = q.advance text) :
    ∀ t ∈ ts, f t.last = (t.relocate f).last := by
  intro t ht
  obtain ⟨text, htext⟩ := h.position_mem t ht
  rw [Token.last_eq_advance, Token.last_eq_advance]
  show f (t.position.advance t.text.dropLast) = (f t.position).advance t.text.dropLast
  rw [htext, ← Position.advance_append, hf, hf, Position.advance_append]

/-- A run of tokens, once more from the part of the text that it covers. -/
theorem Upcoming.slice {text : List Char} {front us back : List Token}
    {ending : Except Fault Token} {t u : Token}
    (h : (ofText text).Upcoming (front ++ us ++ back) ending) (ht : us.head? = some t)
    (hu : us.getLast? = some u) :
    (∃ eos, (ofText (Span.slice ⟨t.position, u.last⟩ text)).Upcoming
      (us.map (Token.relocate (Position.relativeTo t.position))) (.ok eos)) ∧
    ∀ v ∈ us, Position.relativeTo t.position v.last =
      (v.relocate (Position.relativeTo t.position)).last := by
  obtain ⟨before, mid, rest, rfl, hne, hstart, hlast, hinner, hpart⟩ := h.cover ht hu
  have hknown : t.position.isKnown = true := by
    rw [hstart]
    exact Position.isKnown_advance rfl before
  have hadvance := Position.relativeTo_advance hknown
  constructor
  · rw [hlast, hstart, Span.slice_between before rest hne, ← hstart]
    exact ⟨_, hpart _ .start hadvance⟩
  · intro v hv
    obtain ⟨inner, hv⟩ := hinner v hv
    rw [Token.last_eq_advance, Token.last_eq_advance]
    show Position.relativeTo t.position (v.position.advance v.text.dropLast) =
      (Position.relativeTo t.position v.position).advance v.text.dropLast
    rw [hv, ← Position.advance_append, hadvance, hadvance, Position.advance_append]

end Place

end SoliditySource
