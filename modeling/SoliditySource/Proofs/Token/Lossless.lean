import SoliditySource.Proofs.Parse.Locality
import SoliditySource.Proofs.Reparse.Tokens

/-! # What a text is made of

A text that falls into tokens consists of their texts and of blanks between them, and of
nothing else. Each token stands where the runes in front of it lead to, and a reader that
hands out the tokens never stands further on than the next one.
-/

namespace SoliditySource

/-! ## Layouts -/

/-- A way to write tokens down: the blanks in front, and each token with the blanks behind
it. -/
structure Layout where
  lead : List Char
  spread : List (Token × List Char)
  lead_blank : ∀ c ∈ lead, Rune.isBlank c = true
  gap_blank : ∀ entry ∈ spread, ∀ c ∈ entry.2, Rune.isBlank c = true

namespace Layout

/-- The runes of tokens that are written down with blanks in front and between them. -/
def write (lead : List Char) (spread : List (Token × List Char)) : List Char :=
  lead ++ spread.flatMap fun entry => entry.1.text ++ entry.2

def tokens (l : Layout) : List Token := l.spread.map Prod.fst

def text (l : Layout) : List Char := write l.lead l.spread

/-- Tokens in a row have blanks between them. -/
def Parted (l : Layout) : Prop := ∀ entry ∈ l.spread.dropLast, entry.2 ≠ []

/-- Written down at `p`, each token stands where the runes in front of it lead to. -/
def StandsAt (l : Layout) (p : Position) : Prop :=
  ∀ front t gap back, l.spread = front ++ (t, gap) :: back →
    t.position = p.advance (write l.lead front)

/-- Blanks alone. -/
def blank (lead : List Char) (h : ∀ c ∈ lead, Rune.isBlank c = true) : Layout :=
  ⟨lead, [], h, fun _ he => absurd he List.not_mem_nil⟩

/-- One more token in front, with blanks in front of it. -/
def cons (lead : List Char) (h : ∀ c ∈ lead, Rune.isBlank c = true) (t : Token) (l : Layout) :
    Layout where
  lead := lead
  spread := (t, l.lead) :: l.spread
  lead_blank := h
  gap_blank := by
    intro entry he
    rcases List.mem_cons.mp he with rfl | he
    · exact l.lead_blank
    · exact l.gap_blank entry he

variable {lead : List Char} (h : ∀ c ∈ lead, Rune.isBlank c = true) (t : Token) (l : Layout)

theorem write_cons (lead gap : List Char) (t : Token) (spread : List (Token × List Char)) :
    write lead ((t, gap) :: spread) = lead ++ (t.text ++ write gap spread) := by
  simp [write]

@[simp] theorem tokens_blank : (blank lead h).tokens = [] := rfl

@[simp] theorem text_blank : (blank lead h).text = lead := by simp [text, write, blank]

@[simp] theorem tokens_cons : (cons lead h t l).tokens = t :: l.tokens := rfl

@[simp] theorem text_cons : (cons lead h t l).text = lead ++ (t.text ++ l.text) :=
  write_cons lead l.lead t l.spread

theorem standsAt_blank (p : Position) : (blank lead h).StandsAt p := by
  intro front t gap back he
  simp [blank] at he

theorem standsAt_cons {p : Position} (ht : t.position = p.advance lead)
    (hl : l.StandsAt (t.position.advance t.text)) : (cons lead h t l).StandsAt p := by
  intro front u gap back he
  cases front with
  | nil =>
      cases he
      simpa [write, cons] using ht
  | cons entry front =>
      obtain ⟨rfl, hspread⟩ := List.cons.inj he
      rw [hl front u gap back hspread, ht, ← Position.advance_append, ← Position.advance_append]
      exact congrArg p.advance (write_cons lead l.lead t front).symm

end Layout

/-! ## The tokens ahead of a place -/

namespace Place

variable {place : Place} {ts : List Token}

/-- Where nothing but blanks is ahead, the end token stands behind them. -/
theorem eq_eos_of_read {next : Place} {t : Token} (h : place.read = .ok (t, next))
    (ht : t.isEos = true) :
    (∀ c ∈ place.runes, Rune.isBlank c = true) ∧
      t = .eos (place.position.advance place.runes) ∧ next = place.solid ∧
      next.position = t.position := by
  rw [read] at h
  cases hs : place.solid.runes with
  | nil =>
      rw [hs, Runes.token, locate] at h
      cases h
      have hblank : place.runes.takeWhile Rune.isBlank = place.runes := by
        have hsplit := List.takeWhile_append_dropWhile (p := Rune.isBlank) (l := place.runes)
        rwa [show place.runes.dropWhile Rune.isBlank = [] from hs, List.append_nil] at hsplit
      refine ⟨fun c hc => ?_, ?_, rfl, rfl⟩
      · rw [← hblank] at hc
        exact Runes.mem_takeWhile_imp hc
      · rw [solid, hblank]
        rfl
  | cons first rest =>
      cases hx : Runes.token (first :: rest) with
      | error e =>
          rw [hs, hx, locate] at h
          cases h
      | ok found =>
          rw [hs, hx, locate] at h
          cases h
          exact absurd (by simpa [Token.isEos] using ht) (Runes.token_cons hx).2.2

/-- The runes ahead are those of the tokens ahead, with blanks between them. -/
theorem Upcoming.exists_layout {eos : Token} (h : place.Upcoming ts (.ok eos)) :
    ∃ l : Layout, l.tokens = ts ∧ l.text = place.runes ∧ l.StandsAt place.position := by
  induction h using Upcoming.induction_on_ok with
  | finished hread heos =>
      obtain ⟨hblank, -⟩ := eq_eos_of_read hread heos
      exact ⟨.blank _ hblank, by simp, by simp, Layout.standsAt_blank hblank _⟩
  | token hread ht _ ih =>
      have htakes := takes_of_read hread ht
      obtain ⟨l, htokens, htext, hstands⟩ := ih
      rw [htakes.next_position] at hstands
      refine ⟨.cons _ htakes.blank _ l, ?_, ?_, l.standsAt_cons _ _ htakes.position hstands⟩
      · rw [Layout.tokens_cons, htokens]
      · rw [Layout.text_cons, htext, ← htakes.runes]

theorem Upcoming.text_ne_nil {ending : Except Fault Token} (h : place.Upcoming ts ending) :
    ∀ t ∈ ts, t.text ≠ [] := by
  induction h with
  | refused _ => simp
  | finished _ _ => simp
  | token hread ht _ ih =>
      have htakes := takes_of_read hread ht
      simpa using ⟨htakes.ne_nil, ih⟩

/-- The end token stands behind all runes. -/
theorem Upcoming.eq_eos {eos : Token} (h : place.Upcoming ts (.ok eos)) :
    eos = .eos (place.position.advance place.runes) := by
  induction h using Upcoming.induction_on_ok with
  | finished hread heos => exact (eq_eos_of_read hread heos).2.1
  | token hread ht _ ih =>
      have htakes := takes_of_read hread ht
      rw [ih, htakes.next_position, htakes.position, ← Position.advance_append,
        ← Position.advance_append, ← htakes.runes]

/-- The token that comes next, the end token being one, is the one that is read. -/
theorem Upcoming.read_headD {eos : Token} (h : place.Upcoming ts (.ok eos)) :
    ∃ next, place.read = .ok (ts.headD eos, next) ∧ next.Upcoming ts.tail (.ok eos) ∧
      next.position = (ts.headD eos).position.advance (ts.headD eos).text ∧
      place.solid.position = (ts.headD eos).position := by
  cases h with
  | finished hread ht =>
      obtain ⟨-, heos, hsolid, hposition⟩ := eq_eos_of_read hread ht
      refine ⟨_, hread, .finished (read_eos hread ht) ht, ?_, by rw [← hsolid]; exact hposition⟩
      rw [List.headD_nil, hposition, heos]
      rfl
  | token hread ht hn =>
      have htakes := takes_of_read hread ht
      exact ⟨_, hread, hn, htakes.next_position, htakes.position.symm⟩

/-- A token stands at the next place that is not blank. -/
theorem position_of_read {next : Place} {t : Token} (h : place.read = .ok (t, next)) :
    t.position = place.solid.position := by
  cases ht : t.isEos with
  | false => exact (takes_of_read h ht).position
  | true =>
      obtain ⟨-, -, hsolid, hposition⟩ := eq_eos_of_read h ht
      rw [← hposition, hsolid]

theorem Takes.last_lt {next : Place} {t : Token} {blanks : List Char}
    (h : place.Takes next t blanks) : t.last < next.position := by
  rw [h.next_position]
  exact Position.lastRune_lt_advance _ h.ne_nil

/-- Tokens stand in order: each one ends before the next one starts. -/
theorem Upcoming.ordered {ending : Except Fault Token} (h : place.Upcoming ts ending) :
    ts.Pairwise fun t u => t.last < u.position := by
  induction h with
  | refused _ => exact .nil
  | finished _ _ => exact .nil
  | token hread ht hn ih =>
      refine List.pairwise_cons.mpr ⟨fun u hu => ?_, ih⟩
      obtain ⟨text, htext⟩ := hn.position_mem u hu
      rw [htext]
      exact Position.lt_of_lt_of_le (takes_of_read hread ht).last_lt (Position.le_advance _ text)

theorem Upcoming.last_lt_eos {eos : Token} (h : place.Upcoming ts (.ok eos)) :
    ∀ t ∈ ts, t.last < eos.position := by
  induction h using Upcoming.induction_on_ok with
  | finished _ _ => simp
  | token hread ht hn ih =>
      refine List.forall_mem_cons.mpr ⟨?_, ih⟩
      rw [hn.eq_eos]
      exact Position.lt_of_lt_of_le (takes_of_read hread ht).last_lt (Position.le_advance _ _)

end Place

/-! ## Scanning -/

namespace TokenReader

variable {r : TokenReader} {place : Place} {ts : List Token} {eos : Token}

/-- A reader stands at its place or between it and the next token. -/
theorem At.position_between (h : r.At place) :
    place.position ≤ r.position ∧ r.position ≤ place.solid.position := by
  unfold At at h
  unfold position
  split at h
  · next hheld =>
      obtain ⟨blanks, rest, hrunes, hblank, hstands⟩ := h
      rw [hheld]
      dsimp only
      rw [hstands.position_eq, Place.solid_of_blanks hrunes hblank]
      exact ⟨Position.le_advance _ _, Position.le_advance _ _⟩
  · next t hheld =>
      obtain ⟨next, hread, -⟩ := h
      have ht : t.position = place.solid.position := Place.position_of_read hread
      rw [hheld]
      dsimp only
      rw [ht]
      exact ⟨Position.le_advance _ _, Position.le_refl _⟩

/-- What a reader has handed out is the beginning of the tokens ahead, with the end token again
and again behind them. The reader has come to the place right behind the last one. -/
theorem Hands.scans {us : List Token} {s : TokenReader} (h : r.Hands us s) (hr : r.At place)
    (hup : place.Upcoming ts (.ok eos)) :
    us = ts.take us.length ++ List.replicate (us.length - ts.length) eos ∧
      ∃ place', s.At place' ∧ place'.Upcoming (ts.drop us.length) (.ok eos) ∧
        (us.getLast?.map fun t => t.position.advance t.text).getD place.position =
          place'.position := by
  induction h generalizing place ts with
  | nil r => exact ⟨by simp, place, hr, hup, rfl⟩
  | @cons r s u t us hnext hs ih =>
      obtain ⟨next, hread, hbehind, hposition, -⟩ := hup.read_headD
      obtain ⟨s', hs', ha⟩ := next_ok hr hread
      cases hnext.symm.trans hs'
      obtain ⟨hus, place', hat, hup', hlast⟩ := ih ha hbehind
      refine ⟨?_, place', hat, by simpa using hup', ?_⟩
      · cases ts with
        | nil => simpa [List.replicate_succ] using hus
        | cons u ts => simpa using hus
      · rw [← hlast, hposition, List.getLast?_cons]
        cases us.getLast? <;> rfl

/-- A text that falls into tokens is made of their texts, none of them empty, and of blanks.
Each token stands where the runes in front of it lead to and ends at its last rune, before the
next one starts; the end token stands behind all runes. Scanning gives the tokens one by one
and then the end token again and again, and in between the reader stands no earlier than right
behind the last token and no later than at the next one. -/
theorem all_lossless {text : List Char} {tokens : List Token} {s : TokenReader}
    (h : (ofFeed (.ofText text)).all = .ok tokens s) :
    ∃ ts eos, tokens = ts ++ [eos] ∧ eos = .eos (Position.start.advance text) ∧
      (∀ t ∈ ts, t.kind ≠ .eos ∧ t.text ≠ []) ∧
      (∃ l : Layout, l.tokens = ts ∧ l.text = text ∧
        ∀ front t gap back, l.spread = front ++ (t, gap) :: back →
          t.position = Position.start.advance (Layout.write l.lead front) ∧
          t.last = Position.start.advance (Layout.write l.lead front ++ t.text.dropLast)) ∧
      tokens.Pairwise (fun t u => t.last < u.position) ∧
      ∀ us r, (ofFeed (.ofText text)).Hands us r →
        us = ts.take us.length ++ List.replicate (us.length - ts.length) eos ∧
        (∃ r', r.next = .ok ((ts.drop us.length).headD eos) r') ∧
        r.position ≤ ((ts.drop us.length).headD eos).position ∧
        ∀ t, us.getLast? = some t → t.position.advance t.text ≤ r.position := by
  have hr := at_ofFeed text
  obtain ⟨ts, ending, hup⟩ := (Place.ofText text).exists_upcoming
  obtain ⟨s', hs'⟩ := all_upcoming hup hr
  rw [hs'] at h
  cases ending with
  | error fault => cases h
  | ok eos =>
      cases h
      refine ⟨ts, eos, rfl, hup.eq_eos, fun t ht => ⟨hup.ne_eos t ht, hup.text_ne_nil t ht⟩, ?_,
        ?_, fun us r hhands => ?_⟩
      · obtain ⟨l, htokens, htext, hstands⟩ := hup.exists_layout
        refine ⟨l, htokens, htext, fun front t gap back hspread => ?_⟩
        have ht := hstands front t gap back hspread
        refine ⟨ht, ?_⟩
        rw [Token.last_eq_advance, ht, ← Position.advance_append]
        rfl
      · refine List.pairwise_append.mpr ⟨hup.ordered, List.pairwise_singleton _ _, ?_⟩
        simpa using hup.last_lt_eos
      · obtain ⟨hus, place, hat, hbehind, hplace⟩ := hhands.scans hr hup
        obtain ⟨next, hread, -, -, hsolid⟩ := hbehind.read_headD
        obtain ⟨r', hr', -⟩ := next_ok hat hread
        obtain ⟨hle, hge⟩ := hat.position_between
        refine ⟨hus, ⟨r', hr'⟩, by rwa [hsolid] at hge, fun t ht => ?_⟩
        rw [ht] at hplace
        rwa [← hplace] at hle

theorem all_lossless_two_lines :
    ∃ s, (ofFeed (.ofText "a 'b\nc' ".toList)).all = .ok [⟨.identifier, ['a'], ⟨1, 1⟩⟩,
          ⟨.nonEmptyString, "'b\nc'".toList, ⟨1, 3⟩⟩, .eos ⟨2, 4⟩] s ∧
      (∃ l : Layout, l.tokens = [⟨.identifier, ['a'], ⟨1, 1⟩⟩,
          ⟨.nonEmptyString, "'b\nc'".toList, ⟨1, 3⟩⟩] ∧ l.text = "a 'b\nc' ".toList) ∧
      ∀ us r, (ofFeed (.ofText "a 'b\nc' ".toList)).Hands us r → us.length = 2 →
        ∃ r', r.next = .ok (.eos ⟨2, 4⟩) r' := by
  have hup : (Place.ofText "a 'b\nc' ".toList).Upcoming [⟨.identifier, ['a'], ⟨1, 1⟩⟩,
      ⟨.nonEmptyString, "'b\nc'".toList, ⟨1, 3⟩⟩] (.ok (.eos ⟨2, 4⟩)) :=
    .token (n := ⟨" 'b\nc' ".toList, ⟨1, 2⟩⟩) rfl rfl
      (.token (n := ⟨[' '], ⟨2, 3⟩⟩) (by cbv) rfl (.finished (n := ⟨[], ⟨2, 4⟩⟩) rfl rfl))
  obtain ⟨s, hs⟩ := all_upcoming hup (at_ofFeed _)
  rw [total, List.cons_append, List.singleton_append] at hs
  obtain ⟨ts, eos, htokens, -, -, ⟨l, hl, htext, -⟩, -, hscans⟩ := all_lossless hs
  obtain ⟨rfl, heos⟩ := List.append_inj' (show [_, _] ++ [_] = ts ++ [eos] from htokens) rfl
  cases heos
  refine ⟨s, hs, ⟨l, hl, htext⟩, fun us r hhands hlength => ?_⟩
  have hnext := (hscans us r hhands).2.1
  rwa [hlength] at hnext

end TokenReader

end SoliditySource
