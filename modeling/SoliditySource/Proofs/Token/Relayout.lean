import Mathlib.Data.List.Chain
import Mathlib.Data.List.TakeWhile
import SoliditySource.Proofs.Token.Lossless

/-! # Tokens written down anew

A token is read from its own text as what it is, and so it is in front of blanks. The words
`hex` and `unicode` are the only ones that look behind the blanks, for a quote; where they are
tokens by themselves no quote comes next. So the tokens of a text can be written down with any
other blanks between them and are read again.
-/

namespace SoliditySource

/-! ## Tokens written down -/

/-- The text of the token alone is read as the token. -/
structure Token.Firm (t : Token) : Prop where
  ne_nil : t.text ≠ []
  solid : t.text.head?.any Rune.isBlank = false
  token : Runes.token t.text = .ok (t.kind, t.text)

theorem Token.Firm.solid_append {t : Token} (h : t.Firm) (rest : List Char) :
    (t.text ++ rest).head?.any Rune.isBlank = false := by
  rw [Runes.head?_append_of_ne_nil h.ne_nil]
  exact h.solid

theorem Token.Firm.isEos_eq_false {t : Token} (h : t.Firm) : t.isEos = false := by
  have htoken := h.token
  obtain ⟨c, text, hc⟩ := List.exists_cons_of_ne_nil h.ne_nil
  rw [hc] at htoken
  simpa [Token.isEos] using (Runes.token_cons htoken).2.2

/-- The token `u` may come right behind `t`: no quote follows the words that would lead it. -/
def Token.Precedes (t u : Token) : Prop :=
  Runes.isLead t.kind = true → u.text.head?.any Rune.isQuote = false

namespace Place

variable {place : Place} {ts : List Token} {ending : Except Fault Token}

theorem Takes.firm {next : Place} {t : Token} {blanks : List Char}
    (h : place.Takes next t blanks) : t.Firm where
  ne_nil := h.ne_nil
  solid := h.solid_text
  token := by simpa using h.token_milder (.nil _) fun _ => rfl

theorem Upcoming.firm (h : place.Upcoming ts ending) : ∀ t ∈ ts, t.Firm := by
  induction h with
  | refused _ => simp
  | finished _ _ => simp
  | token hread ht _ ih => simpa using ⟨(takes_of_read hread ht).firm, ih⟩

theorem Upcoming.precedes (h : place.Upcoming ts ending) : ts.IsChain Token.Precedes := by
  induction h with
  | refused _ => exact .nil
  | finished _ _ => exact .nil
  | token hread ht hn ih =>
      cases hn with
      | refused _ => exact .singleton _
      | finished _ _ => exact .singleton _
      | token hread' ht' _ =>
          refine .cons_cons (fun hlead => ?_) ih
          have htakes := takes_of_read hread ht
          have htakes' := takes_of_read hread' ht'
          have hquote := Runes.token_unquoted htakes.ne_nil htakes.token hlead
          rwa [Runes.Unquoted, htakes'.runes,
            Runes.dropWhile_blanks htakes'.blank htakes'.solid,
            Runes.head?_append_of_ne_nil htakes'.ne_nil] at hquote

/-- A token that is written down with blanks in front is read, if what follows allows it. -/
theorem read_firm {t : Token} (ht : t.Firm) {blanks rest : List Char}
    (hblanks : ∀ c ∈ blanks, Rune.isBlank c = true) (hrest : rest.head?.all Rune.isBlank = true)
    (hquote : Runes.isLead t.kind = true → Runes.Unquoted rest) (q : Position) :
    read ⟨blanks ++ (t.text ++ rest), q⟩ =
      .ok (⟨t.kind, t.text, q.advance blanks⟩, ⟨rest, (q.advance blanks).advance t.text⟩) := by
  have halone : Runes.token (t.text ++ []) = .ok (t.kind, t.text) := by
    rw [List.append_nil]
    exact ht.token
  have htoken := Runes.token_milder (.of_blank hrest []) ht.ne_nil ht.solid halone hquote
  exact read_text hblanks ht.ne_nil ht.solid htoken q

theorem read_blanks {blanks : List Char} (h : ∀ c ∈ blanks, Rune.isBlank c = true)
    (q : Position) : read ⟨blanks, q⟩ =
      .ok (.eos (q.advance blanks), ⟨[], q.advance blanks⟩) := by
  rw [read, solid, List.dropWhile_eq_nil_iff.mpr h, List.takeWhile_eq_self_iff.mpr h]
  rfl

end Place

/-- What stays of a token that is written down elsewhere. -/
def Token.face (t : Token) : TokenKind × List Char := (t.kind, t.text)

namespace Layout

/-- Behind a token comes a blank or nothing, if blanks keep it from the next one. -/
theorem head?_write {gap : List Char} {spread : List (Token × List Char)}
    (hgap : ∀ c ∈ gap, Rune.isBlank c = true) (hparted : spread ≠ [] → gap ≠ []) :
    (write gap spread).head?.all Rune.isBlank = true := by
  cases gap with
  | nil =>
      have hspread : spread = [] := by simpa using hparted
      rw [hspread]
      rfl
  | cons c gap => simpa [write] using hgap c List.mem_cons_self

/-- Behind the blanks comes the next token, which starts with no quote if none may come next. -/
theorem unquoted_write {t : Token} {gap : List Char} {spread : List (Token × List Char)}
    (hgap : ∀ c ∈ gap, Rune.isBlank c = true) (hfirm : ∀ u ∈ spread.map Prod.fst, u.Firm)
    (hchain : (t :: spread.map Prod.fst).IsChain Token.Precedes)
    (hlead : Runes.isLead t.kind = true) : Runes.Unquoted (write gap spread) := by
  cases spread with
  | nil => simp [Runes.Unquoted, write, List.dropWhile_eq_nil_iff.mpr hgap]
  | cons entry spread =>
      obtain ⟨u, gap'⟩ := entry
      have hu : u.Firm := hfirm u List.mem_cons_self
      have hquote := hchain.rel hlead
      rw [Runes.Unquoted, write_cons, Runes.dropWhile_blanks hgap (hu.solid_append _),
        Runes.head?_append_of_ne_nil hu.ne_nil]
      exact hquote

/-- Firm tokens are read again when blanks are written between them. -/
theorem upcoming_write {spread : List (Token × List Char)}
    (hgap : ∀ entry ∈ spread, ∀ c ∈ entry.2, Rune.isBlank c = true)
    (hparted : ∀ entry ∈ spread.dropLast, entry.2 ≠ [])
    (hfirm : ∀ t ∈ spread.map Prod.fst, t.Firm)
    (hchain : (spread.map Prod.fst).IsChain Token.Precedes) {lead : List Char}
    (hlead : ∀ c ∈ lead, Rune.isBlank c = true) (q : Position) :
    ∃ us eos, (Place.mk (write lead spread) q).Upcoming us (.ok eos) ∧
      us.map Token.face = (spread.map Prod.fst).map Token.face := by
  induction spread generalizing lead q with
  | nil =>
      have hread := Place.read_blanks hlead q
      exact ⟨[], _, .finished (by simpa [write] using hread) rfl, rfl⟩
  | cons entry spread ih =>
      obtain ⟨t, gap⟩ := entry
      obtain ⟨hblank, hgap⟩ := List.forall_mem_cons.mp hgap
      obtain ⟨ht, hfirm⟩ := List.forall_mem_cons.mp hfirm
      have hdropLast : spread ≠ [] →
          ((t, gap) :: spread).dropLast = (t, gap) :: spread.dropLast :=
        List.dropLast_cons_of_ne_nil
      have hnext : spread ≠ [] → gap ≠ [] := by
        intro hne
        apply hparted (t, gap)
        simp [hdropLast hne]
      have hparted : ∀ entry ∈ spread.dropLast, entry.2 ≠ [] := by
        intro entry hentry
        have hne : spread ≠ [] := by
          rintro rfl
          simp at hentry
        apply hparted entry
        simp [hdropLast hne, hentry]
      have hread := Place.read_firm ht hlead (head?_write hblank hnext)
        (unquoted_write hblank hfirm hchain) q
      obtain ⟨us, eos, hup, hfaces⟩ := ih hgap hparted hfirm hchain.tail hblank _
      rw [write_cons]
      exact ⟨_, eos, .token hread ht.isEos_eq_false hup, congrArg (_ :: ·) hfaces⟩

end Layout

namespace TokenReader

theorem all_parted {l : Layout} (hparted : l.Parted) (hfirm : ∀ t ∈ l.tokens, t.Firm)
    (hchain : l.tokens.IsChain Token.Precedes) :
    ∃ us eos s, (ofFeed (.ofText l.text)).all = .ok (us ++ [eos]) s ∧
      us.map Token.face = l.tokens.map Token.face ∧ eos.kind = .eos := by
  obtain ⟨us, eos, hup, hfaces⟩ :=
    Layout.upcoming_write l.gap_blank hparted hfirm hchain l.lead_blank .start
  obtain ⟨s, hs⟩ := all_upcoming hup (at_ofFeed l.text)
  exact ⟨us, eos, s, hs, hfaces, hup.isEos⟩

/-- The tokens of a text are read again, with the same kinds and texts, from each text that has
blanks between them, whatever blanks these are. Each token by itself is read again with blanks
around it or without. The words `hex` and `unicode` are no tokens in front of a quote. -/
theorem all_relayout {text : List Char} {ts : List Token} {eos : Token} {s : TokenReader}
    (h : (ofFeed (.ofText text)).all = .ok (ts ++ [eos]) s) :
    (∀ l : Layout, l.tokens = ts → l.Parted → ∃ us eos' s',
        (ofFeed (.ofText l.text)).all = .ok (us ++ [eos']) s' ∧
          us.map Token.face = ts.map Token.face ∧ eos'.kind = .eos) ∧
      (∀ l : Layout, ∀ t ∈ ts, l.tokens = [t] → ∃ u eos' s',
        (ofFeed (.ofText l.text)).all = .ok [u, eos'] s' ∧ u.face = t.face ∧ eos'.kind = .eos) ∧
      ∀ front t u back, ts = front ++ t :: u :: back → t.kind = .kwHex ∨ t.kind = .kwUnicode →
        u.text.head?.any Rune.isQuote = false := by
  obtain ⟨_, ending, hup⟩ := (Place.ofText text).exists_upcoming
  obtain ⟨rfl, rfl⟩ := (all_eq_ok_iff (at_ofFeed text) hup).mp ⟨s, h⟩
  refine ⟨fun l hl hparted => ?_, fun l t ht hl => ?_, fun front t u back hts hkind => ?_⟩
  · subst hl
    exact all_parted hparted hup.firm hup.precedes
  · have hparted : l.Parted := by
      intro entry hentry
      have hlength : l.spread.length = 1 := by
        simpa [Layout.tokens] using congrArg List.length hl
      have hnil : l.spread.dropLast = [] := by simp [← List.length_eq_zero_iff, hlength]
      rw [hnil] at hentry
      cases hentry
    have hfirm : ∀ u ∈ l.tokens, u.Firm := by
      rw [hl]
      simpa using hup.firm t ht
    obtain ⟨us, eos', s', hs', hfaces, heos⟩ :=
      all_parted hparted hfirm (by rw [hl]; exact .singleton t)
    rw [hl, List.map_singleton, List.map_eq_singleton_iff] at hfaces
    obtain ⟨u, rfl, hu⟩ := hfaces
    exact ⟨u, eos', s', hs', hu, heos⟩
  · subst hts
    have hchain := hup.precedes.right_of_append
    apply hchain.rel
    simpa [Runes.isLead] using hkind

theorem all_relayout_two_lines :
    ∃ s, (ofFeed (.ofText "hex+''".toList)).all = .ok ([⟨.kwHex, "hex".toList, ⟨1, 1⟩⟩,
          ⟨.add, ['+'], ⟨1, 4⟩⟩, ⟨.emptyString, "''".toList, ⟨1, 5⟩⟩] ++ [.eos ⟨1, 7⟩]) s ∧
      ∃ us eos' s', (ofFeed (.ofText "hex\n+\t'' ".toList)).all = .ok (us ++ [eos']) s' ∧
        us.map Token.face = [(.kwHex, "hex".toList), (.add, ['+']), (.emptyString, "''".toList)] ∧
        eos'.kind = .eos := by
  have hup : (Place.ofText "hex+''".toList).Upcoming [⟨.kwHex, "hex".toList, ⟨1, 1⟩⟩,
      ⟨.add, ['+'], ⟨1, 4⟩⟩, ⟨.emptyString, "''".toList, ⟨1, 5⟩⟩] (.ok (.eos ⟨1, 7⟩)) :=
    .token (n := ⟨"+''".toList, ⟨1, 4⟩⟩) rfl rfl
      (.token (n := ⟨"''".toList, ⟨1, 5⟩⟩) rfl rfl
        (.token (n := ⟨[], ⟨1, 7⟩⟩) (by cbv) rfl (.finished (n := ⟨[], ⟨1, 7⟩⟩) rfl rfl)))
  obtain ⟨s, hs⟩ := all_upcoming hup (at_ofFeed _)
  let l : Layout :=
    ⟨[], [(⟨.kwHex, "hex".toList, ⟨1, 1⟩⟩, ['\n']), (⟨.add, ['+'], ⟨1, 4⟩⟩, ['\t']),
      (⟨.emptyString, "''".toList, ⟨1, 5⟩⟩, [' '])], by simp, by simp [Rune.isBlank, Rune.isSpace]⟩
  exact ⟨s, hs, (all_relayout hs).1 l rfl (by simp [Layout.Parted, l])⟩

end TokenReader

end SoliditySource
