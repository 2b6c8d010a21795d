import SoliditySource.Proofs.Source.Failures
import SoliditySource.Proofs.Session.Peeking
import SoliditySource.Proofs.Token.Lossless

/-! # Quotes and escapes

A literal is read fragment by fragment, and a backslash takes a whole fragment. Seen rune by
rune, a backslash takes one rune, and the literal ends with the first quote that no backslash
takes. This is what a reader does wherever it comes to stand in a text, after errors too.
-/

namespace SoliditySource

/-! ## Runes -/

namespace Runes

/-- Runes of which each backslash takes exactly the next one, whatever that is. -/
inductive Escaping : List Char → Prop where
  | nil : Escaping []
  | rune {c : Char} {cs : List Char} (hc : c ≠ '\\') (h : Escaping cs) : Escaping (c :: cs)
  | escape (c : Char) {cs : List Char} (h : Escaping cs) : Escaping ('\\' :: c :: cs)

/-- Behind the runes of `front`, a quote that no backslash takes stands in `cs`. -/
structure QuoteAfter (quote : Char) (cs front : List Char) : Prop where
  escaping : Escaping front
  isPrefix : front ++ [quote] <+: cs

variable {quote : Char} {cs front text : List Char}

/-- Of two such places of the same length there is only one. -/
theorem QuoteAfter.eq_of_length {other : List Char} (h : QuoteAfter quote cs front)
    (ho : QuoteAfter quote cs other) (hlen : front.length = other.length) : front = other := by
  have hle : (front ++ [quote]).length ≤ (other ++ [quote]).length := by simp [hlen]
  have hsame := List.prefix_of_prefix_length_le h.isPrefix ho.isPrefix hle
  exact List.append_cancel_right (hsame.eq_of_length (by simp [hlen]))

theorem quoteAfter_escape (hq : quote ≠ '\\') (d : Char) (ds : List Char) :
    QuoteAfter quote ('\\' :: d :: ds) front ↔
      ∃ back, front = '\\' :: d :: back ∧ QuoteAfter quote ds back := by
  constructor
  · rintro ⟨hescaping, hprefix⟩
    cases hescaping with
    | nil => exact absurd (List.cons_prefix_cons.mp hprefix).1 hq
    | rune hc h => exact absurd (List.cons_prefix_cons.mp hprefix).1 hc
    | escape c h =>
        obtain ⟨rfl, hback⟩ := List.cons_prefix_cons.mp (List.cons_prefix_cons.mp hprefix).2
        exact ⟨_, rfl, h, hback⟩
  · rintro ⟨back, rfl, h⟩
    refine ⟨.escape d h.escaping, ?_⟩
    exact (List.prefix_cons_inj _).mpr ((List.prefix_cons_inj d).mpr h.isPrefix)

theorem quoteAfter_rune {c : Char} (hc : c ≠ '\\') (cs : List Char) :
    QuoteAfter quote (c :: cs) front ↔
      front = [] ∧ c = quote ∨ ∃ back, front = c :: back ∧ QuoteAfter quote cs back := by
  constructor
  · rintro ⟨hescaping, hprefix⟩
    cases hescaping with
    | nil => exact .inl ⟨rfl, (List.cons_prefix_cons.mp hprefix).1.symm⟩
    | rune _ h =>
        obtain ⟨rfl, hback⟩ := List.cons_prefix_cons.mp hprefix
        exact .inr ⟨_, rfl, h, hback⟩
    | escape d h => exact absurd (List.cons_prefix_cons.mp hprefix).1.symm hc
  · rintro (⟨rfl, rfl⟩ | ⟨back, rfl, h⟩)
    · exact ⟨.nil, cs, rfl⟩
    · exact ⟨.rune hc h.escaping, (List.prefix_cons_inj c).mpr h.isPrefix⟩

/-- A backslash that is the last rune takes nothing, and closes nothing. -/
theorem not_quoteAfter_backslash (hq : quote ≠ '\\') (front : List Char) :
    ¬ QuoteAfter quote ['\\'] front := by
  rintro ⟨hescaping, hprefix⟩
  cases hescaping with
  | nil => exact hq (List.cons_prefix_cons.mp hprefix).1
  | rune hc h => exact hc (List.cons_prefix_cons.mp hprefix).1
  | escape c h =>
      have hrest := (List.cons_prefix_cons.mp hprefix).2
      simp at hrest

/-- What closes a literal is the shortest run up to a quote that no backslash takes. -/
theorem closing_spec (hq : quote ≠ '\\') (cs : List Char) :
    (∀ text, closing quote cs = some text →
      ∃ front, text = front ++ [quote] ∧ QuoteAfter quote cs front ∧
        ∀ other, QuoteAfter quote cs other → front.length ≤ other.length) ∧
    (closing quote cs = none → ∀ front, ¬ QuoteAfter quote cs front) := by
  fun_induction closing quote cs with
  | case1 => exact ⟨by simp, fun _ front h => by simpa using h.isPrefix⟩
  | case2 => exact ⟨by simp, fun _ => not_quoteAfter_backslash hq⟩
  | case3 d ds ih =>
      obtain ⟨hsome, hnone⟩ := ih
      simp only [quoteAfter_escape hq]
      refine ⟨fun text h => ?_, fun h front hfront => ?_⟩
      · obtain ⟨text', ht, rfl⟩ := Option.map_eq_some_iff.mp h
        obtain ⟨front, rfl, hfront, hmin⟩ := hsome text' ht
        refine ⟨_, rfl, ⟨front, rfl, hfront⟩, ?_⟩
        rintro other ⟨back, rfl, hback⟩
        simpa using hmin back hback
      · obtain ⟨back, -, hback⟩ := hfront
        exact hnone (Option.map_eq_none_iff.mp h) back hback
  | case4 cs hc =>
      refine ⟨fun text h => ?_, fun h => by cases h⟩
      cases h
      exact ⟨[], rfl, ⟨.nil, cs, rfl⟩, fun _ _ => Nat.zero_le _⟩
  | case5 c cs hb hc ih =>
      obtain ⟨hsome, hnone⟩ := ih
      simp only [quoteAfter_rune hb, hc, and_false, false_or]
      refine ⟨fun text h => ?_, fun h front hfront => ?_⟩
      · obtain ⟨text', ht, rfl⟩ := Option.map_eq_some_iff.mp h
        obtain ⟨front, rfl, hfront, hmin⟩ := hsome text' ht
        refine ⟨_, rfl, ⟨front, rfl, hfront⟩, ?_⟩
        rintro other ⟨back, rfl, hback⟩
        simpa using hmin back hback
      · obtain ⟨back, -, hback⟩ := hfront
        exact hnone (Option.map_eq_none_iff.mp h) back hback

end Runes

/-! ## Tokens -/

namespace Token

open FragmentReader

variable {r : FragmentReader} {kind : TokenKind} {lead : List Char} {quote : Char}
  {cs : List Char} {p : Position}

/-- The words that literals are led by, if any, with the kinds of the literals. -/
def literalLeads : List (List Char × TokenKind) :=
  [([], .nonEmptyString), ("unicode".toList, .unicodeString), ("hex".toList, .hexString)]

theorem eq_nonEmptyString_iff (hlead : (lead, kind) ∈ literalLeads) :
    kind = .nonEmptyString ↔ lead = [] := by
  simp only [literalLeads, List.mem_cons, Prod.mk.injEq, List.not_mem_nil, or_false] at hlead
  rcases hlead with ⟨rfl, rfl⟩ | ⟨rfl, rfl⟩ | ⟨rfl, rfl⟩ <;> decide

/-- The answer `x` is the one for the literal of the given kind that stands at `p`, led by `lead`
and opened by `quote` in front of `cs`. -/
structure Quotes (kind : TokenKind) (lead : List Char) (quote : Char) (cs : List Char)
    (p : Position) (x : EStateM.Result SourceError FragmentReader Token) : Prop where
  closed : ∀ body, Runes.closing quote cs = some body →
    ∃ s, s.Stands (cs.drop body.length) (p.advance (lead ++ quote :: body)) ∧
      x = if kind = .hexString ∧ !HexBody.isValid body.dropLast then
          .error (.refused ⟨p.advance lead, .malformedHex⟩) s
        else
          .ok ⟨if kind = .nonEmptyString ∧ body.length = 1 then .emptyString else kind,
            lead ++ quote :: body, p⟩ s
  unclosed : Runes.closing quote cs = none →
    ∃ s, x = .error (.refused ⟨p.advance (lead ++ quote :: cs), .unclosedQuote⟩) s

theorem quotes_plainLiteral (hq : Rune.isQuote quote = true) (h : r.Stands cs (p.after quote)) :
    Quotes .nonEmptyString [] quote cs p (plainLiteral ⟨p, [quote]⟩ r) := by
  obtain ⟨hsome, hnone⟩ := plainLiteral_stands hq h
  refine ⟨fun body hc => ?_, hnone⟩
  obtain ⟨s, ha, hs⟩ := hsome body hc
  exact ⟨s, ha, by simpa using hs⟩

theorem quotes_ledLiteral (hk : kind ≠ .nonEmptyString) (hq : Rune.isQuote quote = true)
    (h : r.Stands (quote :: cs) (p.advance lead)) :
    Quotes kind lead quote cs p (ledLiteral ⟨p, lead⟩ kind r) := by
  obtain ⟨hsome, hnone⟩ := ledLiteral_stands kind hq h
  refine ⟨fun body hc => ?_, hnone⟩
  obtain ⟨s, ha, hs⟩ := hsome body hc
  exact ⟨s, ha, by simpa [hk] using hs⟩

/-- A word that touches a quote leads the literal. -/
theorem led_eq_ledLiteral (kind : TokenKind) (hq : Rune.isQuote quote = true)
    (h : r.Ahead (quote :: cs) (p.advance lead)) :
    ∃ s, s.Stands (quote :: cs) (p.advance lead) ∧
      led ⟨p, lead⟩ kind r = ledLiteral ⟨p, lead⟩ kind s := by
  obtain ⟨s, hs, ha, -⟩ := peek_cons (.inl h) (List.cons_ne_nil quote cs)
  refine ⟨s, ha, ?_⟩
  have hnext : Fragment.next ⟨p, lead⟩ = p.advance lead := rfl
  rw [led, hs]
  dsimp only
  rw [if_pos ⟨(isQuote_lexeme _ _ _).trans hq, hnext.symm⟩]

theorem lexeme_lead (hlead : (lead, kind) ∈ literalLeads) (hne : lead ≠ [])
    (hq : Rune.isQuote quote = true) (cs : List Char) :
    Runes.lexeme (lead ++ quote :: cs) = lead := by
  have hquote := Rune.isQuote_iff.mp hq
  simp only [literalLeads, List.mem_cons, Prod.mk.injEq, List.not_mem_nil, or_false] at hlead
  rcases hlead with ⟨rfl, -⟩ | ⟨rfl, -⟩ | ⟨rfl, -⟩
  · exact absurd rfl hne
  all_goals rcases hquote with rfl | rfl <;> rfl

/-- The first fragment of a literal decides how the rest is read. -/
theorem quotes_ofFragment (hlead : (lead, kind) ∈ literalLeads) (hq : Rune.isQuote quote = true)
    (h : r.Ahead (Runes.afterLexeme (lead ++ quote :: cs))
      (p.advance (Runes.lexeme (lead ++ quote :: cs)))) :
    Quotes kind lead quote cs p (ofFragment ⟨p, Runes.lexeme (lead ++ quote :: cs)⟩ r) := by
  by_cases hne : lead = []
  · have hk : kind = .nonEmptyString := by
      simpa [hne, literalLeads] using hlead
    have hx : Runes.lexeme (quote :: cs) = [quote] := Runes.lexeme_of_special (.inl hq) cs
    have hquote : Fragment.isQuote ⟨p, [quote]⟩ = true := hq
    subst hne hk
    rw [List.nil_append, Runes.afterLexeme, hx] at h
    rw [List.nil_append, hx, ofFragment, if_pos hquote]
    exact quotes_plainLiteral hq (.inl h)
  · have hx := lexeme_lead hlead hne hq cs
    rw [Runes.afterLexeme, hx, List.drop_left] at h
    obtain ⟨s, ha, hled⟩ := led_eq_ledLiteral kind hq h
    rw [hx]
    simp only [literalLeads, List.mem_cons, Prod.mk.injEq, List.not_mem_nil, or_false] at hlead
    rcases hlead with ⟨rfl, -⟩ | ⟨rfl, rfl⟩ | ⟨rfl, rfl⟩
    · exact absurd rfl hne
    · have hword : ofFragment ⟨p, "unicode".toList⟩ r =
          led ⟨p, "unicode".toList⟩ .unicodeString r :=
        rfl
      rw [hword, hled]
      exact quotes_ledLiteral (by decide) hq ha
    · have hword : ofFragment ⟨p, "hex".toList⟩ r = led ⟨p, "hex".toList⟩ .hexString r := rfl
      rw [hword, hled]
      exact quotes_ledLiteral (by decide) hq ha

theorem head_lead (hlead : (lead, kind) ∈ literalLeads) (hq : Rune.isQuote quote = true)
    (cs : List Char) : ∃ first rest, lead ++ quote :: cs = first :: rest ∧
      ¬ Rune.isBlank first = true := by
  simp only [literalLeads, List.mem_cons, Prod.mk.injEq, List.not_mem_nil, or_false] at hlead
  rcases hlead with ⟨rfl, -⟩ | ⟨rfl, -⟩ | ⟨rfl, -⟩
  · refine ⟨quote, cs, rfl, fun hb => ?_⟩
    simp [Runes.isQuote_of_isBlank hb] at hq
  all_goals exact ⟨_, _, rfl, by decide⟩

/-- Reading a token where a literal comes next, perhaps behind blanks. -/
theorem quotes_read {blanks : List Char} (hblanks : ∀ c ∈ blanks, Rune.isBlank c = true)
    (hlead : (lead, kind) ∈ literalLeads) (hq : Rune.isQuote quote = true)
    (h : r.Stands (blanks ++ (lead ++ quote :: cs)) p) :
    Quotes kind lead quote cs (p.advance blanks) (read r) := by
  obtain ⟨first, rest, hhead, hsolid⟩ := head_lead hlead hq cs
  have hdrop : (blanks ++ (lead ++ quote :: cs)).dropWhile Rune.isBlank = lead ++ quote :: cs := by
    rw [List.dropWhile_append_of_pos hblanks, hhead, List.dropWhile_cons_of_neg hsolid]
  have htake : (blanks ++ (lead ++ quote :: cs)).takeWhile Rune.isBlank = blanks := by
    rw [List.takeWhile_append_of_pos hblanks, hhead, List.takeWhile_cons_of_neg hsolid,
      List.append_nil]
  have hnext := (nextSolid_stands h).2
  rw [hdrop, htake] at hnext
  obtain ⟨s, hs, ha⟩ := hnext (by simp)
  rw [read, hs]
  exact quotes_ofFragment hlead hq ha

end Token

/-! ## Readers of a text -/

/-- A reader stands somewhere in the text. -/
def FragmentReader.Within (text : List Char) (r : FragmentReader) : Prop :=
  ∃ before ahead, text = before ++ ahead ∧ r.Stands ahead (Position.start.advance before)

/-- Fragments are handed out and looked at without a failure, and what passing over a fragment
keeps of the places where a reader stands is kept. -/
theorem FragmentReader.keeps_places {fits : List Char → List Char → Prop}
    (hpass : ∀ before ahead, fits before ahead → ahead ≠ [] →
      fits (before ++ Runes.lexeme ahead) (Runes.afterLexeme ahead)) :
    Keeps (fun r => ∃ before ahead, fits before ahead ∧
      r.Stands ahead (Position.start.advance before)) fun _ => False where
  next := by
    rintro r ⟨before, ahead, hfits, h⟩
    by_cases hne : ahead = []
    · subst hne
      obtain ⟨s, hs, ha⟩ := next_nil h
      rw [hs]
      exact ⟨before, [], hfits, ha⟩
    · obtain ⟨s, hs, ha⟩ := next_cons h hne
      rw [hs]
      refine ⟨_, _, hpass before ahead hfits hne, ?_⟩
      rw [Position.advance_append]
      exact .inl ha
  peek := by
    rintro r ⟨before, ahead, hfits, h⟩
    by_cases hne : ahead = []
    · subst hne
      obtain ⟨s, hs, ha⟩ := peek_nil h
      rw [hs]
      exact ⟨before, [], hfits, ha⟩
    · obtain ⟨s, hs, ha, -⟩ := peek_cons h hne
      rw [hs]
      exact ⟨before, ahead, hfits, ha⟩
  release := by
    rintro r ⟨before, ahead, hfits, h | ⟨hne, hheld, ha⟩⟩
    · have hnone : { r with held := none } = r := by
        have hheld := h.held
        cases r
        cases hheld
        rfl
      rw [hnone]
      exact ⟨before, ahead, hfits, .inl h⟩
    · refine ⟨_, _, hpass before ahead hfits hne, ?_⟩
      rw [Position.advance_append]
      exact .inl ha

theorem FragmentReader.keeps_within (text : List Char) :
    Keeps (Within text) fun _ => False :=
  keeps_places fun before ahead htext _ => by
    rw [List.append_assoc, Runes.lexeme_append_afterLexeme, htext]

namespace TokenReader

variable {text : List Char} {r s : TokenReader} {t : Token}

/-- The reader stands in the text and holds no token, or holds the one that such a reader
looked at. -/
def Within (text : List Char) (r : TokenReader) : Prop :=
  ∃ s : TokenReader, s.held = none ∧ s.fragments.Within text ∧
    (r = s ∨ ∃ t, s.peek = .ok t r)

theorem within_ofFeed (text : List Char) : (ofFeed (.ofText text)).Within text := by
  refine ⟨_, rfl, ⟨[], text, rfl, .inl ?_⟩, .inl rfl⟩
  rw [Feed.ofText_eq_runes]
  exact FragmentReader.ahead_ofFeed text

/-- Behind the next token, or where reading it failed, no token is held. -/
theorem Within.next (h : r.Within text) :
    (left r.next).held = none ∧ (left r.next).fragments.Within text := by
  obtain ⟨s, hnone, hs, hr⟩ := h
  have hread := Token.ends_read (FragmentReader.keeps_within text) hs
  have hnext : r.next = s.next := by
    rcases hr with rfl | ⟨t, hpeek⟩
    · rfl
    · exact (next_of_peek hpeek).1
  rw [hnext, TokenReader.next, hnone]
  dsimp only
  cases hx : Token.read s.fragments with
  | ok t u => exact ⟨rfl, hread.ok hx⟩
  | error e u => exact ⟨rfl, (hread.error hx).2⟩

theorem Within.of_held_none (hn : r.held = none) (h : r.fragments.Within text) :
    r.Within text := ⟨r, hn, h, .inl rfl⟩

theorem Within.peek (h : r.Within text) : (left r.peek).Within text := by
  obtain ⟨s, hnone, hs, rfl | ⟨t, hpeek⟩⟩ := h
  · have hread := Token.ends_read (FragmentReader.keeps_within text) hs
    cases hx : Token.read r.fragments with
    | ok t u =>
        have hpeek : r.peek = .ok t ⟨u, some t⟩ := by simp [TokenReader.peek, hnone, hx]
        rw [hpeek]
        exact ⟨r, hnone, hs, .inr ⟨t, hpeek⟩⟩
    | error e u =>
        have hpeek : r.peek = .error e { r with fragments := u } := by
          simp [TokenReader.peek, hnone, hx]
        rw [hpeek]
        exact .of_held_none hnone (hread.error hx).2
  · rw [peek_of_peek hpeek, hpeek]
    exact ⟨s, hnone, hs, .inr ⟨t, hpeek⟩⟩

theorem Within.all (h : r.Within text) : (left r.all).Within text := by
  fun_induction TokenReader.all r with
  | case1 r e s hn =>
      have hs := h.next
      rw [hn] at hs
      exact .of_held_none hs.1 hs.2
  | case2 r t s hn ht =>
      have hs := h.next
      rw [hn] at hs
      exact .of_held_none hs.1 hs.2
  | case3 r t s hn ht ts u ha ih =>
      have hs := h.next
      rw [hn] at hs
      have hu := ih (.of_held_none hs.1 hs.2)
      rwa [ha] at hu
  | case4 r t s hn ht e u ha ih =>
      have hs := h.next
      rw [hn] at hs
      have hu := ih (.of_held_none hs.1 hs.2)
      rwa [ha] at hu

theorem Within.step (s : TokenStep) (h : r.Within text) : (left (step s r)).Within text := by
  have hmap : ∀ x : EStateM SourceError TokenReader Token,
      left (((fun t => [t]) <$> x) r) = left (x r) := by
    intro x
    show left (EStateM.map _ x r) = _
    unfold EStateM.map
    cases x r <;> rfl
  cases s with
  | next =>
      rw [TokenReader.step, hmap]
      exact .of_held_none h.next.1 h.next.2
  | peek =>
      rw [TokenReader.step, hmap]
      exact h.peek
  | all => exact h.all

/-- Where a reader stands in the text, and no token is held. A token that was looked at may have
been found behind blanks. -/
theorem Within.exists_stands {before rest : List Char} (h : r.Within text)
    (htext : text = before ++ rest) (hp : r.position = Position.start.advance before) :
    ∃ (s : TokenReader) (front blanks : List Char), s.held = none ∧ r.next = s.next ∧
      before = front ++ blanks ∧ (∀ c ∈ blanks, Rune.isBlank c = true) ∧
      s.fragments.Stands (blanks ++ rest) (Position.start.advance front) := by
  obtain ⟨s, hnone, ⟨front, ahead, hfront, hs⟩, rfl | ⟨t, hpeek⟩⟩ := h
  · rw [position, hnone] at hp
    have hsame : before = front :=
      Position.eq_of_advance_eq (htext.symm.trans hfront) (hp.symm.trans hs.position_eq)
    subst hsame
    rw [htext] at hfront
    rw [List.append_cancel_left hfront]
    exact ⟨r, before, [], hnone, rfl, by simp, by simp, hs⟩
  · have hposition : t.position =
        (Position.start.advance front).advance (ahead.takeWhile Rune.isBlank) := by
      have hreads := Token.read_reads hs.near
      have hread : ∃ u, Token.read s.fragments = .ok t u := by
        simp only [TokenReader.peek, hnone] at hpeek
        split at hpeek
        · next hx => cases hpeek; exact ⟨_, hx⟩
        · cases hpeek
      obtain ⟨u, hu⟩ := hread
      rw [hu] at hreads
      cases hplace : Place.read ⟨ahead, Position.start.advance front⟩ with
      | error fault =>
          rw [hplace] at hreads
          obtain ⟨v, hv⟩ := hreads
          cases hv
      | ok found =>
          rw [hplace] at hreads
          obtain ⟨v, hv, -⟩ := hreads
          cases hv
          exact Place.position_of_read hplace
    have hsplit : before ++ rest =
        (front ++ ahead.takeWhile Rune.isBlank) ++ ahead.dropWhile Rune.isBlank := by
      rw [List.append_assoc, List.takeWhile_append_dropWhile, ← hfront, htext]
    rw [← Position.advance_append] at hposition
    have hheld : r.position = t.position := by rw [position, (next_of_peek hpeek).2]
    have hsame := Position.eq_of_advance_eq hsplit (hp.symm.trans (hheld.trans hposition))
    rw [hsame] at hsplit
    refine ⟨s, front, _, hnone, (next_of_peek hpeek).1, hsame,
      fun c hc => Runes.mem_takeWhile_imp hc, ?_⟩
    rw [List.append_cancel_left hsplit, List.takeWhile_append_dropWhile]
    exact hs

/-- A reader of a text comes to stand where a literal comes next, perhaps led by a word: after
any steps, some of which may have failed. The literal that it reads goes up to the first quote
that no backslash takes, where a backslash takes one rune, and the reader goes on right behind
this quote; a `hex` literal is refused there if it holds no byte pairs. If there is no such
quote, the literal is refused at the end of the text. -/
theorem next_literal {text before blanks lead cs : List Char} {quote : Char} {kind : TokenKind}
    (htext : text = before ++ (blanks ++ (lead ++ quote :: cs)))
    (hblanks : ∀ c ∈ blanks, Rune.isBlank c = true) (hlead : (lead, kind) ∈ Token.literalLeads)
    (hq : Rune.isQuote quote = true) (steps : List TokenStep)
    (hp : (leftBy step steps (ofFeed (.ofText text))).position =
      Position.start.advance before) :
    let r := leftBy step steps (ofFeed (.ofText text))
    let place := Position.start.advance (before ++ blanks)
    (∀ front rest, cs = front ++ quote :: rest → Runes.Escaping front →
      (∀ other, Runes.QuoteAfter quote cs other → front.length ≤ other.length) →
      ∃ s, s.held = none ∧
        s.fragments.Stands rest (place.advance (lead ++ quote :: (front ++ [quote]))) ∧
        r.next =
          if kind = .hexString ∧ HexBody.isValid front = false then
            .error (.refused ⟨place.advance lead, .malformedHex⟩) s
          else
            .ok ⟨if lead = [] ∧ front = [] then .emptyString else kind,
              lead ++ quote :: (front ++ [quote]), place⟩ s) ∧
    ((∀ front, ¬ Runes.QuoteAfter quote cs front) →
      ∃ s, r.next = .error (.refused ⟨Position.start.advance text, .unclosedQuote⟩) s) := by
  intro r place
  have hr : r.Within text := leftBy_induction (fun s _ => Within.step s) (within_ofFeed text) steps
  obtain ⟨s, base, skipped, hnone, hnext, rfl, hskipped, hs⟩ := hr.exists_stands htext hp
  have hquote : quote ≠ '\\' := by
    rintro rfl
    cases hq
  have hall : ∀ c ∈ skipped ++ blanks, Rune.isBlank c = true := by
    simpa [or_imp, forall_and] using ⟨hskipped, hblanks⟩
  rw [← List.append_assoc] at hs
  have hread := Token.quotes_read hall hlead hq hs
  have hplace : (Position.start.advance base).advance (skipped ++ blanks) = place := by
    rw [← Position.advance_append, ← List.append_assoc]
  rw [hplace] at hread
  obtain ⟨hsome, hopen⟩ := Runes.closing_spec hquote cs
  refine ⟨fun front rest hcs hescaping hmin => ?_, fun hnever => ?_⟩
  · have hafter : Runes.QuoteAfter quote cs front := ⟨hescaping, rest, by rw [hcs]; simp⟩
    cases hc : Runes.closing quote cs with
    | none => exact absurd hafter (hopen hc front)
    | some body =>
        obtain ⟨front', rfl, hafter', hmin'⟩ := hsome body hc
        have hfront : front' = front := hafter'.eq_of_length hafter
          (Nat.le_antisymm (hmin' _ hafter) (hmin _ hafter'))
        subst hfront
        obtain ⟨u, hu, hx⟩ := hread.closed _ hc
        have hrest : cs.drop (front' ++ [quote]).length = rest := by
          rw [hcs, List.append_cons front' quote rest, List.drop_left]
        rw [hrest] at hu
        refine ⟨⟨u, none⟩, rfl, hu, ?_⟩
        have hempty : (kind = .nonEmptyString ∧ (front' ++ [quote]).length = 1) =
            (lead = [] ∧ front' = []) := by
          simp [Token.eq_nonEmptyString_iff hlead]
        have hhex : (kind = .hexString ∧ (!HexBody.isValid (front' ++ [quote]).dropLast) = true) =
            (kind = .hexString ∧ HexBody.isValid front' = false) := by
          simp
        simp only [hempty, hhex] at hx
        rw [hnext]
        by_cases hbad : kind = .hexString ∧ HexBody.isValid front' = false
        · rw [if_pos hbad] at hx
          simp only [next, hnone, hx, if_pos hbad]
        · rw [if_neg hbad] at hx
          simp only [next, hnone, hx, if_neg hbad]
  · cases hc : Runes.closing quote cs with
    | some body =>
        obtain ⟨front, -, hafter, -⟩ := hsome body hc
        exact absurd hafter (hnever front)
    | none =>
        obtain ⟨u, hu⟩ := hread.unclosed hc
        refine ⟨⟨u, none⟩, ?_⟩
        have hend : place.advance (lead ++ quote :: cs) = Position.start.advance text := by
          rw [htext, ← List.append_assoc, Position.advance_append _ (_ ++ _)]
        rw [hnext]
        simp only [next, hnone, hu, hend]

/-- A backslash is refused, and the literal behind it, with an escaped quote inside, is read. -/
theorem next_literal_after_error :
    (leftBy step [.next] (ofFeed (.ofText "\\ 'a\\'';".toList))).position = ⟨1, 2⟩ ∧
      ∃ s, s.held = none ∧ s.fragments.Stands [';'] ⟨1, 8⟩ ∧
        (leftBy step [.next] (ofFeed (.ofText "\\ 'a\\'';".toList))).next =
          .ok ⟨.nonEmptyString, "'a\\''".toList, ⟨1, 3⟩⟩ s := by
  have hp : (leftBy step [.next] (ofFeed (.ofText "\\ 'a\\'';".toList))).position = ⟨1, 2⟩ := by
    rw [Feed.ofText_eq_runes]
    cbv
  have htext : "\\ 'a\\'';".toList =
      ['\\'] ++ ([' '] ++ ([] ++ '\'' :: ['a', '\\', '\'', '\'', ';'])) := rfl
  have hlead : ([], TokenKind.nonEmptyString) ∈ Token.literalLeads := by decide
  have hliteral := next_literal htext (List.forall_mem_singleton.mpr rfl) hlead rfl [.next] hp
  refine ⟨hp, hliteral.1 ['a', '\\', '\''] [';'] rfl (.rune (by decide) (.escape _ .nil)) ?_⟩
  intro other hother
  rw [Runes.quoteAfter_rune (by decide)] at hother
  obtain ⟨-, h⟩ | ⟨back, rfl, hback⟩ := hother
  · cases h
  · obtain ⟨back', rfl, -⟩ := (Runes.quoteAfter_escape (by decide) _ _).mp hback
    simp

end TokenReader

end SoliditySource
