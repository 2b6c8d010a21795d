import SoliditySource.Proofs.Fragment.Literal

/-! # Tokens of a text

The first token of a text is a matter of its runes alone (`Runes.token`), and where it
stands only adds a position to it (`Place.read`). A reader gives this token and comes to
stand right after it, or a few blanks further on.
-/

namespace SoliditySource

theorem Rune.isQuote_iff {c : Char} : isQuote c = true ↔ c = '"' ∨ c = '\'' := by
  simp [isQuote]

namespace Runes

/-- The literal that `quote` opens in front of `rest`. -/
def plainLiteral (quote : Char) (rest : List Char) :
    Except (List Char × Cause) (TokenKind × List Char) :=
  match closing quote rest with
  | some body =>
      .ok (if (quote :: body).length = 2 then .emptyString else .nonEmptyString, quote :: body)
  | none => .error (quote :: rest, .unclosedQuote)

/-- The literal that the word `lead` leads and `quote` opens in front of `rest`. -/
def ledLiteral (kind : TokenKind) (lead : List Char) (quote : Char) (rest : List Char) :
    Except (List Char × Cause) (TokenKind × List Char) :=
  match closing quote rest with
  | some body =>
      if kind = .hexString ∧ !HexBody.isValid body.dropLast then .error (lead, .malformedHex)
      else .ok (kind, lead ++ quote :: body)
  | none => .error (lead ++ quote :: rest, .unclosedQuote)

/-- What becomes of the word `lead` in front of `rest` if quotes make it lead a literal. -/
def led (kind : TokenKind) (lead : List Char) :
    List Char → Except (List Char × Cause) (TokenKind × List Char)
  | [] => .ok (.classify lead, lead)
  | c :: rest =>
      if Rune.isQuote c then ledLiteral kind lead c rest
      else if ((c :: rest).dropWhile Rune.isBlank).head?.any Rune.isQuote then
        .error (lead, .detachedQuote lead)
      else .ok (.classify lead, lead)

/-- The kind and the text of the token at the start of a text that starts with no blank.
A refusal comes with the text in front of its place. -/
def token : List Char → Except (List Char × Cause) (TokenKind × List Char)
  | [] => .ok (.eos, [])
  | first :: rest =>
      if Rune.isQuote first then plainLiteral first rest
      else if first = '\\' then .error ([], .strayBackslash)
      else
        let word := lexeme (first :: rest)
        if word = "unicode".toList then led .unicodeString word (afterLexeme (first :: rest))
        else if word = "hex".toList then led .hexString word (afterLexeme (first :: rest))
        else .ok (.classify word, word)

/-! ## Words and the literals that they lead -/

/-- The token that starts with `word` in front of `rest`. -/
def ofWord (word rest : List Char) : Except (List Char × Cause) (TokenKind × List Char) :=
  if word = "unicode".toList then led .unicodeString word rest
  else if word = "hex".toList then led .hexString word rest
  else .ok (.classify word, word)

theorem token_of_word {first : Char} {rest : List Char} (hq : ¬ Rune.isQuote first = true)
    (hb : first ≠ '\\') :
    token (first :: rest) = ofWord (lexeme (first :: rest)) (afterLexeme (first :: rest)) := by
  rw [token, if_neg hq, if_neg hb]
  rfl

/-- No quote comes next, neither right away nor behind blanks. -/
def Unquoted (rest : List Char) : Prop :=
  (rest.dropWhile Rune.isBlank).head?.any Rune.isQuote = false

theorem isQuote_of_isBlank {c : Char} (h : Rune.isBlank c = true) : Rune.isQuote c = false := by
  rw [← Bool.not_eq_true]
  intro hq
  rcases Rune.isQuote_iff.mp hq with rfl | rfl <;> revert h <;> decide

theorem Unquoted.isQuote_eq_false {c : Char} {rest : List Char} (h : Unquoted (c :: rest)) :
    Rune.isQuote c = false := by
  by_cases hb : Rune.isBlank c = true
  · exact isQuote_of_isBlank hb
  · rw [Unquoted, List.dropWhile_cons_of_neg hb] at h
    exact h

/-- What closes a literal does not depend on what comes after it. -/
theorem closing_whole {quote : Char} {cs body : List Char} (h : closing quote cs = some body)
    (rest : List Char) : closing quote (body ++ rest) = some body := by
  fun_induction closing quote cs generalizing body with
  | case1 => cases h
  | case2 => cases h
  | case3 d ds ih =>
      obtain ⟨text, ht, rfl⟩ := Option.map_eq_some_iff.mp h
      rw [List.cons_append, List.cons_append, closing, if_pos rfl, ih ht]
      rfl
  | case4 cs hb =>
      cases h
      rw [List.singleton_append, closing.eq_def]
      dsimp only
      rw [if_neg hb, if_pos rfl]
  | case5 c cs hb hq ih =>
      obtain ⟨text, ht, rfl⟩ := Option.map_eq_some_iff.mp h
      rw [List.cons_append, closing.eq_def]
      dsimp only
      rw [if_neg hb, if_neg hq, ih ht]
      rfl

/-- A word leads a literal, which is read again whatever comes behind it, or stands by itself. -/
theorem led_eq_ok {kind kind' : TokenKind} {lead rest text : List Char}
    (h : led kind lead rest = .ok (kind', text)) :
    (text = lead ∧ kind' = .classify lead ∧ Unquoted rest) ∨
      ∃ quote body, quote :: body <+: rest ∧ Rune.isQuote quote = true ∧ kind' = kind ∧
        text = lead ++ quote :: body ∧
        ∀ other, led kind lead (quote :: (body ++ other)) = .ok (kind', text) := by
  cases rest with
  | nil =>
      cases h
      exact .inl ⟨rfl, rfl, rfl⟩
  | cons c rest =>
      rw [led] at h
      by_cases hq : Rune.isQuote c = true
      · rw [if_pos hq, ledLiteral] at h
        split at h
        · next body hb =>
            split at h
            · cases h
            · next hhex =>
                cases h
                have hbody := (List.prefix_cons_inj c).mpr (isPrefix_closing hb)
                refine .inr ⟨c, body, hbody, hq, rfl, rfl, fun other => ?_⟩
                rw [led, if_pos hq, ledLiteral, closing_whole hb]
                dsimp only
                rw [if_neg hhex]
        · cases h
      · rw [if_neg hq] at h
        split at h
        · cases h
        · next hd =>
            cases h
            exact .inl ⟨rfl, rfl, eq_false_of_ne_true hd⟩

theorem led_word {lead rest : List Char} (kind : TokenKind) (h : Unquoted rest) :
    led kind lead rest = .ok (.classify lead, lead) := by
  cases rest with
  | nil => rfl
  | cons c rest =>
      rw [led, h.isQuote_eq_false, if_neg Bool.false_ne_true, show _ = false from h,
        if_neg Bool.false_ne_true]

/-- The kind of a token that starts with a word: that of the word, or that of the literals which
the word leads. -/
theorem ofWord_eq_ok {word rest text : List Char} {kind : TokenKind}
    (h : ofWord word rest = .ok (kind, text)) :
    ∃ more, text = word ++ more ∧ more <+: rest ∧
      (kind = .classify text ∨ kind = .unicodeString ∨ kind = .hexString) := by
  have hled : ∀ {kind' : TokenKind}, led kind' word rest = .ok (kind, text) →
      ∃ more, text = word ++ more ∧ more <+: rest ∧ (kind = .classify text ∨ kind = kind') := by
    intro kind' hl
    rcases led_eq_ok hl with ⟨rfl, hkind, -⟩ | ⟨quote, body, hbody, -, hkind, htext, -⟩
    · exact ⟨[], by simp, List.nil_prefix, .inl hkind⟩
    · exact ⟨quote :: body, htext, hbody, .inr hkind⟩
  unfold ofWord at h
  split at h
  · obtain ⟨more, htext, hmore, hkind⟩ := hled h
    exact ⟨more, htext, hmore, hkind.imp_right .inl⟩
  · split at h
    · obtain ⟨more, htext, hmore, hkind⟩ := hled h
      exact ⟨more, htext, hmore, hkind.imp_right .inr⟩
    · cases h
      exact ⟨[], by simp, List.nil_prefix, .inl rfl⟩

end Runes

/-- Where a text is being read: the runes ahead and the position of the first of them. -/
structure Place where
  runes : List Char
  position : Position
  deriving DecidableEq, Repr

namespace Place

/-- The start of a text. -/
def ofText (text : List Char) : Place := ⟨text, .start⟩

/-- The place right after `text`, which is ahead. -/
def past (place : Place) (text : List Char) : Place :=
  ⟨place.runes.drop text.length, place.position.advance text⟩

/-- The next place that is not blank. -/
def solid (place : Place) : Place :=
  ⟨place.runes.dropWhile Rune.isBlank,
    place.position.advance (place.runes.takeWhile Rune.isBlank)⟩

/-- What is found at a place, with positions and the place right after it. -/
def locate (place : Place) :
    Except (List Char × Cause) (TokenKind × List Char) → Except Fault (Token × Place)
  | .ok (kind, text) => .ok (⟨kind, text, place.position⟩, place.past text)
  | .error (before, cause) => .error ⟨place.position.advance before, cause⟩

/-- The next token, and the place right after it. -/
def read (place : Place) : Except Fault (Token × Place) :=
  place.solid.locate (Runes.token place.solid.runes)

@[simp] theorem past_append (text rest : List Char) (p : Position) :
    past ⟨text ++ rest, p⟩ text = ⟨rest, p.advance text⟩ := by
  rw [past, List.drop_left]

theorem solid_of_blanks {place : Place} {blanks rest : List Char}
    (hr : place.runes = blanks ++ rest) (hb : ∀ c ∈ blanks, Rune.isBlank c = true) :
    place.solid = (Place.mk rest (place.position.advance blanks)).solid := by
  rw [solid, solid, hr, List.dropWhile_append_of_pos hb, List.takeWhile_append_of_pos hb,
    Position.advance_append]

theorem solid_solid (place : Place) : place.solid.solid = place.solid := by
  have hsplit : place.runes =
      place.runes.takeWhile Rune.isBlank ++ place.runes.dropWhile Rune.isBlank :=
    List.takeWhile_append_dropWhile.symm
  exact (solid_of_blanks hsplit fun c hc => Runes.mem_takeWhile_imp hc).symm

end Place

namespace FragmentReader

variable {r : FragmentReader}

/-- The reader stands at the place, or a few blanks further on. -/
def Near (r : FragmentReader) (place : Place) : Prop :=
  ∃ blanks rest, place.runes = blanks ++ rest ∧ (∀ c ∈ blanks, Rune.isBlank c = true) ∧
    r.Stands rest (place.position.advance blanks)

theorem Stands.near {cs : List Char} {p : Position} (h : r.Stands cs p) : r.Near ⟨cs, p⟩ :=
  ⟨[], cs, rfl, fun _ hc => absurd hc List.not_mem_nil, h⟩

theorem Ahead.near {cs : List Char} {p : Position} (h : r.Ahead cs p) : r.Near ⟨cs, p⟩ :=
  Stands.near (.inl h)

theorem near_ofFeed (text : List Char) : (ofFeed (.ofText text)).Near (.ofText text) := by
  rw [Feed.ofText_eq_runes]
  exact (ahead_ofFeed text).near

/-- A step of a reader gives the answer found from the runes alone. -/
def Reads (answer : Except Fault (Token × Place))
    (x : EStateM.Result SourceError FragmentReader Token) : Prop :=
  match answer with
  | .ok (t, next) => ∃ s, x = .ok t s ∧ s.Near next
  | .error fault => ∃ s, x = .error (.refused fault) s

theorem quoted_stands {quote : Char} {rest : List Char} {p q : Position}
    (hq : Rune.isQuote quote = true) (h : r.Stands rest q) :
    (∀ body, Runes.closing quote rest = some body →
      ∃ s, quoted ⟨p, [quote]⟩ r = .ok (quote :: body) s ∧
        s.Stands (rest.drop body.length) (q.advance body)) ∧
    (Runes.closing quote rest = none →
      ∃ s, quoted ⟨p, [quote]⟩ r = .error (.refused ⟨q.advance rest, .unclosedQuote⟩) s) := by
  obtain ⟨hsome, hnone⟩ := closeQuote_stands hq h
  have hquote : Fragment.isQuote ⟨p, [quote]⟩ = true := hq
  refine ⟨fun body hb => ?_, fun hn => ?_⟩
  · obtain ⟨s, hs, ha⟩ := hsome body hb
    refine ⟨s, ?_, ha⟩
    rw [quoted, if_pos hquote, hs]
    rfl
  · obtain ⟨s, hs⟩ := hnone hn
    refine ⟨s, ?_⟩
    rw [quoted, if_pos hquote, hs]

end FragmentReader

namespace Token

open FragmentReader

variable {r : FragmentReader}

/-- A literal that `quote` opens leaves the reader right behind it. -/
theorem plainLiteral_stands {quote : Char} {rest : List Char} {p : Position}
    (hq : Rune.isQuote quote = true) (h : r.Stands rest (p.after quote)) :
    (∀ body, Runes.closing quote rest = some body →
      ∃ s, s.Stands (rest.drop body.length) (p.advance (quote :: body)) ∧
        plainLiteral ⟨p, [quote]⟩ r =
          .ok ⟨if (quote :: body).length = 2 then .emptyString else .nonEmptyString,
            quote :: body, p⟩ s) ∧
    (Runes.closing quote rest = none →
      ∃ s, plainLiteral ⟨p, [quote]⟩ r =
        .error (.refused ⟨p.advance (quote :: rest), .unclosedQuote⟩) s) := by
  obtain ⟨hsome, hnone⟩ := quoted_stands (p := p) hq h
  refine ⟨fun body hc => ?_, fun hc => ?_⟩
  · obtain ⟨s, hs, ha⟩ := hsome body hc
    refine ⟨s, ha, ?_⟩
    rw [plainLiteral, hs]
  · obtain ⟨s, hs⟩ := hnone hc
    refine ⟨s, ?_⟩
    rw [plainLiteral, hs]
    rfl

theorem plainLiteral_reads {quote : Char} {rest : List Char} {p : Position}
    (hq : Rune.isQuote quote = true) (h : r.Stands rest (p.after quote)) :
    Reads (Place.locate ⟨quote :: rest, p⟩ (Runes.plainLiteral quote rest))
      (plainLiteral ⟨p, [quote]⟩ r) := by
  obtain ⟨hsome, hnone⟩ := plainLiteral_stands hq h
  rw [Runes.plainLiteral]
  cases hc : Runes.closing quote rest with
  | some body =>
      obtain ⟨s, ha, hs⟩ := hsome body hc
      exact ⟨s, hs, ha.near⟩
  | none => exact hnone hc

/-- A literal that a word leads leaves the reader right behind it, also when it is refused for
what stands between the quotes. -/
theorem ledLiteral_stands {word rest : List Char} {quote : Char} {p : Position}
    (kind : TokenKind) (hq : Rune.isQuote quote = true)
    (h : r.Stands (quote :: rest) (p.advance word)) :
    (∀ body, Runes.closing quote rest = some body →
      ∃ s, s.Stands (rest.drop body.length) (p.advance (word ++ quote :: body)) ∧
        ledLiteral ⟨p, word⟩ kind r =
          if kind = .hexString ∧ !HexBody.isValid body.dropLast then
            .error (.refused ⟨p.advance word, .malformedHex⟩) s
          else .ok ⟨kind, word ++ quote :: body, p⟩ s) ∧
    (Runes.closing quote rest = none →
      ∃ s, ledLiteral ⟨p, word⟩ kind r =
        .error (.refused ⟨p.advance (word ++ quote :: rest), .unclosedQuote⟩) s) := by
  have hx : Runes.lexeme (quote :: rest) = [quote] := Runes.lexeme_of_special (.inl hq) rest
  obtain ⟨s, hs, ha⟩ := nextQuoted_cons h (List.cons_ne_nil quote rest)
  rw [Runes.afterLexeme, hx] at ha
  rw [hx] at hs
  have ha : s.Stands rest ((p.advance word).advance [quote]) := .inl ha
  obtain ⟨hsome, hnone⟩ := quoted_stands (p := p.advance word) hq ha
  refine ⟨fun body hc => ?_, fun hc => ?_⟩
  · obtain ⟨t, ht, hb⟩ := hsome body hc
    refine ⟨t, ?_, ?_⟩
    · rw [Position.advance_append]
      exact hb
    · rw [ledLiteral, hs]
      dsimp only
      rw [ht]
      rfl
  · obtain ⟨t, ht⟩ := hnone hc
    refine ⟨t, ?_⟩
    rw [ledLiteral, hs]
    dsimp only
    rw [ht, Position.advance_append]
    rfl

theorem ledLiteral_reads {word rest : List Char} {quote : Char} {p : Position}
    (kind : TokenKind) (hq : Rune.isQuote quote = true)
    (h : r.Stands (quote :: rest) (p.advance word)) :
    Reads (Place.locate ⟨word ++ quote :: rest, p⟩ (Runes.ledLiteral kind word quote rest))
      (ledLiteral ⟨p, word⟩ kind r) := by
  obtain ⟨hsome, hnone⟩ := ledLiteral_stands kind hq h
  rw [Runes.ledLiteral]
  cases hc : Runes.closing quote rest with
  | some body =>
      obtain ⟨s, ha, hs⟩ := hsome body hc
      have hpast : Place.past ⟨word ++ quote :: rest, p⟩ (word ++ quote :: body) =
          ⟨rest.drop body.length, p.advance (word ++ quote :: body)⟩ := by
        rw [Place.past, List.length_append, ← List.drop_drop, List.drop_left]
        rfl
      dsimp only
      by_cases hhex : kind = .hexString ∧ (!HexBody.isValid body.dropLast) = true
      · rw [if_pos hhex] at hs ⊢
        exact ⟨s, hs⟩
      · rw [if_neg hhex] at hs ⊢
        refine ⟨s, hs, ?_⟩
        rw [hpast]
        exact ha.near
  | none => exact hnone hc

theorem led_reads {word rest : List Char} {p : Position} (kind : TokenKind)
    (h : r.Ahead rest (p.advance word)) :
    Reads (Place.locate ⟨word ++ rest, p⟩ (Runes.led kind word rest)) (led ⟨p, word⟩ kind r) := by
  have hword : ∀ {s : FragmentReader}, s.Near ⟨rest, p.advance word⟩ →
      Reads (Place.locate ⟨word ++ rest, p⟩ (.ok (.classify word, word)))
        (.ok (classified word p) s) := by
    intro s hs
    refine ⟨s, rfl, ?_⟩
    rw [Place.past_append]
    exact hs
  cases rest with
  | nil =>
      obtain ⟨s, hs, ha⟩ := peek_nil (.inl h)
      rw [led, hs]
      exact hword ha.near
  | cons c rest =>
      obtain ⟨s, hs, ha, -⟩ := peek_cons (.inl h) (List.cons_ne_nil c rest)
      have hnext : Fragment.next ⟨p, word⟩ = p.advance word := rfl
      rw [led, hs]
      dsimp only
      rw [isQuote_lexeme, isBlank_lexeme, hnext]
      by_cases hq : Rune.isQuote c = true
      · rw [Runes.led, if_pos hq, if_pos ⟨hq, rfl⟩]
        exact ledLiteral_reads kind hq ha
      · have hled : Runes.led kind word (c :: rest) =
            if ((c :: rest).dropWhile Rune.isBlank).head?.any Rune.isQuote then
              .error (word, .detachedQuote word)
            else .ok (.classify word, word) := by
          rw [Runes.led, if_neg hq]
        rw [if_neg (fun hand => hq hand.1)]
        by_cases hb : Rune.isBlank c = true
        · -- blanks keep what comes next away from the word
          rw [if_pos hb]
          obtain ⟨t, ht, hsolid⟩ := skipBlanks_stands ha
          rw [ht]
          dsimp only
          have hnear : ∀ {u : FragmentReader},
              u.Stands ((c :: rest).dropWhile Rune.isBlank)
                ((p.advance word).advance ((c :: rest).takeWhile Rune.isBlank)) →
              u.Near ⟨c :: rest, p.advance word⟩ := fun hu =>
            ⟨_, _, List.takeWhile_append_dropWhile.symm,
              fun _ hm => Runes.mem_takeWhile_imp hm, hu⟩
          cases hd : (c :: rest).dropWhile Rune.isBlank with
          | nil =>
              rw [hd] at hsolid hnear hled
              obtain ⟨u, hu, hau⟩ := peek_nil hsolid
              rw [hu, hled]
              exact hword (hnear hau)
          | cons d more =>
              rw [hd] at hsolid hnear hled
              obtain ⟨u, hu, hau, -⟩ := peek_cons hsolid (List.cons_ne_nil d more)
              have hany : (some (Fragment.mk _ (Runes.lexeme (d :: more)))).any Fragment.isQuote =
                  Rune.isQuote d := isQuote_lexeme
                ((p.advance word).advance ((c :: rest).takeWhile Rune.isBlank)) d more
              rw [hu, hled]
              dsimp only
              rw [hany]
              by_cases hqd : Rune.isQuote d = true
              · rw [if_pos hqd, if_pos (show (d :: more).head?.any Rune.isQuote = true from hqd)]
                exact ⟨u, rfl⟩
              · rw [if_neg hqd, if_neg (show ¬ (d :: more).head?.any Rune.isQuote = true from hqd)]
                exact hword (hnear hau)
        · rw [if_neg hb, hled, List.dropWhile_cons_of_neg hb, if_neg (by simpa using hq)]
          exact hword ha.near

/-- The token that starts with a fragment is the one that the runes at its place start with. -/
theorem ofFragment_reads {cs : List Char} {p : Position} (hne : cs ≠ [])
    (h : r.Ahead (Runes.afterLexeme cs) (p.advance (Runes.lexeme cs))) :
    Reads (Place.locate ⟨cs, p⟩ (Runes.token cs)) (ofFragment ⟨p, Runes.lexeme cs⟩ r) := by
  obtain ⟨first, rest, rfl⟩ := List.exists_cons_of_ne_nil hne
  have happend := Runes.lexeme_append_afterLexeme (first :: rest)
  rw [ofFragment, Runes.token, isQuote_lexeme]
  by_cases hq : Rune.isQuote first = true
  · have hx : Runes.lexeme (first :: rest) = [first] := Runes.lexeme_of_special (.inl hq) rest
    rw [if_pos hq, if_pos hq]
    rw [Runes.afterLexeme, hx] at h
    rw [hx]
    exact plainLiteral_reads hq (.inl h)
  · rw [if_neg hq, if_neg hq]
    by_cases hb : first = '\\'
    · rw [if_pos hb, if_pos ((isBackslash_lexeme p first rest).mpr hb)]
      exact ⟨r, rfl⟩
    · rw [if_neg hb, if_neg (mt (isBackslash_lexeme p first rest).mp hb)]
      dsimp only
      by_cases hu : Runes.lexeme (first :: rest) = "unicode".toList
      · rw [if_pos hu, if_pos hu]
        have hx := led_reads .unicodeString h
        rwa [happend] at hx
      · rw [if_neg hu, if_neg hu]
        by_cases hh : Runes.lexeme (first :: rest) = "hex".toList
        · rw [if_pos hh, if_pos hh]
          have hx := led_reads .hexString h
          rwa [happend] at hx
        · rw [if_neg hh, if_neg hh]
          exact ⟨r, rfl, h.near⟩

/-- Reading a token gives what is found from the runes ahead. -/
theorem read_reads {place : Place} (h : r.Near place) : Reads place.read (read r) := by
  obtain ⟨blanks, rest, hrunes, hblank, hst⟩ := h
  rw [Place.read, Place.solid_of_blanks hrunes hblank]
  obtain ⟨hnil, hcons⟩ := nextSolid_stands hst
  by_cases hd : rest.dropWhile Rune.isBlank = []
  · obtain ⟨s, hs, ha⟩ := hnil hd
    rw [read, hs]
    dsimp only
    rw [ha.position_eq, Place.solid]
    dsimp only
    rw [hd]
    exact ⟨s, rfl, ha.near⟩
  · obtain ⟨s, hs, ha⟩ := hcons hd
    rw [read, hs]
    exact ofFragment_reads hd ha

end Token

end SoliditySource
