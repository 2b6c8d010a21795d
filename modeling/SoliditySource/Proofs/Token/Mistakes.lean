import SoliditySource.Proofs.Fragment.Forms
import SoliditySource.Proofs.Parse.Story
import SoliditySource.Proofs.Token.Hex
import SoliditySource.Proofs.Token.Quoting

/-! # Mistakes

Where no blank comes next, a text starts with a token or with one of four mistakes: a backslash, a
literal that is not closed, a word kept away from its quote by blanks, a `hex` literal that does
not hold byte pairs. Tokens (`Runes.IsToken`) and mistakes (`Runes.Mistake`) are described here
without a reader. A reader hands out the tokens in front of the first mistake and is refused there.
-/

namespace SoliditySource

namespace Runes

/-! ## Literals -/

/-- Behind the runes of `front`, the first quote that no backslash takes stands in `cs`. -/
structure ClosesAfter (quote : Char) (cs front : List Char) : Prop
    extends QuoteAfter quote cs front where
  shortest : ∀ other, QuoteAfter quote cs other → front.length ≤ other.length

variable {quote : Char} {cs front lead rest : List Char} {kind : TokenKind}

theorem ne_backslash_of_isQuote (hq : Rune.isQuote quote = true) : quote ≠ '\\' := by
  rintro rfl
  cases hq

theorem ClosesAfter.closing_eq (h : ClosesAfter quote cs front) (hq : quote ≠ '\\') :
    closing quote cs = some (front ++ [quote]) := by
  obtain ⟨hsome, hnone⟩ := closing_spec hq cs
  cases hc : closing quote cs with
  | none => exact absurd h.toQuoteAfter (hnone hc front)
  | some body =>
      obtain ⟨other, rfl, hafter, hmin⟩ := hsome body hc
      rw [hafter.eq_of_length h.toQuoteAfter
        (Nat.le_antisymm (hmin _ h.toQuoteAfter) (h.shortest _ hafter))]

theorem closesAfter_of_closing {body : List Char} (hq : quote ≠ '\\')
    (h : closing quote cs = some body) :
    ∃ front rest, body = front ++ [quote] ∧ cs = front ++ quote :: rest ∧
      ClosesAfter quote cs front := by
  obtain ⟨front, rfl, hafter, hmin⟩ := (closing_spec hq cs).1 body h
  obtain ⟨rest, hrest⟩ := hafter.isPrefix
  exact ⟨front, rest, rfl, by rw [← hrest]; simp, hafter, hmin⟩

theorem closing_eq_none_iff (hq : quote ≠ '\\') :
    closing quote cs = none ↔ ∀ front, ¬ QuoteAfter quote cs front := by
  obtain ⟨hsome, hnone⟩ := closing_spec hq cs
  refine ⟨hnone, fun h => ?_⟩
  cases hc : closing quote cs with
  | none => rfl
  | some body =>
      obtain ⟨front, -, hafter, -⟩ := hsome body hc
      exact absurd hafter (h front)

/-- A word that leads literals, in front of what may be one. -/
theorem token_lead (hlead : (lead, kind) ∈ Token.literalLeads) (hne : lead ≠ [])
    (hx : lexeme (lead ++ rest) = lead) : token (lead ++ rest) = led kind lead rest := by
  have hafter : afterLexeme (lead ++ rest) = rest := by rw [afterLexeme, hx, List.drop_left]
  have hword : ∀ {first : Char} {more : List Char}, lead = first :: more →
      ¬ Rune.isQuote first = true → first ≠ '\\' → token (lead ++ rest) = ofWord lead rest := by
    rintro first more rfl hq hb
    rw [List.cons_append, token_of_word hq hb, ← List.cons_append, hx, hafter]
  simp only [Token.literalLeads, List.mem_cons, Prod.mk.injEq, List.not_mem_nil, or_false] at hlead
  rcases hlead with ⟨rfl, -⟩ | ⟨rfl, rfl⟩ | ⟨rfl, rfl⟩
  · exact absurd rfl hne
  · exact @hword 'u' _ rfl (by decide) (by decide)
  · exact @hword 'h' _ rfl (by decide) (by decide)

/-- The literal that a text starts with, as far as it is one. -/
theorem token_quoted (hlead : (lead, kind) ∈ Token.literalLeads) (hq : Rune.isQuote quote = true)
    (cs : List Char) :
    token (lead ++ quote :: cs) =
      match closing quote cs with
      | some body =>
          if kind = .hexString ∧ !HexBody.isValid body.dropLast then .error (lead, .malformedHex)
          else .ok (if kind = .nonEmptyString ∧ body.length = 1 then .emptyString else kind,
            lead ++ quote :: body)
      | none => .error (lead ++ quote :: cs, .unclosedQuote) := by
  have hk := Token.eq_nonEmptyString_iff hlead
  by_cases hne : lead = []
  · obtain rfl := hk.mpr hne
    subst hne
    rw [List.nil_append, token, if_pos hq, plainLiteral]
    cases closing quote cs with
    | none => rfl
    | some body => simp
  · rw [token_lead hlead hne (Token.lexeme_lead hlead hne hq cs), led, if_pos hq, ledLiteral]
    cases closing quote cs with
    | none => rfl
    | some body => simp [hk, hne]

/-! ## Tokens and mistakes -/

/-- The words that lead literals, with their kinds where they stand by themselves. -/
def leadWords : List (List Char × TokenKind) :=
  [("unicode".toList, .kwUnicode), ("hex".toList, .kwHex)]

/-- The text is a token of the kind in front of `rest`. -/
inductive IsToken : TokenKind → (text rest : List Char) → Prop where
  /-- Quoted text, perhaps led by a word that touches the quote. -/
  | literal {lead : List Char} {kind : TokenKind} {quote : Char} {front rest : List Char}
      (hlead : (lead, kind) ∈ Token.literalLeads) (hq : Rune.isQuote quote = true)
      (hclose : ClosesAfter quote (front ++ quote :: rest) front)
      (hhex : kind = .hexString → front = [] ∨ HexBody.Pairs front) :
      IsToken (if lead = [] ∧ front = [] then .emptyString else kind)
        (lead ++ quote :: (front ++ [quote])) rest
  /-- A word that leads no literal here. -/
  | lead {word : List Char} {kind : TokenKind} {rest : List Char}
      (hword : (word, kind) ∈ leadWords) (hform : HasForm .word word rest)
      (hquote : Unquoted rest) : IsToken kind word rest
  /-- Any other word, a period or an operator. -/
  | fragment {form : Fragment.Form} {first : Char} {more rest : List Char}
      (hform : HasForm form (first :: more) rest) (hblank : Rune.isBlank first = false)
      (hq : Rune.isQuote first = false) (hb : first ≠ '\\')
      (hword : ∀ kind, (first :: more, kind) ∉ leadWords) :
      IsToken (.classify (first :: more)) (first :: more) rest

/-- The text starts with a mistake, for which it is refused behind `before`. -/
inductive Mistake : (cs : List Char) → Cause → (before : List Char) → Prop where
  | backslash (rest : List Char) : Mistake ('\\' :: rest) .strayBackslash []
  | unclosed {lead : List Char} {kind : TokenKind} {quote : Char} {cs : List Char}
      (hlead : (lead, kind) ∈ Token.literalLeads) (hq : Rune.isQuote quote = true)
      (hopen : ∀ front, ¬ QuoteAfter quote cs front) :
      Mistake (lead ++ quote :: cs) .unclosedQuote (lead ++ quote :: cs)
  | detached {word : List Char} {kind : TokenKind} {blanks : List Char} {quote : Char}
      (hword : (word, kind) ∈ leadWords) (hne : blanks ≠ [])
      (hblanks : ∀ c ∈ blanks, Rune.isBlank c = true) (hq : Rune.isQuote quote = true)
      (rest : List Char) :
      Mistake (word ++ (blanks ++ quote :: rest)) (.detachedQuote word) word
  | malformedHex {quote : Char} {front rest : List Char} (hq : Rune.isQuote quote = true)
      (hclose : ClosesAfter quote (front ++ quote :: rest) front) (hne : front ≠ [])
      (hpairs : ¬ HexBody.Pairs front) :
      Mistake ("hex".toList ++ quote :: (front ++ quote :: rest)) .malformedHex "hex".toList

theorem exists_literal_of_lead {word : List Char} (h : (word, kind) ∈ leadWords) :
    ∃ kind', (word, kind') ∈ Token.literalLeads ∧ word ≠ [] ∧
      TokenKind.classify word = kind := by
  simp only [leadWords, List.mem_cons, Prod.mk.injEq, List.not_mem_nil, or_false] at h
  rcases h with ⟨rfl, rfl⟩ | ⟨rfl, rfl⟩
  · exact ⟨.unicodeString, by decide, by decide, by decide +kernel⟩
  · exact ⟨.hexString, by decide, by decide, by decide +kernel⟩

theorem HasForm.lexeme_append {form : Fragment.Form} {piece rest : List Char}
    (h : HasForm form piece rest) : lexeme (piece ++ rest) = piece := by
  obtain ⟨first, more, rfl⟩ := h.exists_cons
  exact h.lexeme_eq.2

theorem hasForm_lead {word : List Char} (h : (word, kind) ∈ leadWords)
    (hend : ∀ c ∈ rest.head?, Rune.isWord c = false) : HasForm .word word rest := by
  simp only [leadWords, List.mem_cons, Prod.mk.injEq, List.not_mem_nil, or_false] at h
  rcases h with ⟨rfl, -⟩ | ⟨rfl, -⟩
  all_goals
    refine .word (List.all_eq_true.mp (by decide)) fun c hc => ?_
    rw [Rune.continues, hend c hc, Bool.false_and]

theorem formOf_lead {first : Char} {more : List Char} (h : (first :: more, kind) ∈ leadWords) :
    Fragment.Form.of first = .word := by
  simp only [leadWords, List.mem_cons, Prod.mk.injEq, List.not_mem_nil, or_false] at h
  rcases h with ⟨h, -⟩ | ⟨h, -⟩
  · rw [(List.cons.inj (h.trans (show _ = 'u' :: "nicode".toList from rfl))).1]
    decide
  · rw [(List.cons.inj (h.trans (show _ = 'h' :: "ex".toList from rfl))).1]
    decide

/-- A token is read as what it is. -/
theorem IsToken.token_eq {text : List Char} (h : IsToken kind text rest) :
    token (text ++ rest) = .ok (kind, text) := by
  cases h with
  | @literal lead kind quote front _ hlead hq hclose hhex =>
      have hempty : (kind = .nonEmptyString ∧ (front ++ [quote]).length = 1) =
          (lead = [] ∧ front = []) := by
        simp [Token.eq_nonEmptyString_iff hlead]
      have hvalid : ¬ (kind = .hexString ∧
          (!HexBody.isValid (front ++ [quote]).dropLast) = true) := by
        rintro ⟨hk, hbad⟩
        simp [(HexBody.isValid_iff front).mpr (hhex hk)] at hbad
      have htoken := token_quoted hlead hq (front ++ quote :: rest)
      rw [hclose.closing_eq (ne_backslash_of_isQuote hq)] at htoken
      dsimp only at htoken
      rw [if_neg hvalid] at htoken
      simp only [hempty] at htoken
      simpa using htoken
  | lead hword hform hquote =>
      obtain ⟨kind', hlead, hne, hclassify⟩ := exists_literal_of_lead hword
      rw [token_lead hlead hne hform.lexeme_append, led_word kind' hquote, hclassify]
  | @fragment form first more _ hform _ hq hb hword =>
      have hlexeme : lexeme (first :: (more ++ rest)) = first :: more := hform.lexeme_eq.2
      rw [List.cons_append, token_of_word (by simp [hq]) hb, hlexeme, ofWord, if_neg, if_neg]
      · rintro heq
        exact hword .kwHex (by rw [heq]; decide)
      · rintro heq
        exact hword .kwUnicode (by rw [heq]; decide)

/-- A mistake is refused as such. -/
theorem Mistake.token_eq {cause : Cause} {before : List Char} (h : Mistake cs cause before) :
    token cs = .error (before, cause) := by
  cases h with
  | backslash rest => rfl
  | unclosed hlead hq hopen =>
      rw [token_quoted hlead hq,
        (closing_eq_none_iff (ne_backslash_of_isQuote hq)).mpr hopen]
  | @detached word kind blanks quote hword hne hblanks hq rest =>
      obtain ⟨kind', hlead, hlead_ne, -⟩ := exists_literal_of_lead hword
      obtain ⟨c, blanks, rfl⟩ := List.exists_cons_of_ne_nil hne
      have hc : Rune.isBlank c = true := hblanks c List.mem_cons_self
      have hform : HasForm .word before (c :: blanks ++ quote :: rest) :=
        hasForm_lead hword fun d hd => by
          cases hd
          exact isWord_of_isBlank hc
      have hdrop : (c :: blanks ++ quote :: rest).dropWhile Rune.isBlank = quote :: rest := by
        refine dropWhile_blanks hblanks ?_
        by_contra hb
        have hb : Rune.isBlank quote = true := by simpa using hb
        rw [isQuote_of_isBlank hb] at hq
        cases hq
      rw [token_lead hlead hlead_ne hform.lexeme_append, List.cons_append, led,
        if_neg (by simp [isQuote_of_isBlank hc]), ← List.cons_append, hdrop]
      exact if_pos hq
  | @malformedHex quote front rest hq hclose hne hpairs =>
      have hlead : ("hex".toList, TokenKind.hexString) ∈ Token.literalLeads := by decide
      have hbad : HexBody.isValid front = false := by
        rw [← Bool.not_eq_true, HexBody.isValid_iff]
        exact not_or.mpr ⟨hne, hpairs⟩
      rw [token_quoted hlead hq, hclose.closing_eq (ne_backslash_of_isQuote hq)]
      simp [hbad]

theorem literal_or_mistake (hlead : (lead, kind) ∈ Token.literalLeads)
    (hq : Rune.isQuote quote = true) (cs : List Char) :
    (∃ kind' text rest, lead ++ quote :: cs = text ++ rest ∧ IsToken kind' text rest) ∨
      ∃ cause before, Mistake (lead ++ quote :: cs) cause before := by
  have hquote := ne_backslash_of_isQuote hq
  cases hc : closing quote cs with
  | none => exact .inr ⟨_, _, .unclosed hlead hq ((closing_eq_none_iff hquote).mp hc)⟩
  | some body =>
      obtain ⟨front, rest, -, rfl, hclose⟩ := closesAfter_of_closing hquote hc
      by_cases hhex : kind = .hexString → front = [] ∨ HexBody.Pairs front
      · exact .inl ⟨_, _, rest, by simp, .literal hlead hq hclose hhex⟩
      · obtain ⟨rfl, hbad⟩ := Classical.not_imp.mp hhex
        obtain ⟨hne, hpairs⟩ := not_or.mp hbad
        have hword : lead = "hex".toList := by simpa [Token.literalLeads] using hlead
        subst hword
        exact .inr ⟨_, _, .malformedHex hq hclose hne hpairs⟩

theorem lead_or_mistake {word : List Char} (h : (word, kind) ∈ leadWords)
    (hform : HasForm .word word rest) :
    (∃ kind' text after, word ++ rest = text ++ after ∧ IsToken kind' text after) ∨
      ∃ cause before, Mistake (word ++ rest) cause before := by
  by_cases hquote : Unquoted rest
  · exact .inl ⟨_, _, rest, rfl, .lead h hform hquote⟩
  have hsplit : rest.takeWhile Rune.isBlank ++ rest.dropWhile Rune.isBlank = rest :=
    List.takeWhile_append_dropWhile
  cases hd : rest.dropWhile Rune.isBlank with
  | nil => exact absurd (by rw [Unquoted, hd]; rfl) hquote
  | cons q more =>
      rw [Unquoted, hd] at hquote
      have hq : Rune.isQuote q = true := by simpa using hquote
      rw [hd] at hsplit
      rw [← hsplit]
      by_cases hne : rest.takeWhile Rune.isBlank = []
      · obtain ⟨kind', hlead, -⟩ := exists_literal_of_lead h
        rw [hne]
        exact literal_or_mistake hlead hq more
      · exact .inr ⟨_, _, .detached h hne (fun c hc => mem_takeWhile_imp hc) hq more⟩

/-- A text that starts with no blank starts with a token or with a mistake. -/
theorem token_or_mistake {first : Char} (hblank : Rune.isBlank first = false)
    (cs : List Char) :
    (∃ kind text rest, first :: cs = text ++ rest ∧ IsToken kind text rest) ∨
      ∃ cause before, Mistake (first :: cs) cause before := by
  by_cases hq : Rune.isQuote first = true
  · exact @literal_or_mistake first [] .nonEmptyString (by decide) hq cs
  by_cases hb : first = '\\'
  · subst hb
    exact .inr ⟨_, _, .backslash cs⟩
  have hform := hasForm_lexeme first cs
  have happend := lexeme_append_afterLexeme (first :: cs)
  have hhead := head?_lexeme (first :: cs)
  obtain ⟨d, more, hword⟩ := List.exists_cons_of_ne_nil (lexeme_ne_nil (List.cons_ne_nil first cs))
  rw [hword] at hform happend hhead
  cases hhead
  generalize afterLexeme (first :: cs) = rest at hform happend
  by_cases hlead : ∃ kind, (first :: more, kind) ∈ leadWords
  · obtain ⟨kind, hlead⟩ := hlead
    rw [← happend]
    rw [formOf_lead hlead] at hform
    exact lead_or_mistake hlead hform
  · exact .inl ⟨_, _, rest, happend.symm,
      .fragment hform hblank (by simpa using hq) hb fun kind hk => hlead ⟨kind, hk⟩⟩

theorem solid_lead (hlead : (lead, kind) ∈ Token.literalLeads) (hq : Rune.isQuote quote = true)
    (cs : List Char) : (lead ++ quote :: cs).head?.any Rune.isBlank = false := by
  obtain ⟨first, rest, hcons, hsolid⟩ := Token.head_lead hlead hq cs
  simpa [hcons] using hsolid

theorem solid_leadWord {word : List Char} (h : (word, kind) ∈ leadWords) (rest : List Char) :
    (word ++ rest).head?.any Rune.isBlank = false := by
  simp only [leadWords, List.mem_cons, Prod.mk.injEq, List.not_mem_nil, or_false] at h
  rcases h with ⟨rfl, -⟩ | ⟨rfl, -⟩ <;> rfl

theorem IsToken.solid {text : List Char} (h : IsToken kind text rest) :
    text ≠ [] ∧ text.head?.any Rune.isBlank = false := by
  cases h with
  | literal hlead hq => exact ⟨by simp, solid_lead hlead hq _⟩
  | lead hword hform =>
      have hsolid := solid_leadWord hword []
      rw [List.append_nil] at hsolid
      obtain ⟨first, more, rfl⟩ := hform.exists_cons
      exact ⟨List.cons_ne_nil _ _, hsolid⟩
  | fragment _ hblank => exact ⟨List.cons_ne_nil _ _, by simpa using hblank⟩

theorem Mistake.solid {cause : Cause} {before : List Char} (h : Mistake cs cause before) :
    cs.head?.any Rune.isBlank = false := by
  cases h with
  | backslash => rfl
  | unclosed hlead hq => exact solid_lead hlead hq _
  | detached hword => exact solid_leadWord hword _
  | malformedHex => rfl

end Runes

/-! ## Places -/

namespace Place

/-- The text at a place starts with the tokens, with blanks in front of them, and the other place
is the one behind them or behind blanks that follow. -/
inductive Passes : Place → List Token → Place → Prop where
  | blanks {blanks rest : List Char} {p : Position}
      (hblanks : ∀ c ∈ blanks, Rune.isBlank c = true) :
      Passes ⟨blanks ++ rest, p⟩ [] ⟨rest, p.advance blanks⟩
  | token {blanks text rest : List Char} {kind : TokenKind} {p : Position} {ts : List Token}
      {place : Place} (hblanks : ∀ c ∈ blanks, Rune.isBlank c = true)
      (htoken : Runes.IsToken kind text rest)
      (h : Passes ⟨rest, (p.advance blanks).advance text⟩ ts place) :
      Passes ⟨blanks ++ (text ++ rest), p⟩ (⟨kind, text, p.advance blanks⟩ :: ts) place

variable {place place' : Place} {ts us : List Token} {ending : Except Fault Token}

/-- What is passed is ahead, with what is ahead of the other place behind it. -/
theorem Passes.upcoming (h : place.Passes ts place') (hup : place'.Upcoming us ending) :
    place.Upcoming (ts ++ us) ending := by
  induction h with
  | blanks hblanks => exact hup.of_solid (solid_of_blanks rfl hblanks)
  | @token blanks text rest kind p ts place hblanks htoken h ih =>
      obtain ⟨hne, hsolid⟩ := htoken.solid
      have hread := read_text hblanks hne hsolid htoken.token_eq p
      refine .token hread ?_ (ih hup)
      obtain ⟨first, more, rfl⟩ := List.exists_cons_of_ne_nil hne
      simpa [Token.isEos] using (Runes.token_cons htoken.token_eq).2.2

/-- What is passed makes up the text between the two places. -/
theorem Passes.runes_eq (h : place.Passes ts place') :
    ∃ front, place.runes = front ++ place'.runes ∧
      place'.position = place.position.advance front := by
  induction h with
  | blanks => exact ⟨_, rfl, rfl⟩
  | @token blanks text rest kind p ts place _ _ _ ih =>
      obtain ⟨front, hrunes, hposition⟩ := ih
      refine ⟨blanks ++ (text ++ front), ?_, ?_⟩
      · rw [List.append_assoc, List.append_assoc, ← hrunes]
      · rw [hposition, ← Position.advance_append, ← Position.advance_append]

theorem upcoming_mistake {cs before : List Char} {cause : Cause}
    (h : Runes.Mistake cs cause before) (q : Position) :
    Upcoming ⟨cs, q⟩ [] (.error ⟨q.advance before, cause⟩) := by
  refine .refused ?_
  have hblanks : ∀ c ∈ ([] : List Char), Rune.isBlank c = true := by simp
  have hdrop : cs.dropWhile Rune.isBlank = cs := Runes.dropWhile_blanks hblanks h.solid
  have htake : cs.takeWhile Rune.isBlank = [] := by
    have hsplit := List.takeWhile_append_dropWhile (p := Rune.isBlank) (l := cs)
    rwa [hdrop, List.append_left_eq_self] at hsplit
  rw [read, solid, hdrop, htake, h.token_eq]
  rfl

theorem upcoming_end (q : Position) : Upcoming ⟨[], q⟩ [] (.ok (.eos q)) :=
  .finished (n := ⟨[], q⟩) rfl rfl

/-- Reading left to right, a text comes to its end or to a mistake. -/
theorem exists_passes (place : Place) : ∃ ts,
    (∃ q, place.Passes ts ⟨[], q⟩) ∨
      ∃ cs q cause before, place.Passes ts ⟨cs, q⟩ ∧ Runes.Mistake cs cause before := by
  induction hn : place.runes.length using Nat.strongRecOn generalizing place with
  | _ n ih =>
      subst hn
      obtain ⟨runes, p⟩ := place
      have hblanks : ∀ c ∈ runes.takeWhile Rune.isBlank, Rune.isBlank c = true :=
        fun c hc => Runes.mem_takeWhile_imp hc
      have hsplit : runes.takeWhile Rune.isBlank ++ runes.dropWhile Rune.isBlank = runes :=
        List.takeWhile_append_dropWhile
      generalize runes.takeWhile Rune.isBlank = blanks at hblanks hsplit
      cases hd : runes.dropWhile Rune.isBlank with
      | nil =>
          rw [hd] at hsplit
          subst hsplit
          exact ⟨[], .inl ⟨_, .blanks hblanks⟩⟩
      | cons first cs =>
          have hfirst : Rune.isBlank first = false := by
            have hnot := List.head?_dropWhile_not Rune.isBlank runes
            rwa [hd] at hnot
          rw [hd] at hsplit
          subst hsplit
          obtain ⟨kind, text, rest, htext, htoken⟩ | ⟨cause, before, hmistake⟩ :=
            Runes.token_or_mistake hfirst cs
          · have hlt : rest.length < (blanks ++ first :: cs).length := by
              have hpos := List.length_pos_iff.mpr htoken.solid.1
              rw [htext, List.length_append, List.length_append]
              omega
            obtain ⟨ts, hrest⟩ := ih _ hlt ⟨rest, (p.advance blanks).advance text⟩ rfl
            rw [htext]
            refine ⟨⟨kind, text, p.advance blanks⟩ :: ts, ?_⟩
            obtain ⟨q, hpasses⟩ | ⟨cs, q, cause, before, hpasses, hmistake⟩ := hrest
            · exact .inl ⟨q, .token hblanks htoken hpasses⟩
            · exact .inr ⟨cs, q, cause, before, .token hblanks htoken hpasses, hmistake⟩
          · exact ⟨[], .inr ⟨_, _, cause, before, .blanks hblanks, hmistake⟩⟩

end Place

/-! ## Readers -/

theorem Runes.Mistake.before_eq {cs before : List Char} (h : Mistake cs .unclosedQuote before) :
    before = cs := by
  cases h with
  | unclosed => rfl

namespace TokenReader

/-- A text falls into tokens and blanks up to its end, or up to the first mistake. In the first
case the tokens are handed out, with the end token behind them; in the second one the text is
refused for the mistake. Handing out one token after the other gives those in front of the mistake
and then the refusal. A literal that is not closed is refused at the end of the text. -/
theorem all_mistakes (text : List Char) :
    let start := ofFeed (.ofText text)
    let passes := (Place.ofText text).Passes
    (∀ tokens, (∃ s, start.all = .ok tokens s) ↔
      ∃ ts q, passes ts ⟨[], q⟩ ∧ tokens = ts ++ [.eos q]) ∧
    (∀ e, (∃ s, start.all = .error e s) ↔
      ∃ ts cs q cause before, passes ts ⟨cs, q⟩ ∧ Runes.Mistake cs cause before ∧
        e = .refused ⟨q.advance before, cause⟩) ∧
    (∀ ts cs q cause before, passes ts ⟨cs, q⟩ → Runes.Mistake cs cause before →
      (∃ front, text = front ++ cs ∧ q = Position.start.advance front) ∧
      (cause = .unclosedQuote → q.advance before = Position.start.advance text) ∧
      (∃ r s, start.Hands ts r ∧ r.next = .error (.refused ⟨q.advance before, cause⟩) s) ∧
      ∀ us r e s, start.Hands us r → r.next = .error e s →
        us = ts ∧ e = .refused ⟨q.advance before, cause⟩) ∧
    Cause.strayBackslash.message = "unexpected backslash." ∧
    Cause.unclosedQuote.message = "not found quote" ∧
    (∀ word, (Cause.detachedQuote word).message =
      "not found quote right after " ++ String.ofList word ++ ".") ∧
    Cause.malformedHex.message = "invalid HexString format" := by
  intro start passes
  have hstart : start.At (.ofText text) := at_ofFeed text
  have hend : ∀ {ts q}, passes ts ⟨[], q⟩ → (Place.ofText text).Upcoming ts (.ok (.eos q)) := by
    intro ts q h
    have hup := h.upcoming (Place.upcoming_end q)
    rwa [List.append_nil] at hup
  have hfault : ∀ {ts cs q cause before}, passes ts ⟨cs, q⟩ → Runes.Mistake cs cause before →
      (Place.ofText text).Upcoming ts (.error ⟨q.advance before, cause⟩) := by
    intro ts cs q cause before h hmistake
    have hup := h.upcoming (Place.upcoming_mistake hmistake q)
    rwa [List.append_nil] at hup
  refine ⟨fun tokens => ?_, fun e => ?_, fun ts cs q cause before h hmistake => ?_,
    rfl, rfl, fun _ => rfl, rfl⟩
  · constructor
    · rintro ⟨s, hs⟩
      obtain ⟨ts, ⟨q, h⟩ | ⟨cs, q, cause, before, h, hmistake⟩⟩ := Place.exists_passes (.ofText text)
      · obtain ⟨u, hu⟩ := all_upcoming (hend h) hstart
        cases hs.symm.trans hu
        exact ⟨ts, q, h, rfl⟩
      · obtain ⟨u, hu⟩ := all_upcoming (hfault h hmistake) hstart
        cases hs.symm.trans hu
    · rintro ⟨ts, q, h, rfl⟩
      exact all_upcoming (hend h) hstart
  · constructor
    · rintro ⟨s, hs⟩
      obtain ⟨ts, ⟨q, h⟩ | ⟨cs, q, cause, before, h, hmistake⟩⟩ := Place.exists_passes (.ofText text)
      · obtain ⟨u, hu⟩ := all_upcoming (hend h) hstart
        cases hs.symm.trans hu
      · obtain ⟨u, hu⟩ := all_upcoming (hfault h hmistake) hstart
        cases hs.symm.trans hu
        exact ⟨ts, cs, q, cause, before, h, hmistake, rfl⟩
    · rintro ⟨ts, cs, q, cause, before, h, hmistake, rfl⟩
      exact all_upcoming (hfault h hmistake) hstart
  · have hup := hfault h hmistake
    obtain ⟨front, htext, hq⟩ := h.runes_eq
    have htext : text = front ++ cs := htext
    have hq : q = Position.start.advance front := hq
    refine ⟨⟨front, htext, hq⟩, ?_, ?_, fun us r e s hhands he => ?_⟩
    · rintro rfl
      rw [hmistake.before_eq, hq, htext, Position.advance_append]
    · have hall : (Place.ofText text).Upcoming (ts ++ []) (.error ⟨q.advance before, cause⟩) := by
        rwa [List.append_nil]
      obtain ⟨r, place, hhands, hr, hrefused⟩ := hstart.hands hall
      cases hrefused with
      | refused hread =>
          obtain ⟨s, hs⟩ := next_error hr hread
          exact ⟨r, s, hhands, hs⟩
    · obtain ⟨rfl, fault, hfault, rfl⟩ := hhands.upcoming he hstart hup
      cases hfault
      exact ⟨rfl, rfl⟩

end TokenReader

end SoliditySource
