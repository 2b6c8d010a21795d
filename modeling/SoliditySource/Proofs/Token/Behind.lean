import SoliditySource.Proofs.Token.Scan

/-! # What stands behind a token

Of what comes behind a token only the first rune has a say in it, and for the words that lead a
literal the first rune behind blanks. So a token stays the token that it is when what comes after
it is cut short, goes on in another way later or starts with a blank; a closing mark is a token
whatever comes next.
-/

namespace SoliditySource

namespace Runes

variable {after other : List Char}

/-! ## Other runes behind a fragment -/

/-- If `other` is not empty it starts with a blank or with the first rune of `after`. -/
def Milder (other after : List Char) : Prop :=
  ∀ c ∈ other.head?, Rune.isBlank c = true ∨ c ∈ after.head?

theorem head?_append_of_ne_nil {front : List Char} (h : front ≠ []) (back : List Char) :
    (front ++ back).head? = front.head? := by
  rw [List.head?_append, Option.or_of_isSome (by simpa using h)]

theorem dropWhile_blanks {blanks rest : List Char} (hblanks : ∀ c ∈ blanks, Rune.isBlank c = true)
    (hsolid : rest.head?.any Rune.isBlank = false) :
    (blanks ++ rest).dropWhile Rune.isBlank = rest := by
  rw [List.dropWhile_append_of_pos hblanks]
  cases rest with
  | nil => rfl
  | cons c rest => exact List.dropWhile_cons_of_neg (by simpa using hsolid)

namespace Milder

theorem nil (after : List Char) : Milder [] after := by simp [Milder]

theorem append_left (h : Milder other after) (more : List Char) :
    Milder (more ++ other) (more ++ after) := by
  cases more with
  | nil => exact h
  | cons c more => exact fun d hd => .inr hd

theorem of_blank (h : other.head?.all Rune.isBlank = true) (after : List Char) :
    Milder other after := by
  intro c hc
  rw [hc] at h
  exact .inl h

/-- Runes that are cut short. -/
theorem of_isPrefix (h : other <+: after) : Milder other after := by
  obtain ⟨rest, rfl⟩ := h
  simpa using (nil rest).append_left other

/-- Runes that go on. -/
theorem append_right (h : after ≠ []) (more : List Char) : Milder (after ++ more) after := by
  intro c hc
  rw [head?_append_of_ne_nil h] at hc
  exact .inr hc

end Milder

theorem isSplit_of_mem_extensions {c : Char} {op : List Char} (h : c ∈ Rune.extensions op) :
    Rune.isSplit c = true := by
  unfold Rune.extensions at h
  split at h <;> revert h <;> simp [Rune.isSplit] <;> rintro (rfl | rfl | rfl) <;> decide

theorem not_mem_extensions_of_isBlank {c : Char} (h : Rune.isBlank c = true) (op : List Char) :
    c ∉ Rune.extensions op := by
  intro hc
  have hsplit := isSplit_of_mem_extensions hc
  rw [isSplit_of_isBlank h] at hsplit
  cases hsplit

theorem isWord_of_isBlank {c : Char} (h : Rune.isBlank c = true) : Rune.isWord c = false := by
  rcases Bool.or_eq_true_iff.mp h with hnewline | hspace
  · simp [Rune.isWord, of_decide_eq_true hnewline]
  · simp [Rune.isWord, hspace]

theorem operator_milder (hs : Milder other after) {n : Nat} {op more : List Char}
    (h : operator n op (more ++ after) = op ++ more) :
    operator n op (more ++ other) = op ++ more := by
  induction n generalizing op more with
  | zero => exact h
  | succ n ih =>
      have hno : ∀ {c rest}, operator (n + 1) op (c :: rest) = op → c ∉ Rune.extensions op := by
        intro c rest hop hc
        obtain ⟨tail, he, -⟩ := operator_eq_append n (op ++ [c]) rest
        rw [operator, if_pos hc, he] at hop
        have hlen := congrArg List.length hop
        rw [List.length_append, List.length_append, List.length_singleton] at hlen
        omega
      cases more with
      | nil =>
          rw [List.nil_append, List.append_nil] at h ⊢
          cases other with
          | nil => rfl
          | cons c other =>
              have hc : c ∉ Rune.extensions op := by
                rcases hs c rfl with hb | hafter
                · exact not_mem_extensions_of_isBlank hb op
                · obtain ⟨rest, rfl⟩ := List.head?_eq_some_iff.mp hafter
                  exact hno h
              rw [operator, if_neg hc]
      | cons c more =>
          by_cases hc : c ∈ Rune.extensions op
          · rw [List.cons_append, operator, if_pos hc] at h ⊢
            have hcons : op ++ c :: more = op ++ [c] ++ more := by
              rw [List.append_assoc, List.singleton_append]
            rw [hcons] at h ⊢
            exact ih h
          · rw [List.cons_append, operator, if_neg hc] at h
            have hlen := congrArg List.length h
            rw [List.length_append, List.length_cons] at hlen
            omega

theorem takeWhile_milder (hs : Milder other after) {fits : Char → Bool}
    (hfits : ∀ c, Rune.isBlank c = true → fits c = false) {text : List Char}
    (h : (text ++ after).takeWhile fits = text) : (text ++ other).takeWhile fits = text := by
  have hall : ∀ c ∈ text, fits c = true := by
    intro c hc
    rw [← h] at hc
    exact mem_takeWhile_imp hc
  rw [List.takeWhile_append_of_pos hall, List.append_right_eq_self] at h
  rw [List.takeWhile_append_of_pos hall, List.append_right_eq_self]
  cases other with
  | nil => rfl
  | cons c other =>
      have hc : ¬ fits c = true := by
        rcases hs c rfl with hb | hafter
        · simp [hfits c hb]
        · obtain ⟨rest, rfl⟩ := List.head?_eq_some_iff.mp hafter
          intro hc
          rw [List.takeWhile_cons_of_pos hc] at h
          cases h
      exact List.takeWhile_cons_of_neg hc

/-- A fragment that is no blank stays the same in front of milder runes. -/
theorem lexeme_milder (hs : Milder other after) {word : List Char} (hne : word ≠ [])
    (hsolid : word.head?.any Rune.isBlank = false) (h : lexeme (word ++ after) = word) :
    lexeme (word ++ other) = word := by
  obtain ⟨first, rest, rfl⟩ := List.exists_cons_of_ne_nil hne
  have hspace : Rune.isSpace first = false := (Bool.or_eq_false_iff.mp hsolid).2
  rw [List.cons_append, lexeme] at h ⊢
  by_cases hsplit : Rune.isSplit first = true
  · rw [if_pos hsplit] at h ⊢
    exact operator_milder hs h
  · rw [if_neg hsplit] at h ⊢
    by_cases hone : first = '\n' ∨ first = '.'
    · rw [if_pos hone] at h ⊢
      exact h
    · rw [if_neg hone, hspace, if_neg Bool.false_ne_true, ← List.cons_append] at h ⊢
      exact takeWhile_milder hs (fun c hc => by simp [isWord_of_isBlank hc]) h

/-! ## Other runes behind a token -/

theorem Unquoted.of_isPrefix (h : Unquoted after) (hp : other <+: after) : Unquoted other := by
  obtain ⟨rest, rfl⟩ := hp
  rw [Unquoted, List.dropWhile_append] at h
  split at h
  · next hnil => simp [Unquoted, List.isEmpty_iff.mp hnil]
  · next hne =>
      rw [head?_append_of_ne_nil (by simpa using hne)] at h
      exact h

theorem Unquoted.append_right (h : Unquoted after) (hne : after.dropWhile Rune.isBlank ≠ [])
    (more : List Char) : Unquoted (after ++ more) := by
  rw [Unquoted, List.dropWhile_append, if_neg (by simpa using hne), head?_append_of_ne_nil hne]
  exact h

/-- The words that are read together with a quote behind them. -/
def isLead (kind : TokenKind) : Bool := kind = .kwHex || kind = .kwUnicode

theorem isLead_classify {text : List Char} :
    isLead (.classify text) = true ↔ text = "unicode".toList ∨ text = "hex".toList := by
  constructor
  · intro h
    have hspelled := TokenKind.spelled_of_classify (by decide) h
    have hall : (TokenKind.spellings.filter fun entry => isLead entry.2) =
        [("hex", .kwHex), ("unicode", .kwUnicode)] := by decide
    rw [hall] at hspelled
    simpa [or_comm] using hspelled
  · rintro (rfl | rfl) <;> decide +kernel

/-- What has a say in a word that leads a literal or stands by itself: quotes, if the word may
lead one and does not. -/
theorem ofWord_milder {word more : List Char} {kind : TokenKind}
    (h : ofWord word (more ++ after) = .ok (kind, word ++ more))
    (hquote : isLead kind = true → Unquoted other) :
    ofWord word (more ++ other) = .ok (kind, word ++ more) := by
  have hled : ∀ {kind' : TokenKind}, isLead (.classify word) = true →
      led kind' word (more ++ after) = .ok (kind, word ++ more) →
      led kind' word (more ++ other) = .ok (kind, word ++ more) := by
    intro kind' hlead hl
    rcases led_eq_ok hl with ⟨htext, rfl, -⟩ | ⟨quote, body, -, -, -, htext, hother⟩
    · rw [List.append_right_eq_self] at htext
      subst htext
      rw [List.append_nil]
      exact led_word kind' (hquote hlead)
    · rw [List.append_cancel_left_eq] at htext
      subst htext
      exact hother other
  unfold ofWord at h ⊢
  by_cases hunicode : word = "unicode".toList
  · rw [if_pos hunicode] at h ⊢
    exact hled (isLead_classify.mpr (.inl hunicode)) h
  · rw [if_neg hunicode] at h ⊢
    by_cases hhex : word = "hex".toList
    · rw [if_pos hhex] at h ⊢
      exact hled (isLead_classify.mpr (.inr hhex)) h
    · rw [if_neg hhex] at h ⊢
      exact h

theorem plainLiteral_whole {quote : Char} {rest more : List Char} {kind : TokenKind}
    (h : plainLiteral quote (more ++ rest) = .ok (kind, quote :: more)) (other : List Char) :
    plainLiteral quote (more ++ other) = .ok (kind, quote :: more) := by
  rw [plainLiteral] at h
  split at h
  · next body hb =>
      cases h
      rw [plainLiteral, closing_whole hb]
  · cases h

/-- A token stays the same in front of milder runes, unless it is a word that they make lead a
literal. -/
theorem token_milder (hs : Milder other after) {text : List Char} {kind : TokenKind}
    (hne : text ≠ []) (hsolid : text.head?.any Rune.isBlank = false)
    (h : token (text ++ after) = .ok (kind, text))
    (hquote : isLead kind = true → Unquoted other) : token (text ++ other) = .ok (kind, text) := by
  obtain ⟨first, rest, rfl⟩ := List.exists_cons_of_ne_nil hne
  by_cases hq : Rune.isQuote first = true
  · rw [List.cons_append, token, if_pos hq] at h ⊢
    exact plainLiteral_whole h other
  · by_cases hb : first = '\\'
    · rw [List.cons_append, token, if_neg hq, if_pos hb] at h
      cases h
    · rw [List.cons_append, token_of_word hq hb] at h ⊢
      have happend := lexeme_append_afterLexeme (first :: (rest ++ after))
      have hword := lexeme_ne_nil (List.cons_ne_nil first (rest ++ after))
      have hfirst := head?_lexeme (first :: (rest ++ after))
      obtain ⟨more, htext, -⟩ := ofWord_eq_ok h
      generalize hlead : lexeme (first :: (rest ++ after)) = word at *
      have hcut : ∀ tail, first :: (rest ++ tail) = word ++ (more ++ tail) := by
        intro tail
        rw [← List.cons_append, htext, List.append_assoc]
      rw [List.append_cancel_left (happend.trans (hcut after)), htext] at h
      have hother : lexeme (first :: (rest ++ other)) = word := by
        rw [hcut after] at hlead
        rw [hcut other]
        exact lexeme_milder (hs.append_left more) hword (by rw [hfirst]; exact hsolid) hlead
      have hafter : afterLexeme (first :: (rest ++ other)) = more ++ other := by
        rw [afterLexeme, hother, hcut other, List.drop_left]
      rw [hother, hafter, htext]
      exact ofWord_milder h hquote

/-- No quote comes next behind the word `hex` or `unicode` where it is a token by itself. -/
theorem ofWord_unquoted {word after text : List Char} {kind : TokenKind}
    (h : ofWord word after = .ok (kind, text)) (hlead : isLead kind = true) :
    text = word ∧ Unquoted after := by
  have hled : ∀ {kind' : TokenKind}, isLead kind' = false →
      led kind' word after = .ok (kind, text) → text = word ∧ Unquoted after := by
    intro kind' hkind' hl
    rcases led_eq_ok hl with ⟨htext, -, hunquoted⟩ | ⟨quote, body, -, -, rfl, -, -⟩
    · exact ⟨htext, hunquoted⟩
    · rw [hkind'] at hlead
      cases hlead
  unfold ofWord at h
  split at h
  · exact hled rfl h
  · next hunicode =>
      split at h
      · exact hled rfl h
      · next hhex =>
          cases h
          exact absurd (isLead_classify.mp hlead) (not_or.mpr ⟨hunicode, hhex⟩)

/-- A word that is a token by itself is read as such with no quote behind it. -/
theorem token_unquoted {text rest : List Char} {kind : TokenKind} (hne : text ≠ [])
    (h : token (text ++ rest) = .ok (kind, text)) (hlead : isLead kind = true) :
    Unquoted rest := by
  obtain ⟨first, tail, rfl⟩ := List.exists_cons_of_ne_nil hne
  by_cases hq : Rune.isQuote first = true
  · rw [List.cons_append, token, if_pos hq, plainLiteral] at h
    split at h
    · cases h
      split at hlead <;> cases hlead
    · cases h
  · by_cases hb : first = '\\'
    · rw [List.cons_append, token, if_neg hq, if_pos hb] at h
      cases h
    · rw [List.cons_append, token_of_word hq hb] at h
      obtain ⟨htext, hquote⟩ := ofWord_unquoted h hlead
      rwa [afterLexeme, ← htext, ← List.cons_append, List.drop_left] at hquote

/-! ## Closing marks -/

/-- The kinds of the marks that close a construct. -/
def isCloser (kind : TokenKind) : Bool := kind = .semicolon || kind = .rbrace || kind = .rparen

/-- A closing mark is classified as such by its text. -/
theorem isCloser_token {cs text : List Char} {kind : TokenKind} (h : token cs = .ok (kind, text))
    (hc : isCloser kind = true) : kind = .classify text := by
  cases cs with
  | nil => cases h; cases hc
  | cons first rest =>
      by_cases hq : Rune.isQuote first = true
      · rw [token, if_pos hq, plainLiteral] at h
        split at h
        · cases h
          split at hc <;> cases hc
        · cases h
      · by_cases hb : first = '\\'
        · rw [token, if_neg hq, if_pos hb] at h
          cases h
        · rw [token_of_word hq hb] at h
          obtain ⟨more, -, -, hkind | rfl | rfl⟩ := ofWord_eq_ok h
          · exact hkind
          · cases hc
          · cases hc

theorem mem_of_isCloser {text : List Char} (h : isCloser (.classify text) = true) :
    text ∈ [[')'], ['}'], [';']] := by
  have hspelled := TokenKind.spelled_of_classify (by decide) h
  have hall : (TokenKind.spellings.filter fun entry => isCloser entry.2) =
      [(")", .rparen), ("\x7d", .rbrace), (";", .semicolon)] := by decide
  rwa [hall] at hspelled

/-- A closing mark is read as such whatever comes next. -/
theorem token_closer {text : List Char} (h : isCloser (.classify text) = true)
    (rest : List Char) : token (text ++ rest) = .ok (.classify text, text) := by
  have hmem := mem_of_isCloser h
  simp only [List.mem_cons, List.not_mem_nil, or_false] at hmem
  rcases hmem with rfl | rfl | rfl <;> cases rest <;> rfl

end Runes

end SoliditySource
