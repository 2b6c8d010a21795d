import SoliditySource.Proofs.Token.Formed
import SoliditySource.Proofs.Token.Sizes

/-! # What words mean

A word is a reserved word, a type with its size, a number or an identifier, and its runes alone
tell which. It is the same wherever the word stands, unless it leads a literal.
-/

namespace SoliditySource

namespace Runes

/-- The words that can be cut off: word runes, with periods only behind a digit that comes
first. -/
structure IsWord (word : List Char) : Prop where
  ne_nil : word ≠ []
  isWord : ∀ c ∈ word, Rune.isWord c = true
  period : '.' ∈ word → word.head?.any Char.isDigit = true

variable {word : List Char}

theorem IsWord.hasForm (h : IsWord word) : HasForm .word word [] := by
  obtain ⟨first, more, rfl⟩ := List.exists_cons_of_ne_nil h.ne_nil
  refine .word (fun c hc => ?_) (by simp)
  simp only [Rune.continues, h.isWord c hc, Bool.true_and, Bool.or_eq_true, decide_eq_true_eq]
  by_cases hperiod : c = '.'
  · exact .inr (h.period (hperiod ▸ hc))
  · exact .inl hperiod

theorem IsWord.not_mem {c : Char} (h : IsWord word) (hc : Rune.isWord c = false) : c ∉ word := by
  intro hmem
  rw [h.isWord c hmem] at hc
  cases hc

theorem IsWord.lexeme_eq (h : IsWord word) : lexeme word = word := by
  obtain ⟨first, more, rfl⟩ := List.exists_cons_of_ne_nil h.ne_nil
  have hlexeme := h.hasForm.lexeme_eq.2
  rwa [List.append_nil] at hlexeme

/-- A word with nothing behind it leads no literal. -/
theorem IsWord.token_eq (h : IsWord word) : token word = .ok (.classify word, word) := by
  obtain ⟨first, more, rfl⟩ := List.exists_cons_of_ne_nil h.ne_nil
  have hlexeme := h.lexeme_eq
  have hafter : afterLexeme (first :: more) = [] := by rw [afterLexeme, hlexeme, List.drop_length]
  have hfirst : Rune.isWord first = true := h.isWord first List.mem_cons_self
  have hquote : ¬ Rune.isQuote first = true := by
    intro hq
    rcases Rune.isQuote_iff.mp hq with rfl | rfl <;> revert hfirst <;> decide
  have hbackslash : first ≠ '\\' := by
    rintro rfl
    revert hfirst
    decide
  rw [token_of_word hquote hbackslash, hlexeme, hafter, ofWord]
  split
  · exact led_word .unicodeString rfl
  · split
    · exact led_word .hexString rfl
    · rfl

/-- The place of a word by itself holds its token. -/
theorem IsWord.read_eq (h : IsWord word) : (Place.ofText word).read =
    .ok (⟨.classify word, word, .start⟩, (Place.ofText word).past word) := by
  have hblank : ∀ c ∈ word.head?, Rune.isBlank c = false :=
    fun c hc => isBlank_of_isWord (h.isWord c (List.mem_of_head? hc))
  have hsolid : (Place.ofText word).solid = Place.ofText word := by
    obtain ⟨first, more, rfl⟩ := List.exists_cons_of_ne_nil h.ne_nil
    have hfirst : ¬ Rune.isBlank first = true := by simp [hblank first rfl]
    rw [Place.solid, Place.ofText, List.dropWhile_cons_of_neg hfirst,
      List.takeWhile_cons_of_neg hfirst, Position.advance_nil]
  have htoken : token (Place.ofText word).runes = .ok (.classify word, word) := h.token_eq
  rw [Place.read, hsolid, htoken]
  rfl

end Runes

/-! ## Kinds -/

/-- A word that is not reserved is a type with a size, or else its first rune decides. -/
theorem TokenKind.classify_unspelled {word : List Char}
    (h : ∀ entry ∈ spellings, entry.1.toList ≠ word) :
    classify word = (SizedType.kind? word).getD
      (if word.head?.any Char.isDigit then number else identifier) := by
  have hnone : lookup word = none := by
    rw [lookup, List.find?_eq_none.mpr (by simpa using h)]
    rfl
  rw [classify, hnone]
  dsimp only
  cases SizedType.kind? word <;> rfl

/-- A token with the runes of a word is no literal, and its kind is that of the word. -/
theorem Token.Formed.kind_eq {t : Token} (h : t.Formed) (hword : Runes.IsWord t.text) :
    t.kind = .classify t.text := by
  cases h with
  | eos p => exact absurd rfl hword.ne_nil
  | classified p hpiece hsolid => rfl
  | @literal lead kind quote body p hlead hquote hhex =>
      have hnot : Rune.isWord quote = false := by
        rcases Rune.isQuote_iff.mp hquote with rfl | rfl <;> decide
      exact absurd (by simp) (hword.not_mem hnot)

namespace TokenReader

/-- A word by itself is one fragment and one token, and wherever it is a token of a source it has
the same kind. A reserved word has the kind of its spelling. Any other word is a type with a size
exactly if it is the word of the type with the size in decimal behind it, and else a number if an
ASCII digit comes first, or an identifier. -/
theorem word_kinds {word : List Char} (h : Runes.IsWord word) :
    (∃ s, (FragmentReader.ofFeed (.ofText word)).next = .ok (some ⟨.start, word⟩) s) ∧
    (∃ s, (ofFeed (.ofText word)).next = .ok ⟨.classify word, word, .start⟩ s) ∧
    (∀ chunks r, Reached (.ofChunks chunks) r →
      (∀ s ts u, step s r = .ok ts u → ∀ t ∈ ts, t.text = word → t.kind = .classify word) ∧
      ∀ {α : Type} (production : Production α), ∀ t ∈ r.consumed production,
        t.text = word → t.kind = .classify word) ∧
    (∀ entry ∈ TokenKind.spellings, entry.1.toList = word →
      TokenKind.classify word = entry.2) ∧
    ((∀ entry ∈ TokenKind.spellings, entry.1.toList ≠ word) →
      (∀ kind, kind ≠ .number → kind ≠ .identifier →
        (TokenKind.classify word = kind ↔ SizedType.Written kind word)) ∧
      ((∀ kind, ¬ SizedType.Written kind word) →
        TokenKind.classify word =
          if word.head?.any Char.isDigit then .number else .identifier)) := by
  have hkind : ∀ t : Token, t.Formed → t.text = word → t.kind = .classify word := by
    rintro t ht rfl
    exact ht.kind_eq h
  have hplus : '+' ∉ word := h.not_mem (by decide)
  refine ⟨?_, ?_, fun chunks r hr => ⟨?_, ?_⟩, ?_, fun hfree => ⟨?_, ?_⟩⟩
  · have hstart := FragmentReader.ahead_ofFeed word
    rw [← Feed.ofText_eq_runes] at hstart
    obtain ⟨s, hs, -⟩ := FragmentReader.next_cons (.inl hstart) h.ne_nil
    rw [h.lexeme_eq] at hs
    exact ⟨s, hs⟩
  · obtain ⟨s, hs, -⟩ := next_ok (at_ofFeed word) h.read_eq
    exact ⟨s, hs⟩
  · exact fun s ts u hs t ht => hkind t (hr.formed_step hs t ht)
  · exact fun production t ht => hkind t (hr.formed_consumed production t ht)
  · rintro entry hentry rfl
    exact TokenKind.classify_spelled entry hentry
  · intro kind hnumber hidentifier
    rw [TokenKind.classify_unspelled hfree, ← SizedType.kind?_eq_some_iff hplus]
    cases SizedType.kind? word with
    | some kind' => simp
    | none =>
        have hother : (if word.head?.any Char.isDigit then TokenKind.number else .identifier) ≠
            kind := by
          split
          · exact hnumber.symm
          · exact hidentifier.symm
        simpa using hother
  · intro hnone
    have hunsized : SizedType.kind? word = none := by
      cases hsized : SizedType.kind? word with
      | none => rfl
      | some kind => exact absurd ((SizedType.kind?_eq_some_iff hplus).mp hsized) (hnone kind)
    rw [TokenKind.classify_unspelled hfree, hunsized]
    rfl

theorem word_kinds_fixed : Runes.IsWord "fixed128x18".toList ∧
    (∃ s, (ofFeed (.ofText "fixed128x18".toList)).next =
      .ok ⟨.kwFixed, "fixed128x18".toList, .start⟩ s) ∧
    TokenKind.classify "fixed128x18".toList = .kwFixed := by
  have hword : Runes.IsWord "fixed128x18".toList :=
    ⟨by decide, List.all_eq_true.mp (by decide), by decide⟩
  have hfree : ∀ entry ∈ TokenKind.spellings, entry.1.toList ≠ "fixed128x18".toList := by
    decide +kernel
  have hwritten : SizedType.Written .kwFixed "fixed128x18".toList :=
    @SizedType.Written.fixed 128 18 (by decide) (by decide)
  obtain ⟨-, hnext, -, -, hkinds⟩ := word_kinds hword
  have hkind : TokenKind.classify "fixed128x18".toList = .kwFixed :=
    ((hkinds hfree).1 .kwFixed (by decide) (by decide)).mpr hwritten
  rw [hkind] at hnext
  exact ⟨hword, hnext, hkind⟩

/-- Eight more than 32 bits can hold is no size, and only ASCII digits make a number. -/
example : TokenKind.classify "uint4294967304".toList = .identifier ∧
    TokenKind.classify "\u0663".toList = .identifier ∧
    TokenKind.classify "3\u0663".toList = .number := by
  decide +kernel

end TokenReader

end SoliditySource
