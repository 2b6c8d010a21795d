import Mathlib.Computability.Language
import SoliditySource.Proofs.Reparse.Tokens
import SoliditySource.Proofs.Source.WellFormed
import SoliditySource.Proofs.Token.Formed
import SoliditySource.Proofs.Token.Mistakes

/-! # Literals of bytes

The bodies of `hex` literals are a regular language. They are checked group by group, and it does
not matter whether the length of a group counts runes or bytes, since only ASCII digits pass. The
quotes that are cut off before the check are a byte each, so the cut is between runes whatever
stands inside. A token is a `hex` literal just if it is the word, a body and two equal quotes.
-/

namespace SoliditySource

open scoped Computability

/-! ## Bytes of a text -/

namespace Rune

variable {c : Char}

theorem isHexDigit_ascii (h : isHexDigit c = true) : c.val ≤ 127 := by
  simp only [isHexDigit, Char.isDigit, Char.le_def, Bool.or_eq_true, Bool.and_eq_true,
    decide_eq_true_eq] at h
  rcases h with (⟨_, h⟩ | ⟨_, h⟩) | ⟨_, h⟩ <;> exact UInt32.le_trans h (by decide)

theorem isQuote_ascii (h : isQuote c = true) : c.val ≤ 127 := by
  rcases isQuote_iff.mp h with rfl | rfl <;> decide

end Rune

namespace Utf8

/-- The bytes of the text from `start` up to `stop` are there, runes end on either side of them,
and they are those of `piece`. -/
def IsSlice (text : List Char) (start stop : Nat) (piece : List Char) : Prop :=
  ∃ front back, text = front ++ (piece ++ back) ∧ (encode front).length = start ∧
    (encode (front ++ piece)).length = stop

theorem length_encode_of_ascii {text : List Char} (h : ∀ c ∈ text, c.val ≤ 127) :
    (encode text).length = text.length := by
  induction text with
  | nil => rfl
  | cons c text ih =>
      rw [List.forall_mem_cons] at h
      rw [encode_cons, List.length_append, String.length_utf8EncodeChar,
        Char.utf8Size_eq_one_iff.mpr h.1, ih h.2, List.length_cons, Nat.add_comm]

/-- What stands between two quotes starts at the second byte and ends before the last one. -/
theorem isSlice_quoted {quote : Char} (hq : Rune.isQuote quote = true) (body : List Char) :
    2 ≤ (encode (quote :: (body ++ [quote]))).length ∧
      IsSlice (quote :: (body ++ [quote])) 1 ((encode (quote :: (body ++ [quote]))).length - 1)
        body := by
  have hone : (encode [quote]).length = 1 :=
    length_encode_of_ascii (by simpa using Rune.isQuote_ascii hq)
  have hlength : (encode (quote :: (body ++ [quote]))).length =
      (encode ([quote] ++ body)).length + 1 := by
    rw [← hone, ← List.length_append, ← encode_append, List.append_assoc]
    rfl
  refine ⟨?_, [quote], [quote], rfl, hone, ?_⟩
  · rw [hlength, encode_append, List.length_append, hone]
    omega
  · rw [hlength, Nat.add_sub_cancel]

end Utf8

/-! ## Bodies -/

namespace HexBody

/-- Two digits, which stand for a byte. -/
def byte : Language Char :=
  {word | ∃ a b, Rune.isHexDigit a = true ∧ Rune.isHexDigit b = true ∧ word = [a, b]}

/-- What may stand between two bytes. -/
def gap : Language Char := 1 + {['_']}

/-- Nothing, or bytes in a row, with an underscore between two of them or none. -/
def grammar : Language Char := 1 + byte * (gap * byte)∗

/-- The bodies that are not empty. -/
def pairs : Language Char := {body | Pairs body}

variable {front back : List Char}

theorem Pairs.append (h : Pairs front) (hback : Pairs back) :
    Pairs (front ++ back) ∧ Pairs (front ++ '_' :: back) := by
  induction h with
  | last ha hb => exact ⟨.pair ha hb hback, .spaced ha hb hback⟩
  | pair ha hb _ ih => exact ⟨.pair ha hb ih.1, .pair ha hb ih.2⟩
  | spaced ha hb _ ih => exact ⟨.spaced ha hb ih.1, .spaced ha hb ih.2⟩

theorem pairs_of_mem_byte (h : front ∈ byte) : Pairs front := by
  obtain ⟨a, b, ha, hb, rfl⟩ := h
  exact .last ha hb

theorem Pairs.append_of_mem (h : Pairs front) (hback : back ∈ gap * byte) :
    Pairs (front ++ back) := by
  obtain ⟨between, hbetween, last, hlast, rfl⟩ := hback
  have happend := h.append (pairs_of_mem_byte hlast)
  cases hbetween with
  | inl hnone => cases hnone; exact happend.1
  | inr hunderscore => cases hunderscore; exact happend.2

/-- Behind the first byte come no more bytes, or a gap and again bytes. -/
theorem bytes_eq : byte * (gap * byte)∗ = byte + byte * (gap * (byte * (gap * byte)∗)) := by
  calc byte * (gap * byte)∗
      = byte * (1 + gap * byte * (gap * byte)∗) := by rw [one_add_mul_kstar]
    _ = byte + byte * (gap * (byte * (gap * byte)∗)) := by rw [mul_add, mul_one, mul_assoc gap]

/-- `Pairs` puts a byte in front and the star puts one behind, and both come to the same texts. -/
theorem pairs_eq : pairs = byte * (gap * byte)∗ := by
  apply le_antisymm
  · intro body h
    induction h with
    | @last a b ha hb =>
        rw [bytes_eq]
        exact .inl ⟨a, b, ha, hb, rfl⟩
    | @pair a b rest ha hb _ ih =>
        rw [bytes_eq]
        exact .inr ⟨[a, b], ⟨a, b, ha, hb, rfl⟩, rest, ⟨[], .inl rfl, rest, ih, rfl⟩, rfl⟩
    | @spaced a b rest ha hb _ ih =>
        rw [bytes_eq]
        exact .inr ⟨[a, b], ⟨a, b, ha, hb, rfl⟩, '_' :: rest, ⟨['_'], .inr rfl, rest, ih, rfl⟩, rfl⟩
  · apply mul_kstar_le
    · exact fun _ => pairs_of_mem_byte
    · rintro _ ⟨front, hfront, back, hback, rfl⟩
      exact Pairs.append_of_mem hfront hback

theorem isValid_iff_mem (body : List Char) : isValid body = true ↔ body ∈ grammar := by
  rw [isValid_iff, grammar, ← pairs_eq, Language.mem_add, Language.mem_one]
  rfl

/-- Two runes of two bytes each are no byte. -/
example : "\u00E9\u00E9".toList ∉ grammar := by
  rw [← isValid_iff_mem]
  decide

theorem Pairs.of_mem {body : List Char} (h : Pairs body) {c : Char} (hc : c ∈ body) :
    Rune.isHexDigit c = true ∨ c = '_' := by
  induction h with
  | last ha hb => grind
  | pair ha hb _ ih => grind
  | spaced ha hb _ ih => grind

theorem groups_eq_splitOn (body : List Char) : groups body = body.splitOn '_' := by
  induction body with
  | nil => rfl
  | cons c rest ih =>
      rw [List.splitOn, List.splitOnP_cons_eq_if_modifyHead, ← List.splitOn, ← ih]
      by_cases hc : c = '_'
      · rw [groups, if_pos hc, if_pos (by simpa using hc)]
      · obtain ⟨first, others, hrest, hgroups⟩ := groups_cons hc rest
        rw [hgroups, if_neg (by simpa using hc), hrest, List.modifyHead_cons]

/-- Where all runes are digits there are as many bytes, and elsewhere the length has no say. -/
theorem isGroup_eq (group : List Char) : isGroup group =
    (!group.isEmpty && (Utf8.encode group).length % 2 == 0 && group.all Rune.isHexDigit) := by
  by_cases h : group.all Rune.isHexDigit = true
  · have hascii : ∀ c ∈ group, c.val ≤ 127 :=
      fun c hc => Rune.isHexDigit_ascii (List.all_eq_true.mp h c hc)
    rw [isGroup, Utf8.length_encode_of_ascii hascii]
  · rw [isGroup, Bool.eq_false_iff.mpr h, Bool.and_false, Bool.and_false]

end HexBody

/-! ## Tokens -/

namespace Runes

/-- The text is the word `hex`, and a body between two equal quotes right behind it. -/
def IsHexLiteral (text : List Char) : Prop :=
  ∃ quote body, Rune.isQuote quote = true ∧ body ∈ HexBody.grammar ∧
    text = "hex".toList ++ quote :: (body ++ [quote])

variable {quote : Char} {body : List Char}

/-- A body holds nothing that closes the literal or takes what stands behind it. -/
theorem closing_hexBody (hq : Rune.isQuote quote = true) (hbody : body ∈ HexBody.grammar)
    (rest : List Char) : closing quote (body ++ quote :: rest) = some (body ++ [quote]) := by
  have hplain : ∀ c ∈ body, c ≠ '\\' ∧ c ≠ quote := by
    intro c hc
    rw [← HexBody.isValid_iff_mem, HexBody.isValid_iff] at hbody
    cases hbody with
    | inl hnil => subst hnil; cases hc
    | inr hpairs =>
        have hdigit := hpairs.of_mem hc
        constructor
        · rintro rfl
          revert hdigit
          decide
        · rintro rfl
          rcases Rune.isQuote_iff.mp hq with rfl | rfl <;> revert hdigit <;> decide
  rw [closing_append hplain, closing.eq_def]
  dsimp only
  rw [if_neg (ne_backslash_of_isQuote hq), if_pos rfl]
  rfl

theorem IsHexLiteral.token_eq {text : List Char} (h : IsHexLiteral text) (rest : List Char) :
    token (text ++ rest) = .ok (.hexString, text) := by
  obtain ⟨quote, body, hq, hbody, rfl⟩ := h
  have hlead : ("hex".toList, TokenKind.hexString) ∈ Token.literalLeads := by decide
  have htoken := token_quoted hlead hq (body ++ quote :: rest)
  rw [closing_hexBody hq hbody] at htoken
  simpa [(HexBody.isValid_iff_mem body).mpr hbody] using htoken

/-- The place of a literal holds its token, whatever comes behind it. -/
theorem IsHexLiteral.read_eq {text : List Char} (h : IsHexLiteral text) (rest : List Char) :
    (Place.ofText (text ++ rest)).read =
      .ok (⟨.hexString, text, .start⟩, ⟨rest, Position.start.advance text⟩) := by
  have htoken := h.token_eq rest
  obtain ⟨quote, body, -, -, rfl⟩ := h
  exact Place.read_text (List.forall_mem_nil _) (List.cons_ne_nil _ _) rfl htoken .start

end Runes

/-- Only the word `hex` leads literals of this kind, and their bodies have been checked. -/
theorem Token.Formed.isHexLiteral {t : Token} (h : t.Formed) (hkind : t.kind = .hexString) :
    Runes.IsHexLiteral t.text := by
  cases h with
  | eos p => cases hkind
  | classified p hpiece hsolid =>
      exact absurd hkind (TokenKind.classify_ne (by decide) (by decide) _)
  | @literal lead kind quote body p hlead hquote hhex =>
      have hk : kind = .hexString := by
        dsimp only at hkind
        split at hkind
        · cases hkind
        · exact hkind
      subst hk
      have hword : lead = "hex".toList := by simpa [literalLeads] using hlead
      exact ⟨quote, body, hquote, (HexBody.isValid_iff_mem body).mp (hhex rfl), by rw [hword]⟩

/-- The quotes are taken off a literal within its bounds, whatever reader gives it. -/
theorem FragmentReader.isSlice_of_quoted {opening : Fragment} {r s : FragmentReader}
    {text : List Char} (h : quoted opening r = .ok text s) :
    2 ≤ (Utf8.encode text).length ∧
      Utf8.IsSlice text 1 ((Utf8.encode text).length - 1) text.tail.dropLast := by
  obtain ⟨quote, body, hquote, -, rfl⟩ := quoted_eq_append h
  rw [List.tail_cons, List.dropLast_concat]
  exact Utf8.isSlice_quoted hquote body

namespace TokenReader

/-- A body passes the check exactly if it is nothing, or bytes of two digits in a row with at most
one underscore between two of them; the check comes to the same if it splits the body at the
underscores and counts the bytes of the pieces. What is checked is a slice of the quoted text, on
any reader. Each `hex` literal that a source gives, whatever steps and productions are made on it,
is the word with such a body in equal quotes, and each such text is read as a `hex` literal. -/
theorem hex_literals :
    (∀ body, HexBody.isValid body = true ↔ body ∈ HexBody.grammar) ∧
    (∀ body, HexBody.isValid body = (body.isEmpty || (body.splitOn '_').all fun group =>
      !group.isEmpty && (Utf8.encode group).length % 2 == 0 && group.all Rune.isHexDigit)) ∧
    (∀ opening r text s, FragmentReader.quoted opening r = .ok text s →
      2 ≤ (Utf8.encode text).length ∧
        Utf8.IsSlice text 1 ((Utf8.encode text).length - 1) text.tail.dropLast) ∧
    (∀ feed r, Reached feed r →
      (∀ s ts u, step s r = .ok ts u →
        ∀ t ∈ ts, t.kind = .hexString → Runes.IsHexLiteral t.text) ∧
      ∀ {α : Type} (production : Production α), ∀ t ∈ r.consumed production,
        t.kind = .hexString → Runes.IsHexLiteral t.text) ∧
    ∀ text, Runes.IsHexLiteral text → ∀ rest,
      ∃ s, (ofFeed (.ofText (text ++ rest))).next = .ok ⟨.hexString, text, .start⟩ s := by
  refine ⟨HexBody.isValid_iff_mem, fun body => ?_, fun opening r text s h => ?_,
    fun feed r hr => ⟨fun s ts u hs t ht => ?_, fun production t ht => ?_⟩,
    fun text h rest => ?_⟩
  · rw [HexBody.isValid, HexBody.groups_eq_splitOn, List.all_congr rfl HexBody.isGroup_eq]
  · exact FragmentReader.isSlice_of_quoted h
  · exact (hr.formed_step hs t ht).isHexLiteral
  · exact (hr.formed_consumed production t ht).isHexLiteral
  · obtain ⟨s, hs, -⟩ := next_ok (at_ofFeed (text ++ rest)) (h.read_eq rest)
    exact ⟨s, hs⟩

theorem hex_literals_spaced :
    "00ff_A0".toList ∈ HexBody.grammar ∧
    ∃ s, step .next (ofFeed (.ofText "hex'00ff_A0';".toList)) =
        .ok [⟨.hexString, "hex'00ff_A0'".toList, .start⟩] s ∧
      Runes.IsHexLiteral "hex'00ff_A0'".toList := by
  obtain ⟨hgrammar, -, -, htokens, hread⟩ := hex_literals
  have hbody : "00ff_A0".toList ∈ HexBody.grammar := (hgrammar _).mp (by decide)
  obtain ⟨s, hs⟩ := hread "hex'00ff_A0'".toList ⟨'\'', "00ff_A0".toList, rfl, hbody, rfl⟩ [';']
  have hstep : step .next (ofFeed (.ofText "hex'00ff_A0';".toList)) =
      .ok [⟨.hexString, "hex'00ff_A0'".toList, .start⟩] s := by
    show EStateM.map _ next _ = _
    rw [EStateM.map, show next (ofFeed (.ofText "hex'00ff_A0';".toList)) = _ from hs]
  exact ⟨hbody, s, hstep,
    (htokens _ _ .start).1 .next _ s hstep _ (List.mem_singleton_self _) rfl⟩

end TokenReader

end SoliditySource
