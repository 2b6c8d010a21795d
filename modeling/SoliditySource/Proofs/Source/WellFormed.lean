import Mathlib.Tactic.SplitIfs
import SoliditySource.Source.Utf8

/-! # Well-formed bytes

The bytes of a rune are described here by their ranges: `Utf8.Sequence` says which first byte goes
with how many and which others. They are what encoding a rune gives (`sequence_iff`). No sequence
is the start of another one, so the runes of well-formed bytes are determined, and any bytes have
a longest well-formed prefix, behind which no rune starts (`exists_decodes`).
-/

namespace SoliditySource.Utf8

/-! ## Sequences -/

/-- A byte that goes on with a rune. -/
def IsTail (b : UInt8) : Prop := 0x80 ≤ b.toNat ∧ b.toNat ≤ 0xBF

/-- The bytes of one rune. Behind some first bytes the second one has a narrower range, which
leaves out what fits into fewer bytes, surrogates, and numbers that are too large. -/
inductive Sequence : List UInt8 → Prop where
  | one {a : UInt8} (ha : a.toNat ≤ 0x7F) : Sequence [a]
  | two {a b : UInt8} (ha : 0xC2 ≤ a.toNat ∧ a.toNat ≤ 0xDF) (hb : IsTail b) : Sequence [a, b]
  | three {a b c : UInt8} (ha : 0xE0 ≤ a.toNat ∧ a.toNat ≤ 0xEF) (hb : IsTail b) (hc : IsTail c)
      (hshort : a.toNat = 0xE0 → 0xA0 ≤ b.toNat) (hsurrogate : a.toNat = 0xED → b.toNat ≤ 0x9F) :
      Sequence [a, b, c]
  | four {a b c d : UInt8} (ha : 0xF0 ≤ a.toNat ∧ a.toNat ≤ 0xF4) (hb : IsTail b) (hc : IsTail c)
      (hd : IsTail d) (hshort : a.toNat = 0xF0 → 0x90 ≤ b.toNat)
      (hlarge : a.toNat = 0xF4 → b.toNat ≤ 0x8F) : Sequence [a, b, c, d]

theorem sequence_utf8EncodeChar (c : Char) : Sequence (String.utf8EncodeChar c) := by
  have hc := c.valid
  simp only [UInt32.isValidChar, Nat.isValidChar] at hc
  simp only [String.utf8EncodeChar]
  generalize c.val.toNat = v at hc
  split
  · exact .one (by rw [UInt8.toNat_ofNat']; omega)
  · split
    · refine .two ?_ ?_ <;> simp only [IsTail, UInt8.toNat_ofNat'] <;> omega
    · split
      · refine .three ?_ ?_ ?_ ?_ ?_ <;> simp only [IsTail, UInt8.toNat_ofNat'] <;> omega
      · refine .four ?_ ?_ ?_ ?_ ?_ ?_ <;> simp only [IsTail, UInt8.toNat_ofNat'] <;> omega

theorem eq_ofNat {b : UInt8} {n : Nat} (hn : n < 256) (h : b.toNat = n) : UInt8.ofNat n = b := by
  rw [← UInt8.toNat_inj, UInt8.toNat_ofNat', h]
  omega

/-- The number that a sequence spells is that of a rune, of which it is the encoding. -/
theorem Sequence.encode_value {bytes : List UInt8} (h : Sequence bytes) :
    (value bytes).isValidChar ∧ ∀ c : Char, c.val.toNat = value bytes →
      String.utf8EncodeChar c = bytes := by
  simp only [String.utf8EncodeChar]
  cases h with
  | @one a ha =>
      simp only [value]
      refine ⟨.inl (by omega), fun c hv => ?_⟩
      rw [hv, if_pos (by omega), eq_ofNat (by omega) rfl]
  | @two a b ha hb =>
      simp only [value, IsTail] at hb ⊢
      refine ⟨.inl (by omega), fun c hv => ?_⟩
      rw [hv, if_neg (by omega), if_pos (by omega), @eq_ofNat a _ (by omega) (by omega),
        @eq_ofNat b _ (by omega) (by omega)]
  | @three a b c ha hb hc hshort hsurrogate =>
      simp only [value, IsTail, Nat.isValidChar] at hb hc ⊢
      refine ⟨by omega, fun r hv => ?_⟩
      rw [hv, if_neg (by omega), if_neg (by omega), if_pos (by omega),
        @eq_ofNat a _ (by omega) (by omega), @eq_ofNat b _ (by omega) (by omega),
        @eq_ofNat c _ (by omega) (by omega)]
  | @four a b c d ha hb hc hd hshort hlarge =>
      simp only [value, IsTail, Nat.isValidChar] at hb hc hd ⊢
      refine ⟨by omega, fun r hv => ?_⟩
      rw [hv, if_neg (by omega), if_neg (by omega), if_neg (by omega),
        @eq_ofNat a _ (by omega) (by omega), @eq_ofNat b _ (by omega) (by omega),
        @eq_ofNat c _ (by omega) (by omega), @eq_ofNat d _ (by omega) (by omega)]

/-- The bytes of one rune are what encoding a rune gives. -/
theorem sequence_iff {bytes : List UInt8} :
    Sequence bytes ↔ ∃ c, String.utf8EncodeChar c = bytes := by
  constructor
  · intro h
    obtain ⟨hvalid, hencode⟩ := h.encode_value
    exact ⟨Char.ofNatAux (value bytes) hvalid, hencode _ rfl⟩
  · rintro ⟨c, rfl⟩
    exact sequence_utf8EncodeChar c

/-! ## Texts -/

/-- Sequences in a row. -/
inductive WellFormed : List UInt8 → Prop where
  | nil : WellFormed []
  | cons {first rest : List UInt8} (h : Sequence first) (hrest : WellFormed rest) :
      WellFormed (first ++ rest)

variable {bytes rest : List UInt8} {text : List Char}

theorem encode_cons (c : Char) (text : List Char) :
    encode (c :: text) = String.utf8EncodeChar c ++ encode text := rfl

theorem encode_append (front back : List Char) :
    encode (front ++ back) = encode front ++ encode back := List.flatMap_append

/-- Well-formed bytes are the encodings of texts. -/
theorem wellFormed_iff : WellFormed bytes ↔ ∃ text, encode text = bytes := by
  constructor
  · intro h
    induction h with
    | nil => exact ⟨[], rfl⟩
    | cons hfirst _ ih =>
        obtain ⟨c, rfl⟩ := sequence_iff.mp hfirst
        obtain ⟨text, rfl⟩ := ih
        exact ⟨c :: text, rfl⟩
  · rintro ⟨text, rfl⟩
    induction text with
    | nil => exact .nil
    | cons c text ih => exact .cons (sequence_utf8EncodeChar c) ih

/-- Runes are told apart by their bytes: the first byte gives their number, and they give the
value. -/
theorem utf8EncodeChar_append_inj {c d : Char} {xs ys : List UInt8}
    (h : String.utf8EncodeChar c ++ xs = String.utf8EncodeChar d ++ ys) : c = d ∧ xs = ys := by
  obtain ⟨a, more, hc, ha⟩ := following_utf8EncodeChar c
  obtain ⟨b, others, hd, hb⟩ := following_utf8EncodeChar d
  have hlen : (String.utf8EncodeChar c).length = (String.utf8EncodeChar d).length := by
    rw [hc, hd, List.cons_append, List.cons_append] at h
    rw [(List.cons.inj h).1, hb] at ha
    rw [hc, hd, List.length_cons, List.length_cons, Option.some.inj ha]
  obtain ⟨hbytes, hrest⟩ := List.append_inj h hlen
  have hvalue := congrArg value hbytes
  rw [value_utf8EncodeChar, value_utf8EncodeChar] at hvalue
  exact ⟨by rw [← Char.ofNat_toNat c, hvalue, Char.ofNat_toNat], hrest⟩

/-- A text whose encoding is in front of bytes is in front of every text behind whose encoding no
rune starts. -/
theorem prefix_of_encode_prefix {other : List Char} (hrest : ∀ c, ¬ String.utf8EncodeChar c <+: rest)
    (h : encode other <+: encode text ++ rest) : other <+: text := by
  induction other generalizing text with
  | nil => exact List.nil_prefix
  | cons c other ih =>
      obtain ⟨more, hmore⟩ := h
      rw [encode_cons, List.append_assoc] at hmore
      cases text with
      | nil => exact absurd ⟨_, hmore⟩ (hrest c)
      | cons d text =>
          rw [encode_cons, List.append_assoc] at hmore
          obtain ⟨rfl, hback⟩ := utf8EncodeChar_append_inj hmore
          exact (List.prefix_cons_inj c).mpr (ih ⟨more, hback⟩)

/-- The text is what the longest well-formed prefix of the bytes encodes. -/
structure Decodes (bytes : List UInt8) (text : List Char) : Prop where
  isPrefix : encode text <+: bytes
  longest : ∀ other, WellFormed other → other <+: bytes → other.length ≤ (encode text).length

/-- Behind the longest well-formed prefix, no rune starts. -/
theorem decodes_iff : Decodes bytes text ↔
    ∃ rest, bytes = encode text ++ rest ∧ ∀ c, ¬ String.utf8EncodeChar c <+: rest := by
  constructor
  · rintro ⟨⟨rest, rfl⟩, hlongest⟩
    refine ⟨rest, rfl, fun c hc => ?_⟩
    have hone : encode [c] = String.utf8EncodeChar c := List.append_nil _
    have hmore : encode (text ++ [c]) <+: encode text ++ rest := by
      rw [encode_append, List.prefix_append_right_inj, hone]
      exact hc
    have hle := hlongest _ (wellFormed_iff.mpr ⟨_, rfl⟩) hmore
    obtain ⟨b, others, hb, -⟩ := following_utf8EncodeChar c
    rw [encode_append, hone, hb, List.length_append, List.length_cons] at hle
    omega
  · rintro ⟨rest, rfl, hrest⟩
    refine ⟨List.prefix_append _ _, fun other hother hprefix => ?_⟩
    obtain ⟨text', rfl⟩ := wellFormed_iff.mp hother
    obtain ⟨more, rfl⟩ := prefix_of_encode_prefix hrest hprefix
    rw [encode_append, List.length_append]
    exact Nat.le_add_right _ _

theorem Decodes.unique {other : List Char} (h : Decodes bytes text) (ho : Decodes bytes other) :
    other = text := by
  obtain ⟨rest, rfl, hrest⟩ := decodes_iff.mp h
  obtain ⟨more, heq, hmore⟩ := decodes_iff.mp ho
  have hfront := prefix_of_encode_prefix hrest ho.isPrefix
  have hback := prefix_of_encode_prefix hmore ⟨rest, heq⟩
  exact hfront.eq_of_length (Nat.le_antisymm hfront.length_le hback.length_le)

theorem exists_decodes (bytes : List UInt8) : ∃ text, Decodes bytes text := by
  induction hn : bytes.length using Nat.strongRecOn generalizing bytes with
  | _ n ih =>
      subst hn
      by_cases h : ∃ c, String.utf8EncodeChar c <+: bytes
      · obtain ⟨c, rest, rfl⟩ := h
        have hlt : rest.length < (String.utf8EncodeChar c ++ rest).length := by
          obtain ⟨b, others, hb, -⟩ := following_utf8EncodeChar c
          rw [hb]
          simp only [List.length_append, List.length_cons]
          omega
        obtain ⟨text, htext⟩ := ih _ hlt rest rfl
        obtain ⟨last, rfl, hlast⟩ := decodes_iff.mp htext
        exact ⟨c :: text, decodes_iff.mpr ⟨last, by rw [encode_cons, List.append_assoc], hlast⟩⟩
      · exact ⟨[], decodes_iff.mpr ⟨bytes, rfl, not_exists.mp h⟩⟩

/-- The bytes are well-formed if nothing is behind their longest well-formed prefix. -/
theorem wellFormed_append_iff (hrest : ∀ c, ¬ String.utf8EncodeChar c <+: rest) :
    WellFormed (encode text ++ rest) ↔ rest = [] := by
  constructor
  · intro h
    obtain ⟨other, hother⟩ := wellFormed_iff.mp h
    have hprefix : other <+: text := prefix_of_encode_prefix hrest (hother ▸ List.prefix_rfl)
    obtain ⟨more, rfl⟩ := hprefix
    have hlen := congrArg List.length hother
    rw [encode_append, List.length_append, List.length_append] at hlen
    exact List.length_eq_zero_iff.mp (by omega)
  · rintro rfl
    exact wellFormed_iff.mpr ⟨text, by rw [List.append_nil]⟩

/-- These bytes are the ones with which no rune starts. -/
theorem following_eq_none_iff (b : UInt8) :
    following b = none ↔ 0x80 ≤ b.toNat ∧ b.toNat ≤ 0xC1 ∨ 0xF5 ≤ b.toNat := by
  unfold following
  split_ifs <;> simp <;> omega

theorem not_isPrefix_of_following {b : UInt8} (h : following b = none) (rest : List UInt8)
    (c : Char) : ¬ String.utf8EncodeChar c <+: b :: rest := by
  obtain ⟨a, more, hc, ha⟩ := following_utf8EncodeChar c
  rw [hc, List.cons_prefix_cons]
  rintro ⟨rfl, -⟩
  cases ha.symm.trans h

end SoliditySource.Utf8
