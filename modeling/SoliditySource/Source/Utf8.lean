/-! # Runes as bytes

The first byte of a rune tells how many bytes the rune takes. Whether the bytes
then gathered are a rune is settled by encoding their value again: overlong
forms, surrogates, values out of range and stray continuation bytes all fail
that test, because none of them is what the encoder writes.
-/

namespace SoliditySource.Utf8

/-- How many bytes follow the first byte `b` of a rune; `none` when no rune starts
with `b`. -/
def following (b : UInt8) : Option Nat :=
  if b.toNat < 0x80 then some 0
  else if 0xC2 ≤ b.toNat ∧ b.toNat ≤ 0xDF then some 1
  else if 0xE0 ≤ b.toNat ∧ b.toNat ≤ 0xEF then some 2
  else if 0xF0 ≤ b.toNat ∧ b.toNat ≤ 0xF4 then some 3
  else none

/-- The number that the payload bits of `bytes` spell. -/
def value : List UInt8 → Nat
  | [a] => a.toNat
  | [a, b] => a.toNat % 32 * 64 + b.toNat % 64
  | [a, b, c] => a.toNat % 16 * 4096 + b.toNat % 64 * 64 + c.toNat % 64
  | [a, b, c, d] =>
      a.toNat % 8 * 262144 + b.toNat % 64 * 4096 + c.toNat % 64 * 64 + d.toNat % 64
  | _ => 0

/-- The rune whose encoding is exactly `bytes`. -/
def decode? (bytes : List UInt8) : Option Char :=
  let rune := Char.ofNat (value bytes)
  if String.utf8EncodeChar rune = bytes then some rune else none

def encode (text : List Char) : List UInt8 := text.flatMap String.utf8EncodeChar

/-! ## Decoding inverts encoding -/

theorem value_utf8EncodeChar (c : Char) : value (String.utf8EncodeChar c) = c.toNat := by
  have hc := c.valid
  simp only [UInt32.isValidChar, Nat.isValidChar] at hc
  have hn : c.toNat = c.val.toNat := rfl
  simp only [String.utf8EncodeChar]
  split
  · simp [value]; omega
  · split
    · simp [value]; omega
    · split
      · simp [value]; omega
      · simp [value]; omega

/-- A byte sequence decodes to a rune exactly when it is the encoding of that rune. -/
theorem decode?_eq_some_iff {bytes : List UInt8} {c : Char} :
    decode? bytes = some c ↔ String.utf8EncodeChar c = bytes := by
  constructor
  · intro h
    simp only [decode?] at h
    split at h
    · next he => cases h; exact he
    · cases h
  · intro h
    subst h
    simp [decode?, value_utf8EncodeChar]

theorem following_utf8EncodeChar (c : Char) :
    ∃ b rest, String.utf8EncodeChar c = b :: rest ∧ following b = some rest.length := by
  have hc := c.valid
  simp only [UInt32.isValidChar, Nat.isValidChar] at hc
  simp only [String.utf8EncodeChar]
  split
  · refine ⟨_, _, rfl, ?_⟩
    rw [following, if_pos (by rw [UInt8.toNat_ofNat']; omega)]
    rfl
  · split
    · refine ⟨_, _, rfl, ?_⟩
      rw [following, if_neg (by rw [UInt8.toNat_ofNat']; omega),
        if_pos (by rw [UInt8.toNat_ofNat']; omega)]
      rfl
    · split
      · refine ⟨_, _, rfl, ?_⟩
        rw [following, if_neg (by rw [UInt8.toNat_ofNat']; omega),
          if_neg (by rw [UInt8.toNat_ofNat']; omega), if_pos (by rw [UInt8.toNat_ofNat']; omega)]
        rfl
      · refine ⟨_, _, rfl, ?_⟩
        rw [following, if_neg (by rw [UInt8.toNat_ofNat']; omega),
          if_neg (by rw [UInt8.toNat_ofNat']; omega), if_neg (by rw [UInt8.toNat_ofNat']; omega),
          if_pos (by rw [UInt8.toNat_ofNat']; omega)]
        rfl

end SoliditySource.Utf8
