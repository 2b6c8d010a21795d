import SoliditySource.Token.Kind

/-! # Elementary types with a size

A type word may carry its size: `uint256`, `int8`, `bytes32`, `fixed128x18`. The
family tells which sizes there are. A size is written in decimal without leading
zeros; a plus sign may stand before it. Numbers are read into 32 bits.
-/

namespace SoliditySource.SizedType

def value (digits : List Char) : Nat :=
  digits.foldl (fun n c => 10 * n + (c.toNat - '0'.toNat)) 0

/-- Reads a number of 32 bits: ASCII digits, at least one, after at most one plus
sign. -/
def number? (text : List Char) : Option Nat :=
  let digits := match text with
    | '+' :: digits => digits
    | digits => digits
  if digits ≠ [] ∧ digits.all Char.isDigit ∧ value digits < UInt32.size then some (value digits)
  else none

/-- Holds when `text` is a number of which `fits` holds, and starts with no zero. -/
def isSize (fits : Nat → Bool) (text : List Char) : Bool :=
  (number? text).any fits && text.head? ≠ some '0'

/-- The number of bits of an integer: a multiple of eight up to 256. -/
def isBits (text : List Char) : Bool :=
  isSize (fun n => 8 ≤ n && n ≤ 256 && n % 8 == 0) text

def isBytes (text : List Char) : Bool := isSize (fun n => 1 ≤ n && n ≤ 32) text

def isPlaces (text : List Char) : Bool := text = ['0'] || isSize (fun n => n ≤ 80) text

/-- The size of a fixed point number: its bits and its decimal places, with the first
`x` between them. -/
def isFixed (text : List Char) : Bool :=
  match text.dropWhile (· ≠ 'x') with
  | [] => false
  | _ :: places => isBits (text.takeWhile (· ≠ 'x')) && isPlaces places

/-- The families of sized types: the word, the test of the size, and the kind. -/
def families : List (String × (List Char → Bool) × TokenKind) :=
  [("uint", isBits, .kwUint), ("int", isBits, .kwInt), ("bytes", isBytes, .kwBytes),
    ("ufixed", isFixed, .kwUfixed), ("fixed", isFixed, .kwFixed)]

def kind? (text : List Char) : Option TokenKind :=
  families.findSome? fun (word, isSizeOf, kind) =>
    match word.toList.isPrefixOf? text with
    | some size => if isSizeOf size then some kind else none
    | none => none

end SoliditySource.SizedType
