/-! # Rune classes

A rune is a Unicode code point. Three kinds of rune end a word: the newline,
white space, and the split symbols, from which operators and brackets are made.
Everything else is a word rune.
-/

namespace SoliditySource.Rune

/-- White space other than the newline. -/
def isSpace (c : Char) : Bool :=
  c ∈ [' ', '\t', '\x0B', '\x0C', '\r', '\u0085', '\u00A0', '\u1680', '\u2028', '\u2029',
    '\u202F', '\u205F', '\u3000'] ||
  ('\u2000' ≤ c && c ≤ '\u200A')

def isBlank (c : Char) : Bool := c = '\n' || isSpace c

/-- A rune that ends a word even without white space around it. -/
def isSplit (c : Char) : Bool :=
  c ∈ ['(', ')', '[', ']', '{', '}', ':', ';', '?', '=', '|', '^', '&', '<', '>', '+', '-', '*',
    '/', '%', ',', '!', '~', '"', '\'', '\\']

def isWord (c : Char) : Bool := c ≠ '\n' && !isSplit c && !isSpace c

def isQuote (c : Char) : Bool := c = '"' || c = '\''

def isHexDigit (c : Char) : Bool :=
  c.isDigit || ('a' ≤ c && c ≤ 'f') || ('A' ≤ c && c ≤ 'F')

/-- The runes that make the operator `op` into a longer operator. Each operator of
two or more runes is reached from its first rune through shorter operators, so
following extensions as far as they go finds the longest one. -/
def extensions : List Char → List Char
  | ['='] => ['>', '=']
  | ['-'] => ['>', '=', '-']
  | ['|'] => ['=', '|']
  | ['^'] => ['=']
  | ['&'] => ['=', '&']
  | ['+'] => ['=', '+']
  | ['*'] => ['=', '*']
  | ['/'] => ['=']
  | ['%'] => ['=']
  | ['!'] => ['=']
  | ['<'] => ['<', '=', '-']
  | ['>'] => ['>', '=', '-']
  | ['<', '<'] => ['=']
  | ['>', '>'] => ['=', '>']
  | ['>', '>', '>'] => ['=']
  | _ => []

def startsLongOperator (c : Char) : Bool := !(extensions [c]).isEmpty

end SoliditySource.Rune
