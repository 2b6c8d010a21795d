import SoliditySource.Position
import SoliditySource.Token.SizedType
import SoliditySource.Token.Spelling

/-! # Tokens

A token is a classified piece of source text with the position of its first rune.
Words and operators are classified by their text alone.
-/

namespace SoliditySource

namespace TokenKind

/-- The kind of a word or operator: that of its fixed spelling, else that of a sized
type, else a number or an identifier by its first rune. -/
def classify (text : List Char) : TokenKind :=
  match lookup text with
  | some kind => kind
  | none =>
      match SizedType.kind? text with
      | some kind => kind
      | none => if text.head?.any Char.isDigit then number else identifier

end TokenKind

structure Token where
  kind : TokenKind
  text : List Char
  position : Position
  deriving DecidableEq, Repr

namespace Token

def classified (text : List Char) (position : Position) : Token :=
  ⟨.classify text, text, position⟩

/-- The token that stands for the end of the source at `position`. -/
def eos (position : Position) : Token := ⟨.eos, [], position⟩

def isEos (t : Token) : Bool := t.kind = .eos

def last (t : Token) : Position := t.position.lastRune t.text

def span (t : Token) : Span := ⟨t.position, t.last⟩

end Token

end SoliditySource
