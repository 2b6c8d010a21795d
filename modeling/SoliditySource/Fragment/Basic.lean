import SoliditySource.Position
import SoliditySource.Rune

/-! # Fragments

A fragment is a piece of source text that is cut off before anything is known of
its meaning: an operator or single symbol, a newline, a period, a run of white
space, or a word.
-/

namespace SoliditySource

/-- A piece of source text and the position of its first rune. -/
structure Fragment where
  position : Position
  text : List Char
  deriving DecidableEq, Repr

namespace Fragment

def isNewline (f : Fragment) : Bool := f.text = ['\n']

/-- A run of white space; its first rune tells. -/
def isSpace (f : Fragment) : Bool := f.text.head?.any Rune.isSpace

/-- White space of either kind, which separates tokens and is dropped. -/
def isBlank (f : Fragment) : Bool := f.isNewline || f.isSpace

def isQuote (f : Fragment) : Bool :=
  match f.text with
  | [c] => Rune.isQuote c
  | _ => false

def isBackslash (f : Fragment) : Bool := f.text = ['\\']

def next (f : Fragment) : Position := f.position.advance f.text

end Fragment

end SoliditySource
