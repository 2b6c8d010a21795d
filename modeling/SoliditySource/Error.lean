import SoliditySource.Position
import SoliditySource.Source.Feed

/-! # What can be wrong with a source

A source is refused at a position, for a cause, or it cannot be read. The causes
are values; their wording stands in `Cause.message` alone.
-/

namespace SoliditySource

/-- What a rule of the grammar looked for in vain. -/
inductive Missing where
  | pragmaKeyword | pragmaTokens | importKeyword | importElement | asterisk | asKeyword
  | fromKeyword | path | lbrace | rbrace | directiveEnd | contractKeyword | isKeyword
  | bodyStart | bodyEnd | functionKeyword | lparen | rparen | visibility | stateMutability
  | returnsKeyword | typeName | elementaryType | statement | returnKeyword | statementEnd
  | expression | colon
  deriving DecidableEq, Repr

def Missing.describe : Missing → String
  | pragmaKeyword => "pragma keyword"
  | pragmaTokens => "pragma tokens"
  | importKeyword => "import keyword"
  | importElement => "import path, symbol aliases or asterisk"
  | asterisk => "asterisk"
  | asKeyword => "as keyword"
  | fromKeyword => "from keyword"
  | path => "non-empty-string-literal"
  | lbrace => "LBrace"
  | rbrace => "RBrace"
  | directiveEnd => "Semicolon"
  | contractKeyword => "contract keyword"
  | isKeyword => "is keyword"
  | bodyStart => "left brace"
  | bodyEnd => "right brace"
  | functionKeyword => "function keyword"
  | lparen => "LParen"
  | rparen => "RParen"
  | visibility => "visibility keyword"
  | stateMutability => "state-mutability keyword"
  | returnsKeyword => "returns keyword"
  | typeName => "type-name"
  | elementaryType => "elementary type name keyword"
  | statement => "statement"
  | returnKeyword => "return keyword"
  | statementEnd => "semicolon"
  | expression => "expression"
  | colon => "Colon"

inductive Cause where
  | strayBackslash
  | unclosedQuote
  /-- Blanks between a literal's leading word and its quote. -/
  | detachedQuote (word : List Char)
  | malformedHex
  | noOpeningQuote
  | invalidToken
  | reservedName
  | noLiteral
  | missing (part : Missing)
  deriving DecidableEq, Repr

def Cause.message : Cause → String
  | strayBackslash => "unexpected backslash."
  | unclosedQuote => "not found quote"
  | detachedQuote word => "not found quote right after " ++ String.ofList word ++ "."
  | malformedHex => "invalid HexString format"
  | noOpeningQuote => "not found \" or '"
  | invalidToken => "invalid token."
  | reservedName => "keyword is not available as identifier."
  | noLiteral => "not found string literal quote"
  | missing part => "not found " ++ part.describe ++ "."

structure Fault where
  position : Position
  cause : Cause
  deriving DecidableEq, Repr

def Fault.message (f : Fault) : String := f.position.annotate f.cause.message

/-- What ends the reading of a source early. -/
inductive SourceError where
  | refused (fault : Fault)
  | unreadable (failure : ReadFailure)
  deriving DecidableEq, Repr

end SoliditySource
