import SoliditySource.Tree.Name

/-! # Expressions and call arguments -/

namespace SoliditySource

/-- Quoted text with both quotes and the leading word, if it has one. -/
structure StringLiteral where
  kind : TokenKind
  span : Span
  value : List Char
  deriving DecidableEq, Repr

structure BooleanLiteral where
  token : Token
  deriving DecidableEq, Repr

def BooleanLiteral.value (l : BooleanLiteral) : Bool := l.token.kind = .kwTrue

structure NumberLiteral where
  token : Token
  deriving DecidableEq, Repr

inductive Literal where
  | string (literal : StringLiteral)
  | boolean (literal : BooleanLiteral)
  | number (literal : NumberLiteral)
  deriving DecidableEq, Repr

def BooleanLiteral.span (l : BooleanLiteral) : Span := l.token.span

def NumberLiteral.span (l : NumberLiteral) : Span := l.token.span

def Literal.span : Literal → Span
  | string literal => literal.span
  | boolean literal => literal.span
  | number literal => literal.span

inductive Expression where
  | literal (value : Literal)
  | identifier (name : Token)
  deriving DecidableEq, Repr

def Expression.span : Expression → Span
  | literal value => value.span
  | identifier name => name.span

structure NamedArgument where
  name : Token
  colon : Position
  value : Expression
  deriving DecidableEq, Repr

structure NamedArguments where
  lbrace : Position
  arguments : List (Separated NamedArgument)
  rbrace : Position
  deriving DecidableEq, Repr

def NamedArguments.span (a : NamedArguments) : Span := ⟨a.lbrace, a.rbrace⟩

inductive CallArguments where
  | empty
  | positional (arguments : List (Separated Expression))
  | named (arguments : NamedArguments)
  deriving DecidableEq, Repr

structure CallArgumentList where
  lparen : Position
  arguments : CallArguments
  rparen : Position
  deriving DecidableEq, Repr

def CallArgumentList.span (l : CallArgumentList) : Span := ⟨l.lparen, l.rparen⟩

end SoliditySource
