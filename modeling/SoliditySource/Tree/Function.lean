import SoliditySource.Tree.Expression
import SoliditySource.Tree.TypeName

/-! # Functions and their bodies -/

namespace SoliditySource

structure ReturnStatement where
  keyword : Position
  expression : Expression
  semicolon : Position
  deriving DecidableEq, Repr

def ReturnStatement.span (s : ReturnStatement) : Span := ⟨s.keyword, s.semicolon⟩

inductive Statement where
  | returning (statement : ReturnStatement)
  deriving DecidableEq, Repr

def Statement.span : Statement → Span
  | returning statement => statement.span

structure Block where
  lbrace : Position
  statements : List Statement
  rbrace : Position
  deriving DecidableEq, Repr

def Block.span (b : Block) : Span := ⟨b.lbrace, b.rbrace⟩

structure FunctionReturns where
  keyword : Position
  lparen : Position
  parameters : ParameterList
  rparen : Position
  deriving DecidableEq, Repr

def FunctionReturns.span (r : FunctionReturns) : Span := ⟨r.keyword, r.rparen⟩

/-- The modifiers of a function that count: the last one of each sort. -/
structure Modifiers where
  visibility : Option Token
  stateMutability : Option Token
  deriving DecidableEq, Repr

structure FunctionDefinition where
  keyword : Position
  descriptor : Token
  lparen : Position
  rparen : Position
  modifiers : Modifiers
  returns : Option FunctionReturns
  body : Block
  deriving DecidableEq, Repr

def FunctionDefinition.span (f : FunctionDefinition) : Span := ⟨f.keyword, f.body.span.last⟩

end SoliditySource
