import SoliditySource.Token.Basic

/-! # Trace events

The grammar reports what it is about to read and what it has read. An event is a value;
its level, message and fields are how it is shown.
-/

namespace SoliditySource

inductive Construct where
  | pragmaDirective
  | importDirective
  | contractDefinition
  | functionDefinition
  deriving DecidableEq, Repr

def Construct.describe : Construct → String
  | pragmaDirective => "pragma directive"
  | importDirective => "import directive"
  | contractDefinition => "contract definition"
  | functionDefinition => "function definition"

/-- The places where the next token decides how to go on. -/
inductive Choice where
  | importElement
  | typeName
  | statement
  | expression
  deriving DecidableEq, Repr

def Choice.describe : Choice → String
  | importElement => "import element"
  | typeName => "type name"
  | statement => "statement"
  | expression => "expression"

inductive Event where
  | dispatch (kind : TokenKind) (position : Position)
  | parsed (construct : Construct) (span : Span)
  /-- A construct takes the place of an earlier one, which started at `position`. -/
  | replaced (construct : Construct) (position : Position)
  | choosing (choice : Choice) (kind : TokenKind)
  deriving DecidableEq, Repr

inductive Level where
  | trace
  | debug
  deriving DecidableEq, Repr

namespace Event

def level : Event → Level
  | dispatch _ _ => .trace
  | parsed _ _ => .debug
  | replaced _ _ => .debug
  | choosing _ _ => .trace

def message : Event → String
  | dispatch _ _ => "top-level dispatch"
  | parsed construct _ => "parsed " ++ construct.describe
  | replaced construct _ => "replaced earlier " ++ construct.describe
  | choosing choice _ => choice.describe

def fields : Event → List (String × String)
  | dispatch kind position => [("kind", kind.describe), ("position", position.render)]
  | parsed _ span => [("pos", span.first.render), ("end", span.last.render)]
  | replaced _ position => [("pos", position.render)]
  | choosing _ kind => [("kind", kind.describe)]

end Event

end SoliditySource
