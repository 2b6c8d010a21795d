import SoliditySource.Tree.Directive
import SoliditySource.Tree.Function

/-! # Contracts and source units -/

namespace SoliditySource

/-- A base contract, with the arguments of its constructor if they are given. -/
structure InheritanceSpecifier where
  path : IdentifierPath
  arguments : Option CallArgumentList
  deriving DecidableEq, Repr

def InheritanceSpecifier.span (s : InheritanceSpecifier) : Span :=
  ⟨s.path.span.first, (s.arguments.map fun a => a.span.last).getD s.path.span.last⟩

structure Inheritance where
  isKeyword : Position
  specifiers : List InheritanceSpecifier
  commas : List Position
  deriving DecidableEq, Repr

/-- Without specifiers the span is that of the keyword's first rune. -/
def Inheritance.span (i : Inheritance) : Span :=
  ⟨i.isKeyword, (i.specifiers.getLast?.map fun s => s.span.last).getD i.isKeyword⟩

inductive ContractMember where
  | function (definition : FunctionDefinition)
  deriving DecidableEq, Repr

def ContractMember.span : ContractMember → Span
  | function definition => definition.span

structure ContractDefinition where
  abstractKeyword : Option Position
  keyword : Position
  name : Token
  inheritance : Option Inheritance
  lbrace : Position
  body : List ContractMember
  rbrace : Position
  deriving DecidableEq, Repr

def ContractDefinition.span (c : ContractDefinition) : Span :=
  ⟨c.abstractKeyword.getD c.keyword, c.rbrace⟩

/-- What a source holds: the last construct of each sort. -/
structure SourceUnit where
  pragma : Option PragmaDirective
  imports : Option ImportDirective
  contract : Option ContractDefinition
  function : Option FunctionDefinition
  deriving DecidableEq, Repr

def SourceUnit.empty : SourceUnit := ⟨none, none, none, none⟩

end SoliditySource
