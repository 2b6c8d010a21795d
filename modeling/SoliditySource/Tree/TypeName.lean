import SoliditySource.Token.Basic

/-! # Types and parameters -/

namespace SoliditySource

/-- An elementary type; only `address` can be followed by `payable`. -/
structure ElementaryTypeName where
  name : Token
  payable : Option Token
  deriving DecidableEq, Repr

namespace ElementaryTypeName

def tokens (t : ElementaryTypeName) : List Token := t.name :: t.payable.toList

def isAddressPayable (t : ElementaryTypeName) : Bool :=
  t.name.kind = .kwAddress && t.payable.isSome

def span (t : ElementaryTypeName) : Span :=
  ⟨t.name.position, (t.payable.getD t.name).last⟩

end ElementaryTypeName

inductive TypeName where
  | elementary (type : ElementaryTypeName)
  deriving DecidableEq, Repr

def TypeName.span : TypeName → Span
  | elementary type => type.span

/-- A parameter is a type without a name. -/
structure Parameter where
  typeName : TypeName
  deriving DecidableEq, Repr

def Parameter.span (p : Parameter) : Span := p.typeName.span

structure ParameterList where
  parameters : List Parameter
  commas : List Position
  deriving DecidableEq, Repr

def ParameterList.span (l : ParameterList) : Span := .cover (l.parameters.map Parameter.span)

end SoliditySource
