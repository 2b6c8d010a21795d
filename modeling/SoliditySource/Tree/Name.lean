import SoliditySource.Token.Basic

/-! # Names

Identifiers are tokens. A path joins identifiers by periods; an alias gives a new name
to what stands before it.
-/

namespace SoliditySource

/-- An entry of a list and the separator right after it, if there is one. -/
structure Separated (α : Type) where
  item : α
  separator : Option Position
  deriving DecidableEq, Repr

def Separated.items {α : Type} (entries : List (Separated α)) : List α := entries.map item

def Separated.separators {α : Type} (entries : List (Separated α)) : List Position :=
  entries.filterMap separator

structure IdentifierPath where
  elements : List (Separated Token)
  deriving DecidableEq, Repr

def IdentifierPath.span (p : IdentifierPath) : Span :=
  .cover (p.elements.map fun e => e.item.span)

/-- The `as name` after an import path, an asterisk or a symbol. -/
structure Alias where
  asKeyword : Position
  name : Token
  deriving DecidableEq, Repr

def Alias.span (a : Alias) : Span := ⟨a.asKeyword, a.name.last⟩

end SoliditySource
