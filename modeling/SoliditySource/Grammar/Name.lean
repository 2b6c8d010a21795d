import SoliditySource.Rule.Basic

/-! # Rules for names -/

namespace SoliditySource.Grammar

open Rule

def identifier : Rule Token := takeIf TokenKind.isIdentifierLike .reservedName

def identifierPath (limit : Nat) : Rule IdentifierPath := do
  let elements ← separatedBy .period identifier limit
  pure ⟨elements⟩

/-- `[ "as" identifier ]` -/
def rename : Rule (Option Alias) := do
  match ← accept? .kwAs with
  | none => pure none
  | some keyword => do
      let name ← identifier
      pure (some ⟨keyword.position, name⟩)

end SoliditySource.Grammar
