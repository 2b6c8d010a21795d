import SoliditySource.Rule.Basic
import SoliditySource.Tree.TypeName

/-! # Rules for types and parameters -/

namespace SoliditySource.Grammar

open Rule

/-- An elementary type; `address` may be followed by `payable`. -/
def elementaryTypeName : Rule ElementaryTypeName := do
  let name ← takeIf TokenKind.isElementaryType (.missing .elementaryType)
  if name.kind = .kwAddress then do
    let payable ← accept? .kwPayable
    pure ⟨name, payable⟩
  else pure ⟨name, none⟩

/-- A type; only elementary types have rules. -/
def typeName : Rule TypeName := do
  let t ← choose .typeName
  if t.kind.isElementaryType then .elementary <$> elementaryTypeName
  else refuseAt t (.missing .typeName)

def parameter : Rule Parameter := Parameter.mk <$> typeName

def parameterList (limit : Nat) : Rule ParameterList := do
  let entries ← separatedBy .comma parameter limit
  pure ⟨Separated.items entries, Separated.separators entries⟩

end SoliditySource.Grammar
