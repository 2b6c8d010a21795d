import SoliditySource.Grammar.Contract
import SoliditySource.Rule.Run

/-! # Productions

The constructs that can be read from a source on their own, and the reading of them. The
limit on repetitions is set here: one more than the number of tokens that can still come.
-/

namespace SoliditySource

/-- A construct that can be read on its own, indexed by what reading it gives. -/
inductive Production : Type → Type where
  | sourceUnit : Production SourceUnit
  | pragmaDirective : Production PragmaDirective
  | importDirective : Production ImportDirective
  | importPath : Production ImportPath
  | importSymbols : Production ImportSymbols
  | importWildcard : Production ImportWildcard
  | path : Production Token
  | symbolAliases : Production SymbolAliases
  | symbolAlias : Production SymbolAlias
  | identifier : Production Token
  | identifierPath : Production IdentifierPath
  | contractDefinition : Production ContractDefinition
  | inheritanceSpecifier : Production InheritanceSpecifier
  | functionDefinition : Production FunctionDefinition
  | visibility : Production Token
  | stateMutability : Production Token
  | typeName : Production TypeName
  | elementaryTypeName : Production ElementaryTypeName
  | parameterList : Production ParameterList
  | parameter : Production Parameter
  | block : Production Block
  | statement : Production Statement
  | returnStatement : Production ReturnStatement
  | expression : Production Expression
  | literal : Production Literal
  | callArgumentList : Production CallArgumentList

def Production.rule {α : Type} : Production α → (limit : Nat) → Rule α
  | sourceUnit, limit => Grammar.sourceUnit limit
  | pragmaDirective, limit => Grammar.pragmaDirective limit
  | importDirective, limit => Grammar.importDirective limit
  | importPath, _ => Grammar.importPath
  | importSymbols, limit => Grammar.importSymbols limit
  | importWildcard, _ => Grammar.importWildcard
  | path, _ => Grammar.path
  | symbolAliases, limit => Grammar.symbolAliases limit
  | symbolAlias, _ => Grammar.symbolAlias
  | identifier, _ => Grammar.identifier
  | identifierPath, limit => Grammar.identifierPath limit
  | contractDefinition, limit => Grammar.contractDefinition limit
  | inheritanceSpecifier, limit => Grammar.inheritanceSpecifier limit
  | functionDefinition, limit => Grammar.functionDefinition limit
  | visibility, _ => Grammar.visibility
  | stateMutability, _ => Grammar.stateMutability
  | typeName, _ => Grammar.typeName
  | elementaryTypeName, _ => Grammar.elementaryTypeName
  | parameterList, limit => Grammar.parameterList limit
  | parameter, _ => Grammar.parameter
  | block, _ => Grammar.block
  | statement, _ => Grammar.statement
  | returnStatement, _ => Grammar.returnStatement
  | expression, _ => Grammar.expression
  | literal, _ => Grammar.literal
  | callArgumentList, limit => Grammar.callArgumentList limit

/-- Reads a construct from where the reader stands. Any other limit above the weight of the
reader gives the same (`TokenReader.parse_eq_run`). -/
def TokenReader.parse {α : Type} (r : TokenReader) (production : Production α) : Outcome α :=
  (production.rule (r.weight + 1)).run r

def SourceUnit.parse (text : String) : Except SourceError SourceUnit :=
  ((TokenReader.ofFeed (.ofText text.toList)).parse .sourceUnit).result

end SoliditySource
