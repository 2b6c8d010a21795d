import SoliditySource.Production
import SoliditySource.Proofs.Phrase.Lists

/-! # The phrases of the grammar

For each construct the phrases that make it up, with their trees. Where the next token
has to tell two forms apart, what they have in common comes first.
-/

namespace SoliditySource

/-- One of the constructs that a source unit is made of. -/
inductive TopLevel where
  | pragma (directive : PragmaDirective)
  | imports (directive : ImportDirective)
  | contract (definition : ContractDefinition)
  | function (definition : FunctionDefinition)
  deriving DecidableEq, Repr

namespace TopLevel

def pragma? : TopLevel → Option PragmaDirective
  | pragma d => some d
  | _ => none

def imports? : TopLevel → Option ImportDirective
  | imports d => some d
  | _ => none

def contract? : TopLevel → Option ContractDefinition
  | contract c => some c
  | _ => none

def function? : TopLevel → Option FunctionDefinition
  | function f => some f
  | _ => none

/-- A construct takes the place of an earlier one of its sort. -/
def store (unit : SourceUnit) : TopLevel → SourceUnit
  | pragma d => { unit with pragma := some d }
  | imports d => { unit with imports := some d }
  | contract c => { unit with contract := some c }
  | function f => { unit with function := some f }

end TopLevel

namespace Phrase

/-! ## Names -/

def identifier : Phrase Token := token TokenKind.isIdentifierLike

def identifierPath : Phrase IdentifierPath := IdentifierPath.mk <$> separated .period identifier

def rename : Phrase (Option Alias) := optional (Alias.mk <$> mark .kwAs <*> identifier)

/-! ## Types -/

def elementaryTypeName : Phrase ElementaryTypeName :=
  either
    (ElementaryTypeName.mk <$> token (· = .kwAddress) <*> optional (token (· = .kwPayable)))
    ((fun t => ⟨t, none⟩) <$> token fun k => k.isElementaryType && k ≠ .kwAddress)

def typeName : Phrase TypeName := TypeName.elementary <$> elementaryTypeName

def parameter : Phrase Parameter := Parameter.mk <$> typeName

def parameterList : Phrase ParameterList :=
  (fun l => ⟨Separated.items l, Separated.separators l⟩) <$> separated .comma parameter

/-! ## Expressions -/

def stringLiteral : Phrase Literal :=
  (fun t => .string ⟨t.kind, t.span, t.text⟩) <$> token TokenKind.isStringLiteral

def booleanLiteral : Phrase Literal :=
  (fun t => .boolean ⟨t⟩) <$> token fun k => k = .kwTrue || k = .kwFalse

def numberLiteral : Phrase Literal := (fun t => .number ⟨t⟩) <$> token (· = .number)

def literal : Phrase Literal := either stringLiteral (either booleanLiteral numberLiteral)

def expression : Phrase Expression :=
  either (Expression.literal <$> literal) (Expression.identifier <$> identifier)

def namedArgument : Phrase NamedArgument :=
  NamedArgument.mk <$> identifier <*> mark .colon <*> expression

def namedArguments : Phrase NamedArguments :=
  NamedArguments.mk <$> mark .lbrace <*> separated .comma namedArgument <*> mark .rbrace

/-- Arguments, at least one. -/
def callArguments : Phrase CallArguments :=
  either (CallArguments.named <$> namedArguments)
    (CallArguments.positional <$> separated .comma expression)

/-- Arguments and the parenthesis behind them. -/
def closedArguments : Phrase (CallArguments × Position) :=
  either (Prod.mk .empty <$> mark .rparen) (Prod.mk <$> callArguments <*> mark .rparen)

def callArgumentList : Phrase CallArgumentList :=
  (fun lparen closed => ⟨lparen, closed.1, closed.2⟩) <$> mark .lparen <*> closedArguments

/-! ## Functions -/

def returnStatement : Phrase ReturnStatement :=
  ReturnStatement.mk <$> mark .kwReturn <*> expression <*> mark .semicolon

def statement : Phrase Statement := Statement.returning <$> returnStatement

def block : Phrase Block :=
  (fun lbrace s rbrace => ⟨lbrace, [s], rbrace⟩) <$>
    mark .lbrace <*> statement <*> mark .rbrace

def visibility : Phrase Token := token TokenKind.isVisibility

def stateMutability : Phrase Token := token TokenKind.isStateMutability

/-- A modifier takes the place of an earlier one of its sort. -/
def modifier : Phrase (Modifiers → Modifiers) :=
  either ((fun t m => { m with visibility := some t }) <$> visibility)
    ((fun t m => { m with stateMutability := some t }) <$> stateMutability)

/-- Modifiers that come after those in `seen`. -/
def modifiersAfter (seen : Modifiers) : Phrase Modifiers :=
  (fun changes => changes.foldl (fun m change => change m) seen) <$> many modifier

def functionDescriptor : Phrase Token :=
  token fun k => k.isIdentifierLike || k = .kwFallback || k = .kwReceive

def functionReturns : Phrase FunctionReturns :=
  FunctionReturns.mk <$> mark .kwReturns <*> mark .lparen <*> parameterList <*> mark .rparen

def functionDefinition : Phrase FunctionDefinition :=
  FunctionDefinition.mk <$> mark .kwFunction <*> functionDescriptor <*> mark .lparen <*>
    mark .rparen <*> modifiersAfter ⟨none, none⟩ <*> optional functionReturns <*> block

/-! ## Directives -/

/-- A token that a pragma keeps. -/
def pragmaToken : Phrase Token := token fun k => k ≠ .semicolon && k ≠ .eos

/-- The tokens of a pragma, at least one, and the semicolon behind them. -/
def pragmaTokens : Phrase (List Token × Token) :=
  (fun first rest => (first :: rest.1, rest.2)) <$> pragmaToken <*> upTo .semicolon pragmaToken

def pragmaDirective : Phrase PragmaDirective :=
  (fun keyword tokens => ⟨keyword, tokens.1, tokens.2.position⟩) <$>
    mark .kwPragma <*> pragmaTokens

def path : Phrase Token := token (· = .nonEmptyString)

def importPath : Phrase ImportPath := ImportPath.mk <$> path <*> rename

def symbolAlias : Phrase SymbolAlias := SymbolAlias.mk <$> identifier <*> rename

def symbolAliases : Phrase SymbolAliases :=
  (fun lbrace l rbrace => ⟨lbrace, Separated.items l, Separated.separators l, rbrace⟩) <$>
    mark .lbrace <*> separated .comma symbolAlias <*> mark .rbrace

def importSymbols : Phrase ImportSymbols :=
  ImportSymbols.mk <$> symbolAliases <*> mark .kwFrom <*> path

def importWildcard : Phrase ImportWildcard :=
  ImportWildcard.mk <$> mark .mul <*> mark .kwAs <*> identifier <*> mark .kwFrom <*> path

def importElement : Phrase ImportElement :=
  either (ImportElement.path <$> importPath)
    (either (ImportElement.symbols <$> importSymbols) (ImportElement.wildcard <$> importWildcard))

def importDirective : Phrase ImportDirective :=
  ImportDirective.mk <$> mark .kwImport <*> importElement <*> mark .semicolon

/-! ## Contracts and source units -/

def inheritanceSpecifier : Phrase InheritanceSpecifier :=
  InheritanceSpecifier.mk <$> identifierPath <*> optional callArgumentList

def inheritance : Phrase Inheritance :=
  (fun keyword l => ⟨keyword, Separated.items l, Separated.separators l⟩) <$>
    mark .kwIs <*> separated .comma inheritanceSpecifier

def contractMember : Phrase ContractMember := ContractMember.function <$> functionDefinition

def contractDefinition : Phrase ContractDefinition :=
  (fun abstractKeyword keyword name inheritance lbrace body =>
    ⟨abstractKeyword.map Token.position, keyword, name, inheritance, lbrace, body.1,
      body.2.position⟩) <$>
    optional (token (· = .kwAbstract)) <*> mark .kwContract <*> identifier <*>
    optional inheritance <*> mark .lbrace <*> upTo .rbrace contractMember

def topLevel : Phrase TopLevel :=
  either (TopLevel.pragma <$> pragmaDirective)
    (either (TopLevel.imports <$> importDirective)
      (either (TopLevel.contract <$> contractDefinition)
        (TopLevel.function <$> functionDefinition)))

/-- Constructs that come after those in `unit`. -/
def constructsAfter (unit : SourceUnit) : Phrase SourceUnit :=
  (fun items => items.foldl TopLevel.store unit) <$> many topLevel

def sourceUnit : Phrase SourceUnit := constructsAfter .empty

end Phrase

/-- The phrases of a production. -/
def Production.phrase {α : Type} : Production α → Phrase α
  | sourceUnit => .sourceUnit
  | pragmaDirective => .pragmaDirective
  | importDirective => .importDirective
  | importPath => .importPath
  | importSymbols => .importSymbols
  | importWildcard => .importWildcard
  | path => .path
  | symbolAliases => .symbolAliases
  | symbolAlias => .symbolAlias
  | identifier => .identifier
  | identifierPath => .identifierPath
  | contractDefinition => .contractDefinition
  | inheritanceSpecifier => .inheritanceSpecifier
  | functionDefinition => .functionDefinition
  | visibility => .visibility
  | stateMutability => .stateMutability
  | typeName => .typeName
  | elementaryTypeName => .elementaryTypeName
  | parameterList => .parameterList
  | parameter => .parameter
  | block => .block
  | statement => .statement
  | returnStatement => .returnStatement
  | expression => .expression
  | literal => .literal
  | callArgumentList => .callArgumentList

end SoliditySource
