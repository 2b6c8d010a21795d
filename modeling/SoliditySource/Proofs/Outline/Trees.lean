import SoliditySource.Production
import SoliditySource.Proofs.Outline.Basic

/-! # Outlines of the trees

What each type of tree stores of tokens, field by field, and the shapes of the lists that trees
hold. The node of an outline has the span that the tree reports.
-/

namespace SoliditySource

open Outline (leaf node mark separated interleave)

/-! ## Outlines -/

def IdentifierPath.outline (p : IdentifierPath) : Outline :=
  node p.span (separated .period (fun t => [t.outline]) p.elements)

def Alias.outline (a : Alias) : Outline := node a.span [mark .kwAs a.asKeyword, a.name.outline]

def PragmaDirective.outline (d : PragmaDirective) : Outline :=
  node d.span
    (mark .kwPragma d.keyword :: (d.tokens.map Token.outline ++ [mark .semicolon d.semicolon]))

def ImportPath.outline (e : ImportPath) : Outline :=
  node e.span (e.path.outline :: (e.rename.map Alias.outline).toList)

def SymbolAlias.outline (s : SymbolAlias) : Outline :=
  node s.span (s.symbol.outline :: (s.rename.map Alias.outline).toList)

def SymbolAliases.outline (s : SymbolAliases) : Outline :=
  node s.span
    (mark .lbrace s.lbrace ::
      (interleave .comma (s.aliases.map SymbolAlias.outline) s.commas ++ [mark .rbrace s.rbrace]))

def ImportSymbols.outline (e : ImportSymbols) : Outline :=
  node e.span [e.symbols.outline, mark .kwFrom e.fromKeyword, e.path.outline]

def ImportWildcard.outline (e : ImportWildcard) : Outline :=
  node e.span
    [mark .mul e.asterisk, mark .kwAs e.asKeyword, e.name.outline, mark .kwFrom e.fromKeyword,
      e.path.outline]

def ImportElement.outline (e : ImportElement) : Outline :=
  node e.span
    [match e with
      | path element => element.outline
      | symbols element => element.outline
      | wildcard element => element.outline]

def ImportDirective.outline (d : ImportDirective) : Outline :=
  node d.span [mark .kwImport d.keyword, d.element.outline, mark .semicolon d.semicolon]

def StringLiteral.outline (l : StringLiteral) : Outline := node l.span [leaf (.literal l)]

def BooleanLiteral.outline (l : BooleanLiteral) : Outline := node l.span [l.token.outline]

def NumberLiteral.outline (l : NumberLiteral) : Outline := node l.span [l.token.outline]

def Literal.outline (l : Literal) : Outline :=
  node l.span
    [match l with
      | string literal => literal.outline
      | boolean literal => literal.outline
      | number literal => literal.outline]

def Expression.outline (e : Expression) : Outline :=
  node e.span
    [match e with
      | literal value => value.outline
      | identifier name => name.outline]

/-- A named argument has no span of its own. -/
def NamedArgument.outlines (a : NamedArgument) : List Outline :=
  [a.name.outline, mark .colon a.colon, a.value.outline]

def NamedArguments.outline (a : NamedArguments) : Outline :=
  node a.span
    (mark .lbrace a.lbrace ::
      (separated .comma NamedArgument.outlines a.arguments ++ [mark .rbrace a.rbrace]))

/-- Call arguments have no span of their own, unless they are named. -/
def CallArguments.outlines : CallArguments → List Outline
  | empty => []
  | positional arguments => separated .comma (fun e => [e.outline]) arguments
  | named arguments => [arguments.outline]

def CallArgumentList.outline (l : CallArgumentList) : Outline :=
  node l.span (mark .lparen l.lparen :: (l.arguments.outlines ++ [mark .rparen l.rparen]))

def ElementaryTypeName.outline (t : ElementaryTypeName) : Outline :=
  node t.span (t.tokens.map Token.outline)

def TypeName.outline (t : TypeName) : Outline :=
  node t.span
    [match t with
      | elementary type => type.outline]

def Parameter.outline (p : Parameter) : Outline := node p.span [p.typeName.outline]

def ParameterList.outline (l : ParameterList) : Outline :=
  node l.span (interleave .comma (l.parameters.map Parameter.outline) l.commas)

def ReturnStatement.outline (s : ReturnStatement) : Outline :=
  node s.span [mark .kwReturn s.keyword, s.expression.outline, mark .semicolon s.semicolon]

def Statement.outline (s : Statement) : Outline :=
  node s.span
    [match s with
      | returning statement => statement.outline]

def Block.outline (b : Block) : Outline :=
  node b.span
    (mark .lbrace b.lbrace :: (b.statements.map Statement.outline ++ [mark .rbrace b.rbrace]))

def FunctionReturns.outline (r : FunctionReturns) : Outline :=
  node r.span
    [mark .kwReturns r.keyword, mark .lparen r.lparen, r.parameters.outline,
      mark .rparen r.rparen]

def FunctionDefinition.outline (f : FunctionDefinition) : Outline :=
  node f.span
    (mark .kwFunction f.keyword :: f.descriptor.outline :: mark .lparen f.lparen ::
      mark .rparen f.rparen :: leaf (.modifiers f.modifiers) ::
        ((f.returns.map FunctionReturns.outline).toList ++ [f.body.outline]))

def InheritanceSpecifier.outline (s : InheritanceSpecifier) : Outline :=
  node s.span (s.path.outline :: (s.arguments.map CallArgumentList.outline).toList)

def Inheritance.outline (i : Inheritance) : Outline :=
  node i.span
    (mark .kwIs i.isKeyword ::
      interleave .comma (i.specifiers.map InheritanceSpecifier.outline) i.commas)

def ContractMember.outline (m : ContractMember) : Outline :=
  node m.span
    [match m with
      | function definition => definition.outline]

def ContractDefinition.outline (c : ContractDefinition) : Outline :=
  node c.span
    ((c.abstractKeyword.map (mark .kwAbstract)).toList ++
      mark .kwContract c.keyword :: c.name.outline ::
        ((c.inheritance.map Inheritance.outline).toList ++
          mark .lbrace c.lbrace ::
            (c.body.map ContractMember.outline ++ [mark .rbrace c.rbrace])))

/-- A source unit has no span of its own. -/
def SourceUnit.outlines (unit : SourceUnit) : List Outline :=
  (unit.pragma.map PragmaDirective.outline).toList ++
    (unit.imports.map ImportDirective.outline).toList ++
      (unit.contract.map ContractDefinition.outline).toList ++
        (unit.function.map FunctionDefinition.outline).toList

/-- What reading a production gives, in outline. -/
def Production.outlines {α : Type} : Production α → α → List Outline
  | sourceUnit, unit => unit.outlines
  | pragmaDirective, d => [d.outline]
  | importDirective, d => [d.outline]
  | importPath, e => [e.outline]
  | importSymbols, e => [e.outline]
  | importWildcard, e => [e.outline]
  | path, t => [t.outline]
  | symbolAliases, s => [s.outline]
  | symbolAlias, s => [s.outline]
  | identifier, t => [t.outline]
  | identifierPath, p => [p.outline]
  | contractDefinition, c => [c.outline]
  | inheritanceSpecifier, s => [s.outline]
  | functionDefinition, f => [f.outline]
  | visibility, t => [t.outline]
  | stateMutability, t => [t.outline]
  | typeName, t => [t.outline]
  | elementaryTypeName, t => [t.outline]
  | parameterList, l => [l.outline]
  | parameter, p => [p.outline]
  | block, b => [b.outline]
  | statement, s => [s.outline]
  | returnStatement, s => [s.outline]
  | expression, e => [e.outline]
  | literal, l => [l.outline]
  | callArgumentList, l => [l.outline]

/-! ## Shapes -/

def IdentifierPath.Shaped (p : IdentifierPath) : Prop := Separated.Joined p.elements

/-- A pragma has tokens, and the first semicolon ends it. -/
def PragmaDirective.Shaped (d : PragmaDirective) : Prop :=
  d.tokens ≠ [] ∧ ∀ t ∈ d.tokens, t.kind ≠ .semicolon

def SymbolAliases.Shaped (s : SymbolAliases) : Prop := s.commas.length + 1 = s.aliases.length

def ImportElement.Shaped : ImportElement → Prop
  | symbols element => element.symbols.Shaped
  | _ => True

def CallArguments.Shaped : CallArguments → Prop
  | empty => True
  | positional arguments => Separated.Joined arguments
  | named arguments => Separated.Joined arguments.arguments

def ParameterList.Shaped (l : ParameterList) : Prop := l.commas.length + 1 = l.parameters.length

def FunctionDefinition.Shaped (f : FunctionDefinition) : Prop :=
  ∀ r ∈ f.returns, r.parameters.Shaped

def InheritanceSpecifier.Shaped (s : InheritanceSpecifier) : Prop :=
  s.path.Shaped ∧ ∀ l ∈ s.arguments, l.arguments.Shaped

def Inheritance.Shaped (i : Inheritance) : Prop :=
  i.commas.length + 1 = i.specifiers.length ∧ ∀ s ∈ i.specifiers, s.Shaped

def ContractMember.Shaped : ContractMember → Prop
  | function definition => definition.Shaped

def ContractDefinition.Shaped (c : ContractDefinition) : Prop :=
  (∀ i ∈ c.inheritance, i.Shaped) ∧ ∀ m ∈ c.body, m.Shaped

structure SourceUnit.Shaped (unit : SourceUnit) : Prop where
  pragma : ∀ d ∈ unit.pragma, d.Shaped
  imports : ∀ d ∈ unit.imports, d.element.Shaped
  contract : ∀ c ∈ unit.contract, c.Shaped
  function : ∀ f ∈ unit.function, f.Shaped

/-- All lists in what reading a production gives have their shapes. -/
def Production.Shaped {α : Type} : Production α → α → Prop
  | sourceUnit, unit => unit.Shaped
  | pragmaDirective, d => d.Shaped
  | importDirective, d => d.element.Shaped
  | importSymbols, e => e.symbols.Shaped
  | symbolAliases, s => s.Shaped
  | identifierPath, p => p.Shaped
  | contractDefinition, c => c.Shaped
  | inheritanceSpecifier, s => s.Shaped
  | functionDefinition, f => f.Shaped
  | parameterList, l => l.Shaped
  | callArgumentList, l => l.arguments.Shaped
  | _, _ => True

end SoliditySource
