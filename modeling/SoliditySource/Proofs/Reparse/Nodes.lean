import SoliditySource.Proofs.Reparse.Relocation

/-! # The nodes of a source unit

The sorts of nodes that can be read on their own, with the production that reads them, and
the nodes that a source unit contains at any depth.
-/

namespace SoliditySource

/-- A sort of node that has a production of its own. -/
inductive NodeSort : Type → Type where
  | pragmaDirective : NodeSort PragmaDirective
  | importDirective : NodeSort ImportDirective
  | importPath : NodeSort ImportPath
  | importSymbols : NodeSort ImportSymbols
  | importWildcard : NodeSort ImportWildcard
  | symbolAliases : NodeSort SymbolAliases
  | symbolAlias : NodeSort SymbolAlias
  | identifierPath : NodeSort IdentifierPath
  | contractDefinition : NodeSort ContractDefinition
  | inheritanceSpecifier : NodeSort InheritanceSpecifier
  | functionDefinition : NodeSort FunctionDefinition
  | typeName : NodeSort TypeName
  | elementaryTypeName : NodeSort ElementaryTypeName
  | parameterList : NodeSort ParameterList
  | parameter : NodeSort Parameter
  | block : NodeSort Block
  | statement : NodeSort Statement
  | returnStatement : NodeSort ReturnStatement
  | expression : NodeSort Expression
  | literal : NodeSort Literal
  | callArgumentList : NodeSort CallArgumentList

/-- A node, with its sort. -/
structure Node where
  {type : Type}
  sort : NodeSort type
  tree : type

namespace NodeSort

def production {α : Type} : NodeSort α → Production α
  | pragmaDirective => .pragmaDirective
  | importDirective => .importDirective
  | importPath => .importPath
  | importSymbols => .importSymbols
  | importWildcard => .importWildcard
  | symbolAliases => .symbolAliases
  | symbolAlias => .symbolAlias
  | identifierPath => .identifierPath
  | contractDefinition => .contractDefinition
  | inheritanceSpecifier => .inheritanceSpecifier
  | functionDefinition => .functionDefinition
  | typeName => .typeName
  | elementaryTypeName => .elementaryTypeName
  | parameterList => .parameterList
  | parameter => .parameter
  | block => .block
  | statement => .statement
  | returnStatement => .returnStatement
  | expression => .expression
  | literal => .literal
  | callArgumentList => .callArgumentList

def span {α : Type} : NodeSort α → α → Span
  | pragmaDirective => PragmaDirective.span
  | importDirective => ImportDirective.span
  | importPath => ImportPath.span
  | importSymbols => ImportSymbols.span
  | importWildcard => ImportWildcard.span
  | symbolAliases => SymbolAliases.span
  | symbolAlias => SymbolAlias.span
  | identifierPath => IdentifierPath.span
  | contractDefinition => ContractDefinition.span
  | inheritanceSpecifier => InheritanceSpecifier.span
  | functionDefinition => FunctionDefinition.span
  | typeName => TypeName.span
  | elementaryTypeName => ElementaryTypeName.span
  | parameterList => ParameterList.span
  | parameter => Parameter.span
  | block => Block.span
  | statement => Statement.span
  | returnStatement => ReturnStatement.span
  | expression => Expression.span
  | literal => Literal.span
  | callArgumentList => CallArgumentList.span

/-- The node with every position replaced. -/
def relocate {α : Type} : NodeSort α → (Position → Position) → α → α
  | pragmaDirective => PragmaDirective.relocate
  | importDirective => ImportDirective.relocate
  | importPath => ImportPath.relocate
  | importSymbols => ImportSymbols.relocate
  | importWildcard => ImportWildcard.relocate
  | symbolAliases => SymbolAliases.relocate
  | symbolAlias => SymbolAlias.relocate
  | identifierPath => IdentifierPath.relocate
  | contractDefinition => ContractDefinition.relocate
  | inheritanceSpecifier => InheritanceSpecifier.relocate
  | functionDefinition => FunctionDefinition.relocate
  | typeName => TypeName.relocate
  | elementaryTypeName => ElementaryTypeName.relocate
  | parameterList => ParameterList.relocate
  | parameter => Parameter.relocate
  | block => Block.relocate
  | statement => Statement.relocate
  | returnStatement => ReturnStatement.relocate
  | expression => Expression.relocate
  | literal => Literal.relocate
  | callArgumentList => CallArgumentList.relocate

end NodeSort

/-! ## Nodes right below a tree -/

def Expression.children : Expression → List Node
  | literal value => [⟨.literal, value⟩]
  | identifier _ => []

def CallArguments.children : CallArguments → List Node
  | empty => []
  | positional arguments => arguments.map fun e => ⟨.expression, e.item⟩
  | named arguments => arguments.arguments.map fun e => ⟨.expression, e.item.value⟩

def FunctionDefinition.children (d : FunctionDefinition) : List Node :=
  (d.returns.map fun r => Node.mk .parameterList r.parameters).toList ++ [⟨.block, d.body⟩]

def ImportElement.children : ImportElement → List Node
  | path element => [⟨.importPath, element⟩]
  | symbols element => [⟨.importSymbols, element⟩]
  | wildcard element => [⟨.importWildcard, element⟩]

def InheritanceSpecifier.children (s : InheritanceSpecifier) : List Node :=
  ⟨.identifierPath, s.path⟩ :: (s.arguments.map (Node.mk .callArgumentList)).toList

def ContractMember.node : ContractMember → Node
  | function definition => ⟨.functionDefinition, definition⟩

def ContractDefinition.children (c : ContractDefinition) : List Node :=
  ((c.inheritance.map Inheritance.specifiers).getD []).map (Node.mk .inheritanceSpecifier) ++
    c.body.map ContractMember.node

/-- The nodes that come next below a node. -/
def NodeSort.children {α : Type} : NodeSort α → α → List Node
  | pragmaDirective, _ => []
  | importDirective, d => d.element.children
  | importPath, _ => []
  | importSymbols, e => [⟨.symbolAliases, e.symbols⟩]
  | importWildcard, _ => []
  | symbolAliases, s => s.aliases.map (Node.mk .symbolAlias)
  | symbolAlias, _ => []
  | identifierPath, _ => []
  | contractDefinition, c => c.children
  | inheritanceSpecifier, s => s.children
  | functionDefinition, d => d.children
  | typeName, .elementary type => [⟨.elementaryTypeName, type⟩]
  | elementaryTypeName, _ => []
  | parameterList, l => l.parameters.map (Node.mk .parameter)
  | parameter, p => [⟨.typeName, p.typeName⟩]
  | block, b => b.statements.map (Node.mk .statement)
  | statement, .returning s => [⟨.returnStatement, s⟩]
  | returnStatement, s => [⟨.expression, s.expression⟩]
  | expression, e => e.children
  | literal, _ => []
  | callArgumentList, l => l.arguments.children

def SourceUnit.children (unit : SourceUnit) : List Node :=
  (unit.pragma.map (Node.mk .pragmaDirective)).toList ++
    (unit.imports.map (Node.mk .importDirective)).toList ++
    (unit.contract.map (Node.mk .contractDefinition)).toList ++
    (unit.function.map (Node.mk .functionDefinition)).toList

/-- The unit contains the node, at some depth. -/
inductive SourceUnit.Contains (unit : SourceUnit) : Node → Prop where
  | top {node : Node} (h : node ∈ unit.children) : Contains unit node
  | deeper {parent node : Node} (hp : Contains unit parent)
      (h : node ∈ parent.sort.children parent.tree) : Contains unit node

end SoliditySource
