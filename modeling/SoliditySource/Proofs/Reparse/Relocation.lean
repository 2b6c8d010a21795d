import SoliditySource.Production

/-! # Trees at other positions

The tree that is left when every position in it is replaced. Kinds and texts stay.
-/

namespace SoliditySource

variable (f : Position → Position)

/-! ## Tokens, lists and names -/

def Token.relocate (t : Token) : Token := { t with position := f t.position }

def Span.relocate (s : Span) : Span := ⟨f s.first, f s.last⟩

/-- An entry whose item is moved by `move`. -/
def Separated.relocate {α : Type} (move : α → α) (e : Separated α) : Separated α :=
  ⟨move e.item, e.separator.map f⟩

def IdentifierPath.relocate (p : IdentifierPath) : IdentifierPath :=
  ⟨p.elements.map (Separated.relocate f (Token.relocate f))⟩

def Alias.relocate (a : Alias) : Alias := ⟨f a.asKeyword, a.name.relocate f⟩

/-! ## Types -/

def ElementaryTypeName.relocate (t : ElementaryTypeName) : ElementaryTypeName :=
  ⟨t.name.relocate f, t.payable.map (Token.relocate f)⟩

def TypeName.relocate : TypeName → TypeName
  | elementary type => elementary (type.relocate f)

def Parameter.relocate (p : Parameter) : Parameter := ⟨p.typeName.relocate f⟩

def ParameterList.relocate (l : ParameterList) : ParameterList :=
  ⟨l.parameters.map (Parameter.relocate f), l.commas.map f⟩

/-! ## Expressions -/

def Literal.relocate : Literal → Literal
  | string literal => string { literal with span := literal.span.relocate f }
  | boolean literal => boolean ⟨literal.token.relocate f⟩
  | number literal => number ⟨literal.token.relocate f⟩

def Expression.relocate : Expression → Expression
  | literal value => literal (value.relocate f)
  | identifier name => identifier (name.relocate f)

def NamedArgument.relocate (a : NamedArgument) : NamedArgument :=
  ⟨a.name.relocate f, f a.colon, a.value.relocate f⟩

def NamedArguments.relocate (a : NamedArguments) : NamedArguments :=
  ⟨f a.lbrace, a.arguments.map (Separated.relocate f (NamedArgument.relocate f)), f a.rbrace⟩

def CallArguments.relocate : CallArguments → CallArguments
  | empty => empty
  | positional arguments =>
      positional (arguments.map (Separated.relocate f (Expression.relocate f)))
  | named arguments => named (arguments.relocate f)

def CallArgumentList.relocate (l : CallArgumentList) : CallArgumentList :=
  ⟨f l.lparen, l.arguments.relocate f, f l.rparen⟩

/-! ## Functions -/

def ReturnStatement.relocate (s : ReturnStatement) : ReturnStatement :=
  ⟨f s.keyword, s.expression.relocate f, f s.semicolon⟩

def Statement.relocate : Statement → Statement
  | returning statement => returning (statement.relocate f)

def Block.relocate (b : Block) : Block :=
  ⟨f b.lbrace, b.statements.map (Statement.relocate f), f b.rbrace⟩

def FunctionReturns.relocate (r : FunctionReturns) : FunctionReturns :=
  ⟨f r.keyword, f r.lparen, r.parameters.relocate f, f r.rparen⟩

def Modifiers.relocate (m : Modifiers) : Modifiers :=
  ⟨m.visibility.map (Token.relocate f), m.stateMutability.map (Token.relocate f)⟩

def FunctionDefinition.relocate (d : FunctionDefinition) : FunctionDefinition :=
  ⟨f d.keyword, d.descriptor.relocate f, f d.lparen, f d.rparen, d.modifiers.relocate f,
    d.returns.map (FunctionReturns.relocate f), d.body.relocate f⟩

/-! ## Directives -/

def PragmaDirective.relocate (d : PragmaDirective) : PragmaDirective :=
  ⟨f d.keyword, d.tokens.map (Token.relocate f), f d.semicolon⟩

def ImportPath.relocate (e : ImportPath) : ImportPath :=
  ⟨e.path.relocate f, e.rename.map (Alias.relocate f)⟩

def SymbolAlias.relocate (s : SymbolAlias) : SymbolAlias :=
  ⟨s.symbol.relocate f, s.rename.map (Alias.relocate f)⟩

def SymbolAliases.relocate (s : SymbolAliases) : SymbolAliases :=
  ⟨f s.lbrace, s.aliases.map (SymbolAlias.relocate f), s.commas.map f, f s.rbrace⟩

def ImportSymbols.relocate (e : ImportSymbols) : ImportSymbols :=
  ⟨e.symbols.relocate f, f e.fromKeyword, e.path.relocate f⟩

def ImportWildcard.relocate (e : ImportWildcard) : ImportWildcard :=
  ⟨f e.asterisk, f e.asKeyword, e.name.relocate f, f e.fromKeyword, e.path.relocate f⟩

def ImportElement.relocate : ImportElement → ImportElement
  | path element => path (element.relocate f)
  | symbols element => symbols (element.relocate f)
  | wildcard element => wildcard (element.relocate f)

def ImportDirective.relocate (d : ImportDirective) : ImportDirective :=
  ⟨f d.keyword, d.element.relocate f, f d.semicolon⟩

/-! ## Contracts -/

def InheritanceSpecifier.relocate (s : InheritanceSpecifier) : InheritanceSpecifier :=
  ⟨s.path.relocate f, s.arguments.map (CallArgumentList.relocate f)⟩

def Inheritance.relocate (i : Inheritance) : Inheritance :=
  ⟨f i.isKeyword, i.specifiers.map (InheritanceSpecifier.relocate f), i.commas.map f⟩

def ContractMember.relocate : ContractMember → ContractMember
  | function definition => function (definition.relocate f)

def ContractDefinition.relocate (c : ContractDefinition) : ContractDefinition :=
  ⟨c.abstractKeyword.map f, f c.keyword, c.name.relocate f,
    c.inheritance.map (Inheritance.relocate f), f c.lbrace,
    c.body.map (ContractMember.relocate f), f c.rbrace⟩

end SoliditySource
