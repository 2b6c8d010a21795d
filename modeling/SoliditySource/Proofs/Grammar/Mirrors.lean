import SoliditySource.Production
import SoliditySource.Proofs.Rule.Mirrors

/-! # The grammar at other positions

Every rule of the grammar mirrors itself along every change of positions: it looks at kinds
and texts alone, and the trees it comes to differ in the positions they store.
-/

namespace SoliditySource

variable (f : Position → Position)

/-- The source unit with every position replaced. -/
def SourceUnit.relocate (u : SourceUnit) : SourceUnit :=
  ⟨u.pragma.map (PragmaDirective.relocate f), u.imports.map (ImportDirective.relocate f),
    u.contract.map (ContractDefinition.relocate f), u.function.map (FunctionDefinition.relocate f)⟩

/-- What a production reads, with every position replaced. -/
def Production.relocate {α : Type} : Production α → (Position → Position) → α → α
  | sourceUnit => SourceUnit.relocate
  | pragmaDirective => PragmaDirective.relocate
  | importDirective => ImportDirective.relocate
  | importPath => ImportPath.relocate
  | importSymbols => ImportSymbols.relocate
  | importWildcard => ImportWildcard.relocate
  | path => Token.relocate
  | symbolAliases => SymbolAliases.relocate
  | symbolAlias => SymbolAlias.relocate
  | identifier => Token.relocate
  | identifierPath => IdentifierPath.relocate
  | contractDefinition => ContractDefinition.relocate
  | inheritanceSpecifier => InheritanceSpecifier.relocate
  | functionDefinition => FunctionDefinition.relocate
  | visibility => Token.relocate
  | stateMutability => Token.relocate
  | typeName => TypeName.relocate
  | elementaryTypeName => ElementaryTypeName.relocate
  | parameterList => ParameterList.relocate
  | parameter => Parameter.relocate
  | block => Block.relocate
  | statement => Statement.relocate
  | returnStatement => ReturnStatement.relocate
  | expression => Expression.relocate
  | literal => Literal.relocate
  | callArgumentList => CallArgumentList.relocate

namespace Grammar

open Rule

variable {f}

/-! ## Names and types -/

theorem mirrors_identifier : Mirrors f (Becomes (Token.relocate f)) identifier identifier :=
  mirrors_takeIf _ _

theorem mirrors_identifierPath (limit : Nat) :
    Mirrors f (Becomes (IdentifierPath.relocate f)) (identifierPath limit)
      (identifierPath limit) :=
  (mirrors_identifier.separatedBy _ limit).chain fun _ => mirrors_pure rfl

theorem mirrors_rename : Mirrors f (Becomes (Option.map (Alias.relocate f))) rename rename := by
  apply (mirrors_accept? _).chain
  intro keyword
  cases keyword with
  | none => exact mirrors_pure rfl
  | some keyword => exact mirrors_identifier.chain fun _ => mirrors_pure rfl

theorem mirrors_elementaryTypeName :
    Mirrors f (Becomes (ElementaryTypeName.relocate f)) elementaryTypeName
      elementaryTypeName := by
  apply (mirrors_takeIf _ _).chain
  intro name
  dsimp only [Token.relocate]
  split
  · exact (mirrors_accept? _).chain fun _ => mirrors_pure rfl
  · exact mirrors_pure rfl

theorem mirrors_typeName : Mirrors f (Becomes (TypeName.relocate f)) typeName typeName := by
  apply (mirrors_choose _).chain
  intro t
  dsimp only [Token.relocate]
  split
  · exact mirrors_elementaryTypeName.map fun _ => rfl
  · exact mirrors_refuseAt t _

theorem mirrors_parameter : Mirrors f (Becomes (Parameter.relocate f)) parameter parameter :=
  mirrors_typeName.map fun _ => rfl

theorem mirrors_parameterList (limit : Nat) :
    Mirrors f (Becomes (ParameterList.relocate f)) (parameterList limit)
      (parameterList limit) := by
  apply (mirrors_parameter.separatedBy _ limit).chain
  intro entries
  rw [Phrase.items_relocate, Phrase.separators_relocate]
  exact mirrors_pure rfl

/-! ## Expressions -/

/-- A string keeps its span, and with it the end of its token. -/
theorem literalOf?_relocate {t : Token} (h : f t.last = (t.relocate f).last) :
    literalOf? (t.relocate f) = (literalOf? t).map (Literal.relocate f) := by
  have hkind : (t.relocate f).kind = t.kind := rfl
  have hspan : (t.relocate f).span = t.span.relocate f := by rw [Token.span, ← h]; rfl
  simp only [literalOf?, hkind, hspan]
  split_ifs <;> rfl

theorem mirrors_literal : Mirrors f (Becomes (Literal.relocate f)) literal literal := by
  apply mirrors_next_bind
  intro t ht
  rw [literalOf?_relocate ht]
  cases literalOf? t with
  | none => exact mirrors_refuseAt t _
  | some value => exact mirrors_pure rfl

theorem mirrors_expression :
    Mirrors f (Becomes (Expression.relocate f)) expression expression := by
  apply (mirrors_choose _).chain
  intro t
  have hkind : (t.relocate f).kind = t.kind := rfl
  simp only [hkind]
  split
  · exact mirrors_literal.map fun _ => rfl
  · split
    · exact mirrors_identifier.map fun _ => rfl
    · exact mirrors_refuseAt t _

theorem mirrors_namedArgument :
    Mirrors f (Becomes (NamedArgument.relocate f)) namedArgument namedArgument := by
  apply mirrors_identifier.chain
  intro name
  apply (mirrors_expect _ _).chain
  intro colon
  exact mirrors_expression.chain fun _ => mirrors_pure rfl

theorem mirrors_namedArguments (limit : Nat) :
    Mirrors f (Becomes (NamedArguments.relocate f)) (namedArguments limit)
      (namedArguments limit) := by
  apply (mirrors_expect _ _).chain
  intro lbrace
  apply (mirrors_namedArgument.separatedBy _ limit).chain
  intro arguments
  exact (mirrors_expect _ _).chain fun _ => mirrors_pure rfl

theorem mirrors_callArguments (limit : Nat) :
    Mirrors f (Becomes (CallArguments.relocate f)) (callArguments limit)
      (callArguments limit) := by
  apply mirrors_peek.chain
  intro t
  dsimp only [Token.relocate]
  split
  · exact mirrors_pure rfl
  · exact (mirrors_namedArguments limit).map fun _ => rfl
  · exact (mirrors_expression.separatedBy _ limit).map fun _ => rfl

theorem mirrors_callArgumentList (limit : Nat) :
    Mirrors f (Becomes (CallArgumentList.relocate f)) (callArgumentList limit)
      (callArgumentList limit) := by
  apply (mirrors_expect _ _).chain
  intro lparen
  apply (mirrors_callArguments limit).chain
  intro arguments
  exact (mirrors_expect _ _).chain fun _ => mirrors_pure rfl

/-! ## Functions -/

theorem mirrors_returnStatement :
    Mirrors f (Becomes (ReturnStatement.relocate f)) returnStatement returnStatement := by
  apply (mirrors_expect _ _).chain
  intro keyword
  apply mirrors_expression.chain
  intro expression
  exact (mirrors_expect _ _).chain fun _ => mirrors_pure rfl

theorem mirrors_statement : Mirrors f (Becomes (Statement.relocate f)) statement statement := by
  apply (mirrors_choose _).chain
  intro t
  dsimp only [Token.relocate]
  split
  · exact mirrors_returnStatement.map fun _ => rfl
  · exact mirrors_refuseAt t _

theorem mirrors_block : Mirrors f (Becomes (Block.relocate f)) block block := by
  apply (mirrors_expect _ _).chain
  intro lbrace
  apply mirrors_statement.chain
  intro statement
  exact (mirrors_expect _ _).chain fun _ => mirrors_pure rfl

/-- The modifiers seen before move with those to come. -/
theorem mirrors_modifiers (limit : Nat) (seen : Modifiers) :
    Mirrors f (Becomes (Modifiers.relocate f)) (modifiers limit seen)
      (modifiers limit (seen.relocate f)) := by
  induction limit generalizing seen with
  | zero => exact mirrors_pure rfl
  | succ limit ih =>
      apply mirrors_peek.chain
      intro t
      dsimp only [Token.relocate]
      split
      · exact (mirrors_takeIf _ _).chain fun keyword => ih _
      · split
        · exact (mirrors_takeIf _ _).chain fun keyword => ih _
        · exact mirrors_pure rfl

theorem mirrors_functionDescriptor :
    Mirrors f (Becomes (Token.relocate f)) functionDescriptor functionDescriptor := by
  apply mirrors_peek.chain
  intro t
  dsimp only [Token.relocate]
  split
  · exact mirrors_next
  · exact mirrors_next
  · exact mirrors_identifier

theorem mirrors_functionReturns (limit : Nat) :
    Mirrors f (Becomes (FunctionReturns.relocate f)) (functionReturns limit)
      (functionReturns limit) := by
  apply (mirrors_expect _ _).chain
  intro keyword
  apply (mirrors_expect _ _).chain
  intro lparen
  apply (mirrors_parameterList limit).chain
  intro parameters
  exact (mirrors_expect _ _).chain fun _ => mirrors_pure rfl

theorem mirrors_functionDefinition (limit : Nat) :
    Mirrors f (Becomes (FunctionDefinition.relocate f)) (functionDefinition limit)
      (functionDefinition limit) := by
  apply (mirrors_expect _ _).chain
  intro keyword
  apply mirrors_functionDescriptor.chain
  intro descriptor
  apply (mirrors_expect _ _).chain
  intro lparen
  apply (mirrors_expect _ _).chain
  intro rparen
  apply (mirrors_modifiers limit ⟨none, none⟩).chain
  intro modifiers
  apply ((mirrors_functionReturns limit).whenNext _).chain
  intro returns
  exact mirrors_block.chain fun _ => mirrors_pure rfl

/-! ## Directives -/

theorem mirrors_pragmaRest (limit : Nat) :
    Mirrors f (Becomes (Prod.map (List.map (Token.relocate f)) (Token.relocate f)))
      (pragmaRest limit) (pragmaRest limit) := by
  induction limit with
  | zero => exact (mirrors_expect _ _).chain fun _ => mirrors_pure rfl
  | succ limit ih =>
      apply mirrors_next.chain
      intro t
      dsimp only [Token.relocate]
      split
      · exact mirrors_pure rfl
      · exact mirrors_refuseAt t _
      · exact ih.chain fun _ => mirrors_pure rfl

theorem mirrors_pragmaDirective (limit : Nat) :
    Mirrors f (Becomes (PragmaDirective.relocate f)) (pragmaDirective limit)
      (pragmaDirective limit) := by
  apply (mirrors_expect _ _).chain
  intro keyword
  apply mirrors_next.chain
  intro first
  dsimp only [Token.relocate]
  split
  · exact mirrors_refuseAt first _
  · exact mirrors_refuseAt first _
  · exact (mirrors_pragmaRest limit).chain fun _ => mirrors_pure rfl

theorem mirrors_importPath :
    Mirrors f (Becomes (ImportPath.relocate f)) importPath importPath := by
  apply (mirrors_expect _ _).chain
  intro path
  exact mirrors_rename.chain fun _ => mirrors_pure rfl

theorem mirrors_symbolAlias :
    Mirrors f (Becomes (SymbolAlias.relocate f)) symbolAlias symbolAlias := by
  apply mirrors_identifier.chain
  intro symbol
  exact mirrors_rename.chain fun _ => mirrors_pure rfl

theorem mirrors_symbolAliases (limit : Nat) :
    Mirrors f (Becomes (SymbolAliases.relocate f)) (symbolAliases limit)
      (symbolAliases limit) := by
  apply (mirrors_expect _ _).chain
  intro lbrace
  apply (mirrors_symbolAlias.separatedBy _ limit).chain
  intro entries
  rw [Phrase.items_relocate, Phrase.separators_relocate]
  exact (mirrors_expect _ _).chain fun _ => mirrors_pure rfl

theorem mirrors_importSymbols (limit : Nat) :
    Mirrors f (Becomes (ImportSymbols.relocate f)) (importSymbols limit)
      (importSymbols limit) := by
  apply (mirrors_symbolAliases limit).chain
  intro symbols
  apply (mirrors_expect _ _).chain
  intro fromKeyword
  exact (mirrors_expect _ _).chain fun _ => mirrors_pure rfl

theorem mirrors_importWildcard :
    Mirrors f (Becomes (ImportWildcard.relocate f)) importWildcard importWildcard := by
  apply (mirrors_expect _ _).chain
  intro asterisk
  apply (mirrors_expect _ _).chain
  intro asKeyword
  apply mirrors_identifier.chain
  intro name
  apply (mirrors_expect _ _).chain
  intro fromKeyword
  exact (mirrors_expect _ _).chain fun _ => mirrors_pure rfl

theorem mirrors_importElement (limit : Nat) :
    Mirrors f (Becomes (ImportElement.relocate f)) (importElement limit)
      (importElement limit) := by
  apply (mirrors_choose _).chain
  intro t
  dsimp only [Token.relocate]
  split
  · exact mirrors_importPath.map fun _ => rfl
  · exact (mirrors_importSymbols limit).map fun _ => rfl
  · exact mirrors_importWildcard.map fun _ => rfl
  · exact mirrors_refuseAt t _

theorem mirrors_importDirective (limit : Nat) :
    Mirrors f (Becomes (ImportDirective.relocate f)) (importDirective limit)
      (importDirective limit) := by
  apply (mirrors_expect _ _).chain
  intro keyword
  apply (mirrors_importElement limit).chain
  intro element
  exact (mirrors_expect _ _).chain fun _ => mirrors_pure rfl

/-! ## Contracts and source units -/

theorem mirrors_inheritanceSpecifier (limit : Nat) :
    Mirrors f (Becomes (InheritanceSpecifier.relocate f)) (inheritanceSpecifier limit)
      (inheritanceSpecifier limit) := by
  apply (mirrors_identifierPath limit).chain
  intro path
  exact ((mirrors_callArgumentList limit).whenNext _).chain fun _ => mirrors_pure rfl

theorem mirrors_inheritance (limit : Nat) :
    Mirrors f (Becomes (Inheritance.relocate f)) (inheritance limit) (inheritance limit) := by
  apply (mirrors_expect _ _).chain
  intro isKeyword
  apply ((mirrors_inheritanceSpecifier limit).separatedBy _ limit).chain
  intro entries
  rw [Phrase.items_relocate, Phrase.separators_relocate]
  exact mirrors_pure rfl

theorem mirrors_contractBody (limit count : Nat) :
    Mirrors f (Becomes (Prod.map (List.map (ContractMember.relocate f)) (Token.relocate f)))
      (contractBody limit count) (contractBody limit count) := by
  induction count with
  | zero => exact (mirrors_expect _ _).chain fun _ => mirrors_pure rfl
  | succ count ih =>
      apply mirrors_peek.chain
      intro t
      dsimp only [Token.relocate]
      split
      · exact mirrors_next.chain fun _ => mirrors_pure rfl
      · apply (mirrors_functionDefinition limit).chain
        intro function
        exact ih.chain fun _ => mirrors_pure rfl
      · exact mirrors_refuseAt t _
      · exact mirrors_refuseAt t _

theorem mirrors_contractDefinition (limit : Nat) :
    Mirrors f (Becomes (ContractDefinition.relocate f)) (contractDefinition limit)
      (contractDefinition limit) := by
  apply (mirrors_accept? _).chain
  intro abstractKeyword
  apply (mirrors_expect _ _).chain
  intro keyword
  apply mirrors_identifier.chain
  intro name
  apply ((mirrors_inheritance limit).whenNext _).chain
  intro inheritance
  apply (mirrors_expect _ _).chain
  intro lbrace
  apply (mirrors_contractBody limit limit).chain
  intro body
  refine mirrors_pure ?_
  cases abstractKeyword <;> rfl

/-- As many events are noted for a construct at other positions. -/
theorem mirrors_logParsed {α : Type} (construct : Construct) (span span' : Span)
    (earlier : Option α) (move : α → α) (spanOf : α → Span) :
    Mirrors f (Becomes id) (logParsed construct span (earlier.map spanOf))
      (logParsed construct span' ((earlier.map move).map spanOf)) := by
  apply (mirrors_log _ _).chain
  intro _
  cases earlier with
  | none => exact mirrors_pure rfl
  | some old => exact mirrors_log _ _

theorem mirrors_constructs (limit count : Nat) (unit : SourceUnit) :
    Mirrors f (Becomes (SourceUnit.relocate f)) (constructs limit count unit)
      (constructs limit count (unit.relocate f)) := by
  induction count generalizing unit with
  | zero => exact mirrors_pure rfl
  | succ count ih =>
      apply mirrors_peek.chain
      intro t
      apply (mirrors_log _ _).chain
      intro _
      dsimp only [Token.relocate]
      split
      · exact mirrors_pure rfl
      · apply (mirrors_pragmaDirective limit).chain
        intro d
        exact (mirrors_logParsed _ _ _ _ _ _).chain fun _ => ih _
      · apply (mirrors_importDirective limit).chain
        intro d
        exact (mirrors_logParsed _ _ _ _ _ _).chain fun _ => ih _
      · apply (mirrors_contractDefinition limit).chain
        intro c
        exact (mirrors_logParsed _ _ _ _ _ _).chain fun _ => ih _
      · apply (mirrors_contractDefinition limit).chain
        intro c
        exact (mirrors_logParsed _ _ _ _ _ _).chain fun _ => ih _
      · apply (mirrors_functionDefinition limit).chain
        intro d
        exact (mirrors_logParsed _ _ _ _ _ _).chain fun _ => ih _
      · exact mirrors_refuseAt t _

end Grammar

open Grammar

/-- Every production mirrors itself along every change of positions. -/
theorem Production.mirrors_rule {α : Type} (production : Production α) (limit : Nat) :
    Rule.Mirrors f (Becomes (production.relocate f)) (production.rule limit)
      (production.rule limit) := by
  cases production with
  | sourceUnit => exact mirrors_constructs limit limit .empty
  | pragmaDirective => exact mirrors_pragmaDirective limit
  | importDirective => exact mirrors_importDirective limit
  | importPath => exact mirrors_importPath
  | importSymbols => exact mirrors_importSymbols limit
  | importWildcard => exact mirrors_importWildcard
  | path => exact Rule.mirrors_expect _ _
  | symbolAliases => exact mirrors_symbolAliases limit
  | symbolAlias => exact mirrors_symbolAlias
  | identifier => exact mirrors_identifier
  | identifierPath => exact mirrors_identifierPath limit
  | contractDefinition => exact mirrors_contractDefinition limit
  | inheritanceSpecifier => exact mirrors_inheritanceSpecifier limit
  | functionDefinition => exact mirrors_functionDefinition limit
  | visibility => exact Rule.mirrors_takeIf _ _
  | stateMutability => exact Rule.mirrors_takeIf _ _
  | typeName => exact mirrors_typeName
  | elementaryTypeName => exact mirrors_elementaryTypeName
  | parameterList => exact mirrors_parameterList limit
  | parameter => exact mirrors_parameter
  | block => exact mirrors_block
  | statement => exact mirrors_statement
  | returnStatement => exact mirrors_returnStatement
  | expression => exact mirrors_expression
  | literal => exact mirrors_literal
  | callArgumentList => exact mirrors_callArgumentList limit

end SoliditySource
