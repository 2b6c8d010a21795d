import SoliditySource.Proofs.Grammar.Construct

/-! # The sentences of the grammar

The documented grammar as languages over token kinds, one for each of its rules. The
phrases are laid out differently, so that the next token tells them apart, and have
the same languages.
-/

namespace SoliditySource

open Computability

namespace Sentence

/-- One token of a kind that fits. -/
def one (fits : TokenKind → Bool) : Language TokenKind := {w | ∃ k, fits k = true ∧ w = [k]}

/-- One token of one of the kinds. -/
def oneOf (kinds : List TokenKind) : Language TokenKind := one fun k => k ∈ kinds

def kind (k : TokenKind) : Language TokenKind := {[k]}

def optional (l : Language TokenKind) : Language TokenKind := 1 + l

/-- `l ( separator l )*` -/
def listOf (separator : TokenKind) (l : Language TokenKind) : Language TokenKind :=
  l * (kind separator * l)∗

/-! ## Names and types -/

/-- A word that is not reserved, or one of the four that are reserved in some places only. -/
def identifier : Language TokenKind :=
  oneOf [.identifier, .kwFrom, .kwError, .kwRevert, .kwGlobal]

/-- `identifier ( "." identifier )*` -/
def identifierPath : Language TokenKind := listOf .period identifier

/-- `"as" identifier` -/
def rename : Language TokenKind := kind .kwAs * identifier

def elementaryType : Language TokenKind :=
  oneOf [.kwAddress, .kwBool, .kwString, .kwBytes, .kwByte, .kwInt, .kwUint, .kwFixed, .kwUfixed]

/-- The name of an elementary type, or `address payable`. -/
def typeName : Language TokenKind := elementaryType + kind .kwAddress * kind .kwPayable

def parameterList : Language TokenKind := listOf .comma typeName

/-! ## Expressions -/

def stringLiteral : Language TokenKind :=
  oneOf [.emptyString, .nonEmptyString, .unicodeString, .hexString]

def literal : Language TokenKind :=
  stringLiteral + kind .kwTrue + kind .kwFalse + kind .number

def expression : Language TokenKind := literal + identifier

/-- `identifier ":" expression` -/
def namedArgument : Language TokenKind := identifier * kind .colon * expression

/-- `"(" ")"`, or expressions in parentheses, or named arguments in braces in parentheses. -/
def callArgumentList : Language TokenKind :=
  kind .lparen * kind .rparen + kind .lparen * listOf .comma expression * kind .rparen +
    kind .lparen * kind .lbrace * listOf .comma namedArgument * kind .rbrace * kind .rparen

/-! ## Functions -/

/-- `"return" expression ";"` -/
def returnStatement : Language TokenKind := kind .kwReturn * expression * kind .semicolon

def block : Language TokenKind := kind .lbrace * returnStatement * kind .rbrace

def visibility : Language TokenKind := oneOf [.kwPublic, .kwPrivate, .kwInternal, .kwExternal]

def stateMutability : Language TokenKind := oneOf [.kwPure, .kwView, .kwPayable]

def descriptor : Language TokenKind := identifier + kind .kwFallback + kind .kwReceive

/-- `"returns" "(" parameter-list ")"` -/
def functionReturns : Language TokenKind :=
  kind .kwReturns * kind .lparen * parameterList * kind .rparen

/-- `"function" descriptor "(" ")" modifier* [ returns ] block` -/
def functionDefinition : Language TokenKind :=
  kind .kwFunction * descriptor * kind .lparen * kind .rparen *
    (visibility + stateMutability)∗ * optional functionReturns * block

/-! ## Directives -/

/-- `"pragma" token+ ";"`, where a semicolon is no `token`. -/
def pragmaDirective : Language TokenKind :=
  let token := one fun k => k ≠ .semicolon && k ≠ .eos
  kind .kwPragma * (token * token∗) * kind .semicolon

def path : Language TokenKind := kind .nonEmptyString

def importPath : Language TokenKind := path * optional rename

def symbolAlias : Language TokenKind := identifier * optional rename

def symbolAliases : Language TokenKind := kind .lbrace * listOf .comma symbolAlias * kind .rbrace

def importSymbols : Language TokenKind := symbolAliases * kind .kwFrom * path

def importWildcard : Language TokenKind := kind .mul * rename * kind .kwFrom * path

def importDirective : Language TokenKind :=
  kind .kwImport * (importPath + importSymbols + importWildcard) * kind .semicolon

/-! ## Contracts and source units -/

/-- `identifier-path [ call-argument-list ]` -/
def inheritanceSpecifier : Language TokenKind := identifierPath * optional callArgumentList

/-- `"is" inheritance-spec ( "," inheritance-spec )*` -/
def inheritance : Language TokenKind := kind .kwIs * listOf .comma inheritanceSpecifier

/-- `[ "abstract" ] "contract" identifier [ inheritance ] "{" function-def* "}"` -/
def contractDefinition : Language TokenKind :=
  optional (kind .kwAbstract) * kind .kwContract * identifier * optional inheritance *
    kind .lbrace * functionDefinition∗ * kind .rbrace

/-- `( pragma-directive | import-directive | contract-def | function-def )*` -/
def sourceUnit : Language TokenKind :=
  (pragmaDirective + importDirective + contractDefinition + functionDefinition)∗

end Sentence

/-- The sentences of a production. -/
def Production.language {α : Type} : Production α → Language TokenKind
  | sourceUnit => Sentence.sourceUnit
  | pragmaDirective => Sentence.pragmaDirective
  | importDirective => Sentence.importDirective
  | importPath => Sentence.importPath
  | importSymbols => Sentence.importSymbols
  | importWildcard => Sentence.importWildcard
  | path => Sentence.path
  | symbolAliases => Sentence.symbolAliases
  | symbolAlias => Sentence.symbolAlias
  | identifier => Sentence.identifier
  | identifierPath => Sentence.identifierPath
  | contractDefinition => Sentence.contractDefinition
  | inheritanceSpecifier => Sentence.inheritanceSpecifier
  | functionDefinition => Sentence.functionDefinition
  | visibility => Sentence.visibility
  | stateMutability => Sentence.stateMutability
  | typeName => Sentence.typeName
  | elementaryTypeName => Sentence.typeName
  | parameterList => Sentence.parameterList
  | parameter => Sentence.typeName
  | block => Sentence.block
  | statement => Sentence.returnStatement
  | returnStatement => Sentence.returnStatement
  | expression => Sentence.expression
  | literal => Sentence.literal
  | callArgumentList => Sentence.callArgumentList

/-! ## Classes of kinds

The predicates that the rules ask are the classes that the grammar lists. -/

namespace Sentence

theorem one_eq_oneOf {fits : TokenKind → Bool} {kinds : List TokenKind}
    (h : ∀ k, fits k = decide (k ∈ kinds)) : one fits = oneOf kinds :=
  congrArg one (funext h)

theorem one_isIdentifierLike : one TokenKind.isIdentifierLike = identifier :=
  one_eq_oneOf fun k => by cases k <;> rfl

theorem one_isElementaryType : one TokenKind.isElementaryType = elementaryType :=
  one_eq_oneOf fun k => by cases k <;> rfl

theorem one_isStringLiteral : one TokenKind.isStringLiteral = stringLiteral :=
  one_eq_oneOf fun k => by cases k <;> rfl

theorem one_isVisibility : one TokenKind.isVisibility = visibility :=
  one_eq_oneOf fun k => by cases k <;> rfl

theorem one_isStateMutability : one TokenKind.isStateMutability = stateMutability :=
  one_eq_oneOf fun k => by cases k <;> rfl

end Sentence

/-! ## The languages of phrases -/

namespace Phrase

variable {α β : Type}

@[simp] theorem language_token (fits : TokenKind → Bool) :
    (token fits).language = Sentence.one fits := rfl

@[simp] theorem language_map (f : α → β) (p : Phrase α) : (f <$> p).language = p.language := rfl

@[simp] theorem language_seq (q : Phrase (α → β)) (p : Phrase α) :
    (q <*> p).language = q.language * p.language := rfl

@[simp] theorem language_either (p q : Phrase α) :
    (either p q).language = p.language + q.language := rfl

@[simp] theorem language_many (p : Phrase α) : (many p).language = p.language∗ := rfl

@[simp] theorem language_optional (p : Phrase α) :
    (optional p).language = Sentence.optional p.language :=
  add_comm p.language 1

theorem one_or (fits fits' : TokenKind → Bool) :
    Sentence.one (fun k => fits k || fits' k) = Sentence.one fits + Sentence.one fits' := by
  ext w
  rw [Language.mem_add]
  constructor
  · rintro ⟨k, hk, rfl⟩
    rcases (Bool.or_eq_true _ _).mp hk with hk | hk
    · exact .inl ⟨k, hk, rfl⟩
    · exact .inr ⟨k, hk, rfl⟩
  · rintro (⟨k, hk, rfl⟩ | ⟨k, hk, rfl⟩)
    · exact ⟨k, (Bool.or_eq_true _ _).mpr (.inl hk), rfl⟩
    · exact ⟨k, (Bool.or_eq_true _ _).mpr (.inr hk), rfl⟩

@[simp] theorem one_eq (kind : TokenKind) :
    Sentence.one (fun k => decide (k = kind)) = Sentence.kind kind := by
  ext w
  constructor
  · rintro ⟨k, hk, rfl⟩
    rw [of_decide_eq_true hk]
    rfl
  · rintro rfl
    exact ⟨kind, decide_eq_true rfl, rfl⟩

@[simp] theorem language_mark (kind : TokenKind) :
    (mark kind).language = Sentence.kind kind := one_eq kind

@[simp] theorem language_separated (separator : TokenKind) (p : Phrase α) :
    (separated separator p).language = Sentence.listOf separator p.language := by
  rw [separated, language_seq, language_map, language_many, language_seq, language_map,
    language_mark]
  rfl

@[simp] theorem language_upTo (kind : TokenKind) (p : Phrase α) :
    (upTo kind p).language = p.language∗ * Sentence.kind kind := by
  rw [upTo, language_seq, language_map, language_many, language_token, one_eq]

/-! ## The phrases of the grammar -/

@[simp] theorem language_identifier : identifier.language = Sentence.identifier :=
  Sentence.one_isIdentifierLike

@[simp] theorem language_identifierPath : identifierPath.language = Sentence.identifierPath := by
  simp [identifierPath, Sentence.identifierPath]

@[simp] theorem language_rename : rename.language = Sentence.optional Sentence.rename := by
  simp [rename, Sentence.rename]

@[simp] theorem language_elementaryTypeName :
    elementaryTypeName.language = Sentence.typeName := by
  have hsplit : Sentence.one TokenKind.isElementaryType =
      Sentence.kind .kwAddress +
        Sentence.one fun k => k.isElementaryType && k ≠ .kwAddress := by
    rw [← one_eq, ← one_or]
    congr 1
    funext k
    cases k <;> rfl
  rw [elementaryTypeName, Sentence.typeName, ← Sentence.one_isElementaryType, hsplit,
    language_either, language_seq, language_map, language_map, language_token,
    language_optional, language_token, language_token, one_eq, one_eq, Sentence.optional,
    mul_add, mul_one, add_right_comm]

@[simp] theorem language_typeName : typeName.language = Sentence.typeName :=
  language_elementaryTypeName

@[simp] theorem language_parameter : parameter.language = Sentence.typeName :=
  language_typeName

@[simp] theorem language_parameterList : parameterList.language = Sentence.parameterList := by
  simp [parameterList, Sentence.parameterList]

@[simp] theorem language_literal : literal.language = Sentence.literal := by
  simp only [literal, stringLiteral, booleanLiteral, numberLiteral, Sentence.literal,
    language_either, language_map, language_token, one_or, one_eq, Sentence.one_isStringLiteral,
    add_assoc]

@[simp] theorem language_expression : expression.language = Sentence.expression := by
  simp [expression, Sentence.expression]

@[simp] theorem language_namedArgument : namedArgument.language = Sentence.namedArgument := by
  simp [namedArgument, Sentence.namedArgument]

@[simp] theorem language_callArgumentList :
    callArgumentList.language = Sentence.callArgumentList := by
  simp only [callArgumentList, closedArguments, callArguments, namedArguments,
    Sentence.callArgumentList, language_seq, language_map, language_either, language_mark,
    language_separated, language_expression, language_namedArgument, mul_add, add_mul,
    ← mul_assoc]
  rw [add_assoc, add_comm (_ * _ * _ * _)]

@[simp] theorem language_returnStatement :
    returnStatement.language = Sentence.returnStatement := by
  simp [returnStatement, Sentence.returnStatement]

@[simp] theorem language_statement : statement.language = Sentence.returnStatement :=
  language_returnStatement

@[simp] theorem language_block : block.language = Sentence.block := by
  simp [block, Sentence.block]

@[simp] theorem language_visibility : visibility.language = Sentence.visibility :=
  Sentence.one_isVisibility

@[simp] theorem language_stateMutability :
    stateMutability.language = Sentence.stateMutability :=
  Sentence.one_isStateMutability

@[simp] theorem language_functionDescriptor :
    functionDescriptor.language = Sentence.descriptor := by
  rw [functionDescriptor, Sentence.descriptor, language_token, one_or, one_or, one_eq, one_eq,
    Sentence.one_isIdentifierLike]

@[simp] theorem language_functionReturns :
    functionReturns.language = Sentence.functionReturns := by
  simp [functionReturns, Sentence.functionReturns]

@[simp] theorem language_functionDefinition :
    functionDefinition.language = Sentence.functionDefinition := by
  simp [functionDefinition, modifiersAfter, modifier, Sentence.functionDefinition]

@[simp] theorem language_pragmaDirective :
    pragmaDirective.language = Sentence.pragmaDirective := by
  simp [pragmaDirective, pragmaTokens, pragmaToken, Sentence.pragmaDirective, mul_assoc]

@[simp] theorem language_path : path.language = Sentence.path := one_eq .nonEmptyString

@[simp] theorem language_importPath : importPath.language = Sentence.importPath := by
  simp [importPath, Sentence.importPath]

@[simp] theorem language_symbolAlias : symbolAlias.language = Sentence.symbolAlias := by
  simp [symbolAlias, Sentence.symbolAlias]

@[simp] theorem language_symbolAliases : symbolAliases.language = Sentence.symbolAliases := by
  simp [symbolAliases, Sentence.symbolAliases]

@[simp] theorem language_importSymbols : importSymbols.language = Sentence.importSymbols := by
  simp [importSymbols, Sentence.importSymbols]

@[simp] theorem language_importWildcard : importWildcard.language = Sentence.importWildcard := by
  simp [importWildcard, Sentence.importWildcard, Sentence.rename, mul_assoc]

@[simp] theorem language_importDirective :
    importDirective.language = Sentence.importDirective := by
  simp [importDirective, importElement, Sentence.importDirective, sup_assoc]

@[simp] theorem language_inheritanceSpecifier :
    inheritanceSpecifier.language = Sentence.inheritanceSpecifier := by
  simp [inheritanceSpecifier, Sentence.inheritanceSpecifier]

@[simp] theorem language_inheritance : inheritance.language = Sentence.inheritance := by
  simp [inheritance, Sentence.inheritance]

@[simp] theorem language_contractDefinition :
    contractDefinition.language = Sentence.contractDefinition := by
  simp [contractDefinition, contractMember, Sentence.contractDefinition, mul_assoc]

@[simp] theorem language_topLevel : topLevel.language =
    Sentence.pragmaDirective + Sentence.importDirective + Sentence.contractDefinition +
      Sentence.functionDefinition := by
  simp [topLevel, sup_assoc]

theorem language_sourceUnit : sourceUnit.language = Sentence.sourceUnit := by
  simp [sourceUnit, constructsAfter, Sentence.sourceUnit]

end Phrase

open Phrase

theorem Production.language_phrase {α : Type} (production : Production α) :
    production.phrase.language = production.language := by
  cases production with
  | sourceUnit => exact language_sourceUnit
  | _ => simp [Production.phrase, Production.language]

end SoliditySource
