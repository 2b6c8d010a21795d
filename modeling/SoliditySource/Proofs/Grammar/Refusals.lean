import SoliditySource.Production
import SoliditySource.Proofs.Parse.Contents
import SoliditySource.Proofs.Rule.Refusals

/-! # First tokens that are never refused

Many constructs are read after a look at their first token, so that the check of this token when
it is taken cannot fail. Some of these checks are reached no other way, and the rest only when a
construct is read on its own (`Cause.canArise`). So their messages are never seen.
-/

namespace SoliditySource

/-- Holds of the causes that a production can refuse a token for. The first token of some
constructs has been looked at whenever they are read as a part of a whole source unit. -/
def Cause.canArise (whole : Bool) : Cause → Bool
  | noOpeningQuote => false
  | missing .isKeyword => false
  | missing .returnsKeyword => false
  | noLiteral => !whole
  | missing .pragmaKeyword => !whole
  | missing .importKeyword => !whole
  | missing .asterisk => !whole
  | missing .returnKeyword => !whole
  | missing .elementaryType => !whole
  | missing .visibility => !whole
  | missing .stateMutability => !whole
  | _ => true

namespace Cause

variable {cause : Cause} {whole : Bool}

theorem canArise_of_isLexical (h : cause.isLexical = true) : cause.canArise whole = true := by
  cases cause with
  | strayBackslash => rfl
  | unclosedQuote => rfl
  | detachedQuote word => rfl
  | malformedHex => rfl
  | _ => cases h

theorem canArise_of_part (hc : cause.canArise false = true) (h : whole = false) :
    cause.canArise whole = true := by
  rw [h]
  exact hc

theorem isPrefix_message_detachedQuote (word : List Char) :
    "not found quote".toList <+: (detachedQuote word).message.toList := by
  have hfront : "not found quote".toList <+: "not found quote right after ".toList := by decide
  have hinner : ("not found quote right after " ++ String.ofList word).toList =
      "not found quote right after ".toList ++ (String.ofList word).toList :=
    String.toList_append
  have hmessage : (detachedQuote word).message.toList =
      ("not found quote right after " ++ String.ofList word).toList ++ ".".toList :=
    String.toList_append
  rw [hmessage, hinner, List.append_assoc]
  exact hfront.trans (List.prefix_append _ _)

/-- The messages that no production gives, and those that the reading of a whole source unit does
not give either. -/
def unseenMessages (whole : Bool) : List String :=
  ["not found is keyword.", "not found returns keyword.", "not found \" or '"] ++
    if whole then
      ["not found pragma keyword.", "not found import keyword.", "not found asterisk.",
        "not found return keyword.", "not found string literal quote",
        "not found elementary type name keyword.", "not found visibility keyword.",
        "not found state-mutability keyword."]
    else []

theorem message_not_mem_unseen (h : cause.canArise whole = true) :
    cause.message ∉ unseenMessages whole := by
  have hquote : ∀ m ∈ unseenMessages whole, ¬ "not found quote".toList <+: m.toList := by
    cases whole <;> decide
  cases cause with
  | missing part => cases part <;> cases whole <;> first | decide | cases h
  | detachedQuote word =>
      exact fun hmem => hquote _ hmem (isPrefix_message_detachedQuote word)
  | _ => cases whole <;> first | decide | cases h

end Cause

namespace Grammar

open Rule

variable {whole : Bool} {seen : Option Token}

/-! ## Names, types and expressions -/

theorem refusesOnly_identifier : identifier.RefusesOnly (Cause.canArise whole) seen :=
  refusesOnly_takeIf (.inr rfl)

theorem refusesOnly_identifierPath (limit : Nat) :
    (identifierPath limit).RefusesOnly (Cause.canArise whole) seen :=
  (refusesOnly_separatedBy refusesOnly_identifier limit).bind fun _ => refusesOnly_pure _

theorem refusesOnly_rename : rename.RefusesOnly (Cause.canArise whole) seen := by
  apply refusesOnly_accept?.bind
  intro o
  cases o with
  | none => exact refusesOnly_pure _
  | some keyword => exact refusesOnly_identifier.bind fun _ => refusesOnly_pure _

theorem refusesOnly_elementaryTypeName
    (h : (∃ t ∈ seen, t.kind.isElementaryType = true) ∨ whole = false) :
    elementaryTypeName.RefusesOnly (Cause.canArise whole) seen := by
  apply (refusesOnly_takeIf (h.imp_right (Cause.canArise_of_part rfl))).bind
  intro name
  split
  · exact refusesOnly_accept?.bind fun _ => refusesOnly_pure _
  · exact refusesOnly_pure _

theorem refusesOnly_typeName : typeName.RefusesOnly (Cause.canArise whole) seen := by
  apply RefusesOnly.choose_bind
  intro t
  split
  · next ht => exact (refusesOnly_elementaryTypeName (.inl ⟨t, rfl, ht⟩)).map _
  · exact refusesOnly_refuseAt rfl

theorem refusesOnly_parameter : parameter.RefusesOnly (Cause.canArise whole) seen :=
  refusesOnly_typeName.map _

theorem refusesOnly_parameterList (limit : Nat) :
    (parameterList limit).RefusesOnly (Cause.canArise whole) seen :=
  (refusesOnly_separatedBy refusesOnly_parameter limit).bind fun _ => refusesOnly_pure _

theorem refusesOnly_literal (h : (∃ t ∈ seen, isLiteral t.kind = true) ∨ whole = false) :
    literal.RefusesOnly (Cause.canArise whole) seen := by
  apply RefusesOnly.next_bind
  intro t ht
  cases hl : literalOf? t with
  | some value => exact refusesOnly_pure value
  | none =>
      cases h with
      | inl hkind =>
          obtain ⟨u, hu, hkind⟩ := hkind
          rw [ht u hu, ← isSome_literalOf?, hl] at hkind
          cases hkind
      | inr hwhole => exact refusesOnly_refuseAt (Cause.canArise_of_part rfl hwhole)

theorem refusesOnly_expression : expression.RefusesOnly (Cause.canArise whole) seen := by
  apply RefusesOnly.choose_bind
  intro t
  split
  · next ht => exact (refusesOnly_literal (.inl ⟨t, rfl, ht⟩)).map _
  · split
    · exact refusesOnly_identifier.map _
    · exact refusesOnly_refuseAt rfl

theorem refusesOnly_namedArgument : namedArgument.RefusesOnly (Cause.canArise whole) seen :=
  refusesOnly_identifier.bind fun _ => (refusesOnly_expect (.inr rfl)).bind fun _ =>
    refusesOnly_expression.bind fun _ => refusesOnly_pure _

theorem refusesOnly_namedArguments (limit : Nat) :
    (namedArguments limit).RefusesOnly (Cause.canArise whole) seen :=
  (refusesOnly_expect (.inr rfl)).bind fun _ =>
    (refusesOnly_separatedBy refusesOnly_namedArgument limit).bind fun _ =>
      (refusesOnly_expect (.inr rfl)).bind fun _ => refusesOnly_pure _

theorem refusesOnly_callArguments (limit : Nat) :
    (callArguments limit).RefusesOnly (Cause.canArise whole) seen := by
  apply RefusesOnly.peek_bind
  intro t
  split
  · exact refusesOnly_pure _
  · exact (refusesOnly_namedArguments limit).map _
  · exact (refusesOnly_separatedBy refusesOnly_expression limit).map _

theorem refusesOnly_callArgumentList (limit : Nat) :
    (callArgumentList limit).RefusesOnly (Cause.canArise whole) seen :=
  (refusesOnly_expect (.inr rfl)).bind fun _ => (refusesOnly_callArguments limit).bind fun _ =>
    (refusesOnly_expect (.inr rfl)).bind fun _ => refusesOnly_pure _

/-! ## Functions -/

theorem refusesOnly_returnStatement (h : (∃ t ∈ seen, t.kind = .kwReturn) ∨ whole = false) :
    returnStatement.RefusesOnly (Cause.canArise whole) seen :=
  (refusesOnly_expect (h.imp_right (Cause.canArise_of_part rfl))).bind fun _ =>
    refusesOnly_expression.bind fun _ =>
      (refusesOnly_expect (.inr rfl)).bind fun _ => refusesOnly_pure _

theorem refusesOnly_statement : statement.RefusesOnly (Cause.canArise whole) seen := by
  apply RefusesOnly.choose_bind
  intro t
  split
  · next ht => exact (refusesOnly_returnStatement (.inl ⟨t, rfl, ht⟩)).map _
  · exact refusesOnly_refuseAt rfl

theorem refusesOnly_block : block.RefusesOnly (Cause.canArise whole) seen :=
  (refusesOnly_expect (.inr rfl)).bind fun _ => refusesOnly_statement.bind fun _ =>
    (refusesOnly_expect (.inr rfl)).bind fun _ => refusesOnly_pure _

theorem refusesOnly_visibility
    (h : (∃ t ∈ seen, t.kind.isVisibility = true) ∨ whole = false) :
    visibility.RefusesOnly (Cause.canArise whole) seen :=
  refusesOnly_takeIf (h.imp_right (Cause.canArise_of_part rfl))

theorem refusesOnly_stateMutability
    (h : (∃ t ∈ seen, t.kind.isStateMutability = true) ∨ whole = false) :
    stateMutability.RefusesOnly (Cause.canArise whole) seen :=
  refusesOnly_takeIf (h.imp_right (Cause.canArise_of_part rfl))

/-- By induction on the limit: the modifier that is taken is the one that was looked at. -/
theorem refusesOnly_modifiers (limit : Nat) (found : Modifiers) :
    (modifiers limit found).RefusesOnly (Cause.canArise whole) seen := by
  induction limit generalizing found seen with
  | zero => exact refusesOnly_pure found
  | succ limit ih =>
      apply RefusesOnly.peek_bind
      intro t
      split
      · next ht => exact (refusesOnly_visibility (.inl ⟨t, rfl, ht⟩)).bind fun _ => ih _
      · split
        · next ht => exact (refusesOnly_stateMutability (.inl ⟨t, rfl, ht⟩)).bind fun _ => ih _
        · exact refusesOnly_pure found

theorem refusesOnly_functionDescriptor :
    functionDescriptor.RefusesOnly (Cause.canArise whole) seen := by
  apply RefusesOnly.peek_bind
  intro t
  split
  · exact refusesOnly_next
  · exact refusesOnly_next
  · exact refusesOnly_identifier

theorem refusesOnly_functionReturns (limit : Nat) (h : ∃ t ∈ seen, t.kind = .kwReturns) :
    (functionReturns limit).RefusesOnly (Cause.canArise whole) seen :=
  (refusesOnly_expect (.inl h)).bind fun _ => (refusesOnly_expect (.inr rfl)).bind fun _ =>
    (refusesOnly_parameterList limit).bind fun _ =>
      (refusesOnly_expect (.inr rfl)).bind fun _ => refusesOnly_pure _

theorem refusesOnly_functionDefinition (limit : Nat) :
    (functionDefinition limit).RefusesOnly (Cause.canArise whole) seen := by
  apply (refusesOnly_expect (.inr rfl)).bind
  intro keyword
  apply refusesOnly_functionDescriptor.bind
  intro descriptor
  apply (refusesOnly_expect (.inr rfl)).bind
  intro lparen
  apply (refusesOnly_expect (.inr rfl)).bind
  intro rparen
  apply (refusesOnly_modifiers limit _).bind
  intro modifiers
  apply (refusesOnly_whenNext fun t ht => refusesOnly_functionReturns limit ⟨t, rfl, ht⟩).bind
  intro returns
  exact refusesOnly_block.bind fun body => refusesOnly_pure _

/-! ## Directives -/

theorem refusesOnly_pragmaRest (limit : Nat) :
    (pragmaRest limit).RefusesOnly (Cause.canArise whole) seen := by
  induction limit generalizing seen with
  | zero => exact (refusesOnly_expect (.inr rfl)).bind fun _ => refusesOnly_pure _
  | succ limit ih =>
      apply RefusesOnly.next_bind
      intro t _
      split
      · exact refusesOnly_pure _
      · exact refusesOnly_refuseAt rfl
      · exact ih.bind fun _ => refusesOnly_pure _

theorem refusesOnly_pragmaDirective (limit : Nat)
    (h : (∃ t ∈ seen, t.kind = .kwPragma) ∨ whole = false) :
    (pragmaDirective limit).RefusesOnly (Cause.canArise whole) seen := by
  apply (refusesOnly_expect (h.imp_right (Cause.canArise_of_part rfl))).bind
  intro keyword
  apply RefusesOnly.next_bind
  intro first _
  split
  · exact refusesOnly_refuseAt rfl
  · exact refusesOnly_refuseAt rfl
  · exact (refusesOnly_pragmaRest limit).bind fun _ => refusesOnly_pure _

theorem refusesOnly_path : path.RefusesOnly (Cause.canArise whole) seen :=
  refusesOnly_expect (.inr rfl)

theorem refusesOnly_importPath : importPath.RefusesOnly (Cause.canArise whole) seen :=
  refusesOnly_path.bind fun _ => refusesOnly_rename.bind fun _ => refusesOnly_pure _

theorem refusesOnly_symbolAlias : symbolAlias.RefusesOnly (Cause.canArise whole) seen :=
  refusesOnly_identifier.bind fun _ => refusesOnly_rename.bind fun _ => refusesOnly_pure _

theorem refusesOnly_symbolAliases (limit : Nat) :
    (symbolAliases limit).RefusesOnly (Cause.canArise whole) seen :=
  (refusesOnly_expect (.inr rfl)).bind fun _ =>
    (refusesOnly_separatedBy refusesOnly_symbolAlias limit).bind fun _ =>
      (refusesOnly_expect (.inr rfl)).bind fun _ => refusesOnly_pure _

theorem refusesOnly_importSymbols (limit : Nat) :
    (importSymbols limit).RefusesOnly (Cause.canArise whole) seen :=
  (refusesOnly_symbolAliases limit).bind fun _ => (refusesOnly_expect (.inr rfl)).bind fun _ =>
    refusesOnly_path.bind fun _ => refusesOnly_pure _

theorem refusesOnly_importWildcard (h : (∃ t ∈ seen, t.kind = .mul) ∨ whole = false) :
    importWildcard.RefusesOnly (Cause.canArise whole) seen :=
  (refusesOnly_expect (h.imp_right (Cause.canArise_of_part rfl))).bind fun _ =>
    (refusesOnly_expect (.inr rfl)).bind fun _ => refusesOnly_identifier.bind fun _ =>
      (refusesOnly_expect (.inr rfl)).bind fun _ =>
        refusesOnly_path.bind fun _ => refusesOnly_pure _

theorem refusesOnly_importElement (limit : Nat) :
    (importElement limit).RefusesOnly (Cause.canArise whole) seen := by
  apply RefusesOnly.choose_bind
  intro t
  split
  · exact refusesOnly_importPath.map _
  · exact (refusesOnly_importSymbols limit).map _
  · next ht => exact (refusesOnly_importWildcard (.inl ⟨t, rfl, ht⟩)).map _
  · exact refusesOnly_refuseAt rfl

theorem refusesOnly_importDirective (limit : Nat)
    (h : (∃ t ∈ seen, t.kind = .kwImport) ∨ whole = false) :
    (importDirective limit).RefusesOnly (Cause.canArise whole) seen :=
  (refusesOnly_expect (h.imp_right (Cause.canArise_of_part rfl))).bind fun _ =>
    (refusesOnly_importElement limit).bind fun _ =>
      (refusesOnly_expect (.inr rfl)).bind fun _ => refusesOnly_pure _

/-! ## Contracts and source units -/

theorem refusesOnly_inheritanceSpecifier (limit : Nat) :
    (inheritanceSpecifier limit).RefusesOnly (Cause.canArise whole) seen :=
  (refusesOnly_identifierPath limit).bind fun _ =>
    (refusesOnly_whenNext fun _ _ => refusesOnly_callArgumentList limit).bind fun _ =>
      refusesOnly_pure _

theorem refusesOnly_inheritance (limit : Nat) (h : ∃ t ∈ seen, t.kind = .kwIs) :
    (inheritance limit).RefusesOnly (Cause.canArise whole) seen :=
  (refusesOnly_expect (.inl h)).bind fun _ =>
    (refusesOnly_separatedBy (refusesOnly_inheritanceSpecifier limit) limit).bind fun _ =>
      refusesOnly_pure _

theorem refusesOnly_contractBody (limit count : Nat) :
    (contractBody limit count).RefusesOnly (Cause.canArise whole) seen := by
  induction count generalizing seen with
  | zero => exact (refusesOnly_expect (.inr rfl)).bind fun _ => refusesOnly_pure _
  | succ count ih =>
      apply RefusesOnly.peek_bind
      intro t
      split
      · exact refusesOnly_next.bind fun _ => refusesOnly_pure _
      · exact (refusesOnly_functionDefinition limit).bind fun _ =>
          ih.bind fun _ => refusesOnly_pure _
      · exact refusesOnly_refuseAt rfl
      · exact refusesOnly_refuseAt rfl

theorem refusesOnly_contractDefinition (limit : Nat) :
    (contractDefinition limit).RefusesOnly (Cause.canArise whole) seen := by
  apply refusesOnly_accept?.bind
  intro abstractKeyword
  apply (refusesOnly_expect (.inr rfl)).bind
  intro keyword
  apply refusesOnly_identifier.bind
  intro name
  apply (refusesOnly_whenNext fun t ht => refusesOnly_inheritance limit ⟨t, rfl, ht⟩).bind
  intro inheritance
  apply (refusesOnly_expect (.inr rfl)).bind
  intro lbrace
  exact (refusesOnly_contractBody limit limit).bind fun _ => refusesOnly_pure _

theorem refusesOnly_logParsed (construct : Construct) (span : Span) (earlier : Option Span) :
    (logParsed construct span earlier).RefusesOnly (Cause.canArise whole) seen := by
  cases earlier <;> exact trivial

/-- By induction on the count: a directive starts with the keyword that was looked at. -/
theorem refusesOnly_constructs (limit count : Nat) (unit : SourceUnit) :
    (constructs limit count unit).RefusesOnly (Cause.canArise whole) seen := by
  induction count generalizing unit seen with
  | zero => exact refusesOnly_pure unit
  | succ count ih =>
      apply RefusesOnly.peek_bind
      intro t
      apply RefusesOnly.log_bind
      split
      · exact refusesOnly_pure unit
      · next ht =>
          exact (refusesOnly_pragmaDirective limit (.inl ⟨t, rfl, ht⟩)).bind fun d =>
            (refusesOnly_logParsed _ _ _).bind fun _ => ih _
      · next ht =>
          exact (refusesOnly_importDirective limit (.inl ⟨t, rfl, ht⟩)).bind fun d =>
            (refusesOnly_logParsed _ _ _).bind fun _ => ih _
      · exact (refusesOnly_contractDefinition limit).bind fun c =>
          (refusesOnly_logParsed _ _ _).bind fun _ => ih _
      · exact (refusesOnly_contractDefinition limit).bind fun c =>
          (refusesOnly_logParsed _ _ _).bind fun _ => ih _
      · exact (refusesOnly_functionDefinition limit).bind fun f =>
          (refusesOnly_logParsed _ _ _).bind fun _ => ih _
      · exact refusesOnly_refuseAt rfl

end Grammar

open Grammar in
theorem Production.refusesOnly {α : Type} (production : Production α) (limit : Nat) :
    (production.rule limit).RefusesOnly (Cause.canArise production.isWhole) none := by
  cases production with
  | sourceUnit => exact refusesOnly_constructs limit limit .empty
  | pragmaDirective => exact refusesOnly_pragmaDirective limit (.inr rfl)
  | importDirective => exact refusesOnly_importDirective limit (.inr rfl)
  | importPath => exact refusesOnly_importPath
  | importSymbols => exact refusesOnly_importSymbols limit
  | importWildcard => exact refusesOnly_importWildcard (.inr rfl)
  | path => exact refusesOnly_path
  | symbolAliases => exact refusesOnly_symbolAliases limit
  | symbolAlias => exact refusesOnly_symbolAlias
  | identifier => exact refusesOnly_identifier
  | identifierPath => exact refusesOnly_identifierPath limit
  | contractDefinition => exact refusesOnly_contractDefinition limit
  | inheritanceSpecifier => exact refusesOnly_inheritanceSpecifier limit
  | functionDefinition => exact refusesOnly_functionDefinition limit
  | visibility => exact refusesOnly_visibility (.inr rfl)
  | stateMutability => exact refusesOnly_stateMutability (.inr rfl)
  | typeName => exact refusesOnly_typeName
  | elementaryTypeName => exact refusesOnly_elementaryTypeName (.inr rfl)
  | parameterList => exact refusesOnly_parameterList limit
  | parameter => exact refusesOnly_parameter
  | block => exact refusesOnly_block
  | statement => exact refusesOnly_statement
  | returnStatement => exact refusesOnly_returnStatement (.inr rfl)
  | expression => exact refusesOnly_expression
  | literal => exact refusesOnly_literal (.inr rfl)
  | callArgumentList => exact refusesOnly_callArgumentList limit

end SoliditySource
