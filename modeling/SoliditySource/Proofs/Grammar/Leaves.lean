import SoliditySource.Proofs.Grammar.Construct
import SoliditySource.Proofs.Rule.Leaves

/-! # What the rules of the grammar leave

A rule that has to choose looks at the next token first, and leaves it when there is nothing to
choose. A rule that needs a certain token takes it, and does not put it back.
-/

namespace SoliditySource

/-- Holds of the causes that a look at the next token brings about. A function definition that
is read as a part of something else is looked for; elsewhere its keyword is taken. -/
def Cause.isLookedAt (nested : Bool) : Cause → Bool
  | invalidToken => true
  | missing .functionKeyword => nested
  | missing .importElement => true
  | missing .bodyEnd => true
  | missing .typeName => true
  | missing .statement => true
  | missing .expression => true
  | _ => false

namespace Grammar

open Rule

variable {nested : Bool} {eos : Token} {n : Nat} {seen : Option Token}

/-! ## Names, types and expressions -/

theorem leaves_identifier : identifier.Leaves (Cause.isLookedAt nested) eos n seen :=
  leaves_takeIf rfl

theorem leaves_identifierPath (limit : Nat) :
    (identifierPath limit).Leaves (Cause.isLookedAt nested) eos n seen :=
  (leaves_separatedBy leaves_identifier limit).bind fun _ => leaves_pure _

theorem leaves_rename : rename.Leaves (Cause.isLookedAt nested) eos n seen := by
  apply leaves_accept?.bind
  intro o
  cases o with
  | none => exact leaves_pure _
  | some keyword => exact leaves_identifier.bind fun name => leaves_pure _

theorem leaves_elementaryTypeName :
    elementaryTypeName.Leaves (Cause.isLookedAt nested) eos n seen := by
  apply (leaves_takeIf rfl).bind
  intro name
  split
  · exact leaves_accept?.bind fun payable => leaves_pure _
  · exact leaves_pure _

theorem leaves_typeName : typeName.Leaves (Cause.isLookedAt nested) eos n seen := by
  apply Leaves.choose_bind
  intro t
  split
  · exact leaves_elementaryTypeName.map _
  · exact leaves_refuseAt rfl

theorem leaves_parameter : parameter.Leaves (Cause.isLookedAt nested) eos n seen :=
  leaves_typeName.map _

theorem leaves_parameterList (limit : Nat) :
    (parameterList limit).Leaves (Cause.isLookedAt nested) eos n seen :=
  (leaves_separatedBy leaves_parameter limit).bind fun _ => leaves_pure _

theorem leaves_literal : literal.Leaves (Cause.isLookedAt nested) eos n seen := by
  apply Leaves.next_bind
  intro t
  split
  · exact .inl (leaves_pure _)
  · exact .inr ⟨_, rfl, rfl⟩

theorem leaves_expression : expression.Leaves (Cause.isLookedAt nested) eos n seen := by
  apply Leaves.choose_bind
  intro t
  split
  · exact leaves_literal.map _
  · split
    · exact leaves_identifier.map _
    · exact leaves_refuseAt rfl

theorem leaves_namedArgument : namedArgument.Leaves (Cause.isLookedAt nested) eos n seen := by
  apply leaves_identifier.bind
  intro name
  apply (leaves_expect rfl).bind
  intro colon
  exact leaves_expression.bind fun value => leaves_pure _

theorem leaves_namedArguments (limit : Nat) :
    (namedArguments limit).Leaves (Cause.isLookedAt nested) eos n seen := by
  apply (leaves_expect rfl).bind
  intro lbrace
  apply (leaves_separatedBy leaves_namedArgument limit).bind
  intro arguments
  exact (leaves_expect rfl).bind fun rbrace => leaves_pure _

theorem leaves_callArguments (limit : Nat) :
    (callArguments limit).Leaves (Cause.isLookedAt nested) eos n seen := by
  apply Leaves.peek_bind
  intro t
  split
  · exact leaves_pure _
  · exact (leaves_namedArguments limit).map _
  · exact (leaves_separatedBy leaves_expression limit).map _

theorem leaves_callArgumentList (limit : Nat) :
    (callArgumentList limit).Leaves (Cause.isLookedAt nested) eos n seen := by
  apply (leaves_expect rfl).bind
  intro lparen
  apply (leaves_callArguments limit).bind
  intro arguments
  exact (leaves_expect rfl).bind fun rparen => leaves_pure _

/-! ## Functions -/

theorem leaves_returnStatement : returnStatement.Leaves (Cause.isLookedAt nested) eos n seen := by
  apply (leaves_expect rfl).bind
  intro keyword
  apply leaves_expression.bind
  intro value
  exact (leaves_expect rfl).bind fun semicolon => leaves_pure _

theorem leaves_statement : statement.Leaves (Cause.isLookedAt nested) eos n seen := by
  apply Leaves.choose_bind
  intro t
  split
  · exact leaves_returnStatement.map _
  · exact leaves_refuseAt rfl

theorem leaves_block : block.Leaves (Cause.isLookedAt nested) eos n seen := by
  apply (leaves_expect rfl).bind
  intro lbrace
  apply leaves_statement.bind
  intro statement
  exact (leaves_expect rfl).bind fun rbrace => leaves_pure _

theorem leaves_visibility : visibility.Leaves (Cause.isLookedAt nested) eos n seen :=
  leaves_takeIf rfl

theorem leaves_stateMutability : stateMutability.Leaves (Cause.isLookedAt nested) eos n seen :=
  leaves_takeIf rfl

theorem leaves_modifiers (limit : Nat) (found : Modifiers) :
    (modifiers limit found).Leaves (Cause.isLookedAt nested) eos n seen := by
  induction limit generalizing found seen with
  | zero => exact leaves_pure _
  | succ limit ih =>
      apply Leaves.peek_bind
      intro t
      split
      · exact leaves_visibility.bind fun keyword => ih _
      · split
        · exact leaves_stateMutability.bind fun keyword => ih _
        · exact leaves_pure _

theorem leaves_functionDescriptor :
    functionDescriptor.Leaves (Cause.isLookedAt nested) eos n seen := by
  apply Leaves.peek_bind
  intro t
  split
  · exact leaves_next
  · exact leaves_next
  · exact leaves_identifier

theorem leaves_functionReturns (limit : Nat) :
    (functionReturns limit).Leaves (Cause.isLookedAt nested) eos n seen := by
  apply (leaves_expect rfl).bind
  intro keyword
  apply (leaves_expect rfl).bind
  intro lparen
  apply (leaves_parameterList limit).bind
  intro parameters
  exact (leaves_expect rfl).bind fun rparen => leaves_pure _

/-- The keyword of a function that is read as a part of something else has been looked at, so
that taking it does not fail. -/
theorem leaves_functionDefinition (limit : Nat)
    (h : nested = true → ∃ t ∈ seen, t.kind = .kwFunction) :
    (functionDefinition limit).Leaves (Cause.isLookedAt nested) eos n seen := by
  have hkeyword : (expect .kwFunction .functionKeyword).Leaves
      (Cause.isLookedAt nested) eos n seen := by
    cases nested with
    | false => exact leaves_expect rfl
    | true =>
        obtain ⟨t, hseen, hk⟩ := h rfl
        intro ts hlen hts
        have ht : (ts.headD eos).kind = .kwFunction := by rw [← hts t hseen, hk]
        rw [expect, takeIf, follow_next_bind, head?_or_eq]
        dsimp only
        rw [if_pos (by simpa using ht)]
        exact List.tail_suffix ts
  apply hkeyword.bind
  intro keyword
  apply leaves_functionDescriptor.bind
  intro descriptor
  apply (leaves_expect rfl).bind
  intro lparen
  apply (leaves_expect rfl).bind
  intro rparen
  apply (leaves_modifiers limit _).bind
  intro modifiers
  apply (leaves_whenNext (leaves_functionReturns limit)).bind
  intro returns
  exact leaves_block.bind fun body => leaves_pure _

/-! ## Directives -/

theorem leaves_pragmaRest (limit : Nat) :
    (pragmaRest limit).Leaves (Cause.isLookedAt nested) eos n seen := by
  induction limit generalizing seen with
  | zero => exact (leaves_expect rfl).bind fun semicolon => leaves_pure _
  | succ limit ih =>
      apply Leaves.next_bind
      intro t
      split
      · exact .inl (leaves_pure _)
      · exact .inr ⟨_, rfl, rfl⟩
      · exact .inl (ih.bind fun rest => leaves_pure _)

theorem leaves_pragmaDirective (limit : Nat) :
    (pragmaDirective limit).Leaves (Cause.isLookedAt nested) eos n seen := by
  apply (leaves_expect rfl).bind
  intro keyword
  apply Leaves.next_bind
  intro first
  split
  · exact .inr ⟨_, rfl, rfl⟩
  · exact .inr ⟨_, rfl, rfl⟩
  · exact .inl ((leaves_pragmaRest limit).bind fun rest => leaves_pure _)

theorem leaves_path : path.Leaves (Cause.isLookedAt nested) eos n seen :=
  leaves_expect rfl

theorem leaves_importPath : importPath.Leaves (Cause.isLookedAt nested) eos n seen := by
  apply leaves_path.bind
  intro path
  exact leaves_rename.bind fun rename => leaves_pure _

theorem leaves_symbolAlias : symbolAlias.Leaves (Cause.isLookedAt nested) eos n seen := by
  apply leaves_identifier.bind
  intro symbol
  exact leaves_rename.bind fun rename => leaves_pure _

theorem leaves_symbolAliases (limit : Nat) :
    (symbolAliases limit).Leaves (Cause.isLookedAt nested) eos n seen := by
  apply (leaves_expect rfl).bind
  intro lbrace
  apply (leaves_separatedBy leaves_symbolAlias limit).bind
  intro entries
  exact (leaves_expect rfl).bind fun rbrace => leaves_pure _

theorem leaves_importSymbols (limit : Nat) :
    (importSymbols limit).Leaves (Cause.isLookedAt nested) eos n seen := by
  apply (leaves_symbolAliases limit).bind
  intro symbols
  apply (leaves_expect rfl).bind
  intro fromKeyword
  exact leaves_path.bind fun path => leaves_pure _

theorem leaves_importWildcard : importWildcard.Leaves (Cause.isLookedAt nested) eos n seen := by
  apply (leaves_expect rfl).bind
  intro asterisk
  apply (leaves_expect rfl).bind
  intro asKeyword
  apply leaves_identifier.bind
  intro name
  apply (leaves_expect rfl).bind
  intro fromKeyword
  exact leaves_path.bind fun path => leaves_pure _

theorem leaves_importElement (limit : Nat) :
    (importElement limit).Leaves (Cause.isLookedAt nested) eos n seen := by
  apply Leaves.choose_bind
  intro t
  split
  · exact leaves_importPath.map _
  · exact (leaves_importSymbols limit).map _
  · exact leaves_importWildcard.map _
  · exact leaves_refuseAt rfl

theorem leaves_importDirective (limit : Nat) :
    (importDirective limit).Leaves (Cause.isLookedAt nested) eos n seen := by
  apply (leaves_expect rfl).bind
  intro keyword
  apply (leaves_importElement limit).bind
  intro element
  exact (leaves_expect rfl).bind fun semicolon => leaves_pure _

/-! ## Contracts and source units -/

theorem leaves_inheritanceSpecifier (limit : Nat) :
    (inheritanceSpecifier limit).Leaves (Cause.isLookedAt nested) eos n seen := by
  apply (leaves_identifierPath limit).bind
  intro path
  exact (leaves_whenNext (leaves_callArgumentList limit)).bind fun arguments => leaves_pure _

theorem leaves_inheritance (limit : Nat) :
    (inheritance limit).Leaves (Cause.isLookedAt nested) eos n seen := by
  apply (leaves_expect rfl).bind
  intro isKeyword
  exact (leaves_separatedBy (leaves_inheritanceSpecifier limit) limit).bind fun entries =>
    leaves_pure _

/-- By induction on the count, which is not below the number of tokens: a member takes some. -/
theorem leaves_contractBody (heos : eos.kind = .eos) {limit count : Nat} (hle : count ≤ limit)
    (hn : n ≤ count) : (contractBody limit count).Leaves (Cause.isLookedAt true) eos n seen := by
  induction count generalizing n seen with
  | zero => exact fun ts hlen => absurd hlen (by omega)
  | succ count ih =>
      apply Leaves.peek_bind
      intro t
      split
      · exact leaves_next.bind fun rbrace => leaves_pure _
      · next hk =>
          have hfunction : (functionDefinition limit).Leaves (Cause.isLookedAt true) eos n
              (some t) := leaves_functionDefinition limit fun _ => ⟨t, rfl, hk⟩
          intro ts hlen hts
          have hv := hfunction ts hlen hts
          have hsound := (Recognizes.functionDefinition (n := limit)).sound (some eos) ts
            (by simpa [IsEnd] using heos) (by omega)
          rw [follow_bind]
          refine hv.bind fun function rest hvalue => ?_
          rw [hvalue] at hsound
          have hlt := hsound.length_lt rfl
          have hmembers : (contractBody limit count).Leaves (Cause.isLookedAt true) eos count
              none := ih (by omega) (Nat.le_refl _)
          have hbody := hmembers.bind fun body =>
            leaves_pure (ContractMember.function function :: body.1, body.2)
          exact hbody rest (by omega) (by simp)
      · exact leaves_refuseAt rfl
      · exact leaves_refuseAt rfl

theorem leaves_contractDefinition (heos : eos.kind = .eos) (limit : Nat) :
    (contractDefinition limit).Leaves (Cause.isLookedAt true) eos limit seen := by
  apply leaves_accept?.bind
  intro abstractKeyword
  apply (leaves_expect rfl).bind
  intro keyword
  apply leaves_identifier.bind
  intro name
  apply (leaves_whenNext (leaves_inheritance limit)).bind
  intro inheritance
  apply (leaves_expect rfl).bind
  intro lbrace
  exact (leaves_contractBody heos (Nat.le_refl _) (Nat.le_refl _)).bind fun body => leaves_pure _

theorem leaves_logParsed (construct : Construct) (span : Span) (earlier : Option Span) :
    (logParsed construct span earlier).Leaves (Cause.isLookedAt nested) eos n seen := by
  cases earlier <;> exact fun ts _ _ => List.suffix_rfl

theorem leaves_construct (heos : eos.kind = .eos) (limit : Nat) {c : Construct}
    (h : ∃ t ∈ seen, t.kind.construct? = some c) :
    (c.rule limit).Leaves (Cause.isLookedAt true) eos limit seen := by
  cases c with
  | pragmaDirective => exact (leaves_pragmaDirective limit).map _
  | importDirective => exact (leaves_importDirective limit).map _
  | contractDefinition => exact (leaves_contractDefinition heos limit).map _
  | functionDefinition =>
      obtain ⟨t, hseen, hc⟩ := h
      have hk : t.kind = .kwFunction := by
        cases hk : t.kind <;> rw [hk] at hc <;> cases hc
      exact (leaves_functionDefinition limit fun _ => ⟨t, hseen, hk⟩).map _

theorem leaves_constructs (heos : eos.kind = .eos) (limit count : Nat) (unit : SourceUnit) :
    (constructs limit count unit).Leaves (Cause.isLookedAt true) eos limit seen := by
  induction count generalizing unit seen with
  | zero => exact leaves_pure unit
  | succ count ih =>
      rw [constructs_succ]
      apply Leaves.peek_bind
      intro t
      apply Leaves.log_bind
      split
      · next c hc =>
          exact (leaves_construct heos limit ⟨t, rfl, hc⟩).bind fun item =>
            (leaves_logParsed _ _ _).bind fun _ => ih _
      · split
        · exact leaves_pure unit
        · exact leaves_refuseAt rfl

end Grammar

/-- Holds of the causes for which a production leaves the token that it refuses. -/
def Production.isLookedAt {α : Type} : Production α → Cause → Bool
  | functionDefinition => Cause.isLookedAt false
  | _ => Cause.isLookedAt true

open Grammar in
theorem Production.leaves {α : Type} (production : Production α) {eos : Token}
    (heos : eos.kind = .eos) (limit : Nat) :
    (production.rule limit).Leaves production.isLookedAt eos limit none := by
  cases production with
  | sourceUnit => exact leaves_constructs heos limit limit .empty
  | pragmaDirective => exact leaves_pragmaDirective limit
  | importDirective => exact leaves_importDirective limit
  | importPath => exact leaves_importPath
  | importSymbols => exact leaves_importSymbols limit
  | importWildcard => exact leaves_importWildcard
  | path => exact leaves_path
  | symbolAliases => exact leaves_symbolAliases limit
  | symbolAlias => exact leaves_symbolAlias
  | identifier => exact leaves_identifier
  | identifierPath => exact leaves_identifierPath limit
  | contractDefinition => exact leaves_contractDefinition heos limit
  | inheritanceSpecifier => exact leaves_inheritanceSpecifier limit
  | functionDefinition => exact leaves_functionDefinition limit (by simp)
  | visibility => exact leaves_visibility
  | stateMutability => exact leaves_stateMutability
  | typeName => exact leaves_typeName
  | elementaryTypeName => exact leaves_elementaryTypeName
  | parameterList => exact leaves_parameterList limit
  | parameter => exact leaves_parameter
  | block => exact leaves_block
  | statement => exact leaves_statement
  | returnStatement => exact leaves_returnStatement
  | expression => exact leaves_expression
  | literal => exact leaves_literal
  | callArgumentList => exact leaves_callArgumentList limit

end SoliditySource
