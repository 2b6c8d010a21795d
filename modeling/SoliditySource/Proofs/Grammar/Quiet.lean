import SoliditySource.Grammar.Contract
import SoliditySource.Rule.Run

/-! # Rules that are quiet at the top level

The events of the top level tell which construct is about to be read and which one has been
read. Only the rule for a source unit notes such events: the rules for the constructs and for
their parts are quiet, so that what a source unit notes at the top level is what its own loop
notes there.
-/

namespace SoliditySource

namespace Event

/-- Holds of the events that tell of the top level: what is told at the debug level, and the
dispatches. -/
def isTopLevel (event : Event) : Bool :=
  event.level = .debug || event.message = "top-level dispatch"

@[simp] theorem isTopLevel_dispatch (kind : TokenKind) (position : Position) :
    (dispatch kind position).isTopLevel = true := rfl

@[simp] theorem isTopLevel_parsed (construct : Construct) (span : Span) :
    (parsed construct span).isTopLevel = true := rfl

@[simp] theorem isTopLevel_replaced (construct : Construct) (position : Position) :
    (replaced construct position).isTopLevel = true := rfl

@[simp] theorem isTopLevel_choosing (choice : Choice) (kind : TokenKind) :
    (choosing choice kind).isTopLevel = false := by
  cases choice <;> rfl

end Event

namespace Rule

variable {α β : Type} {rule : Rule α} {kind : TokenKind} {cause : Cause} {part : Missing}

/-- No run of the rule notes an event of the top level. -/
def Quiet (rule : Rule α) : Prop :=
  ∀ r : TokenReader, (rule.run r).events.filter Event.isTopLevel = []

/-! ## The combinators -/

theorem quiet_pure (a : α) : (pure a : Rule α).Quiet := fun _ => rfl

theorem quiet_refuseAt (t : Token) : (refuseAt t cause : Rule α).Quiet := fun _ => rfl

theorem quiet_peek : peek.Quiet := by
  intro r
  rw [peek, run]
  split <;> rfl

theorem quiet_next : next.Quiet := by
  intro r
  rw [next, run]
  split <;> rfl

theorem quiet_log {event : Event} (h : event.isTopLevel = false) : (log event).Quiet := by
  intro r
  simp [log, run, h]

theorem Quiet.bind {f : α → Rule β} (h : rule.Quiet) (hf : ∀ a, (f a).Quiet) :
    (rule >>= f).Quiet := by
  intro r
  rw [run_bind]
  cases (rule.run r).result with
  | ok a => simp [h r, hf a (rule.run r).reader]
  | error e => exact h r

theorem Quiet.map (h : rule.Quiet) (f : α → β) : (f <$> rule).Quiet := by
  rw [← bind_pure_comp]
  exact h.bind fun a => quiet_pure (f a)

theorem quiet_choose {choice : Choice} : (choose choice).Quiet :=
  quiet_peek.bind fun t =>
    (quiet_log (Event.isTopLevel_choosing choice t.kind)).bind fun _ => quiet_pure t

theorem quiet_takeIf {fits : TokenKind → Bool} : (takeIf fits cause).Quiet := by
  apply quiet_next.bind
  intro t
  split
  · exact quiet_pure t
  · exact quiet_refuseAt t

theorem quiet_expect : (expect kind part).Quiet := quiet_takeIf

theorem quiet_whenNext (h : rule.Quiet) : (whenNext kind rule).Quiet := by
  apply quiet_peek.bind
  intro t
  split
  · exact h.map some
  · exact quiet_pure none

theorem quiet_accept? : (accept? kind).Quiet := quiet_whenNext quiet_next

theorem quiet_separatedBy {separator : TokenKind} (h : rule.Quiet) (limit : Nat) :
    (separatedBy separator rule limit).Quiet := by
  induction limit with
  | zero => exact h.bind fun a => quiet_pure _
  | succ limit ih =>
      apply h.bind
      intro a
      apply quiet_accept?.bind
      intro o
      cases o with
      | none => exact quiet_pure _
      | some mark => exact ih.bind fun rest => quiet_pure _

end Rule

namespace Grammar

open Rule

/-! ## Names, types and expressions -/

theorem quiet_identifier : identifier.Quiet := quiet_takeIf

theorem quiet_identifierPath (limit : Nat) : (identifierPath limit).Quiet :=
  (quiet_separatedBy quiet_identifier limit).bind fun _ => quiet_pure _

theorem quiet_rename : rename.Quiet := by
  apply quiet_accept?.bind
  intro o
  cases o with
  | none => exact quiet_pure _
  | some keyword => exact quiet_identifier.bind fun _ => quiet_pure _

theorem quiet_elementaryTypeName : elementaryTypeName.Quiet := by
  apply quiet_takeIf.bind
  intro name
  split
  · exact quiet_accept?.bind fun _ => quiet_pure _
  · exact quiet_pure _

theorem quiet_typeName : typeName.Quiet := by
  apply quiet_choose.bind
  intro t
  split
  · exact quiet_elementaryTypeName.map _
  · exact quiet_refuseAt t

theorem quiet_parameterList (limit : Nat) : (parameterList limit).Quiet :=
  (quiet_separatedBy (quiet_typeName.map _) limit).bind fun _ => quiet_pure _

theorem quiet_literal : literal.Quiet := by
  apply quiet_next.bind
  intro t
  split
  · exact quiet_pure _
  · exact quiet_refuseAt t

theorem quiet_expression : expression.Quiet := by
  apply quiet_choose.bind
  intro t
  split
  · exact quiet_literal.map _
  · split
    · exact quiet_identifier.map _
    · exact quiet_refuseAt t

theorem quiet_namedArgument : namedArgument.Quiet :=
  quiet_identifier.bind fun _ => quiet_expect.bind fun _ =>
    quiet_expression.bind fun _ => quiet_pure _

theorem quiet_namedArguments (limit : Nat) : (namedArguments limit).Quiet :=
  quiet_expect.bind fun _ => (quiet_separatedBy quiet_namedArgument limit).bind fun _ =>
    quiet_expect.bind fun _ => quiet_pure _

theorem quiet_callArguments (limit : Nat) : (callArguments limit).Quiet := by
  apply quiet_peek.bind
  intro t
  split
  · exact quiet_pure _
  · exact (quiet_namedArguments limit).map _
  · exact (quiet_separatedBy quiet_expression limit).map _

theorem quiet_callArgumentList (limit : Nat) : (callArgumentList limit).Quiet :=
  quiet_expect.bind fun _ => (quiet_callArguments limit).bind fun _ =>
    quiet_expect.bind fun _ => quiet_pure _

/-! ## Functions -/

theorem quiet_returnStatement : returnStatement.Quiet :=
  quiet_expect.bind fun _ => quiet_expression.bind fun _ =>
    quiet_expect.bind fun _ => quiet_pure _

theorem quiet_statement : statement.Quiet := by
  apply quiet_choose.bind
  intro t
  split
  · exact quiet_returnStatement.map _
  · exact quiet_refuseAt t

theorem quiet_block : block.Quiet :=
  quiet_expect.bind fun _ => quiet_statement.bind fun _ =>
    quiet_expect.bind fun _ => quiet_pure _

theorem quiet_modifiers (limit : Nat) (found : Modifiers) : (modifiers limit found).Quiet := by
  induction limit generalizing found with
  | zero => exact quiet_pure found
  | succ limit ih =>
      apply quiet_peek.bind
      intro t
      split
      · exact Quiet.bind quiet_takeIf fun _ => ih _
      · split
        · exact Quiet.bind quiet_takeIf fun _ => ih _
        · exact quiet_pure found

theorem quiet_functionDescriptor : functionDescriptor.Quiet := by
  apply quiet_peek.bind
  intro t
  split
  · exact quiet_next
  · exact quiet_next
  · exact quiet_identifier

theorem quiet_functionReturns (limit : Nat) : (functionReturns limit).Quiet :=
  quiet_expect.bind fun _ => quiet_expect.bind fun _ =>
    (quiet_parameterList limit).bind fun _ => quiet_expect.bind fun _ => quiet_pure _

theorem quiet_functionDefinition (limit : Nat) : (functionDefinition limit).Quiet :=
  quiet_expect.bind fun _ => quiet_functionDescriptor.bind fun _ =>
    quiet_expect.bind fun _ => quiet_expect.bind fun _ =>
      (quiet_modifiers limit _).bind fun _ =>
        (quiet_whenNext (quiet_functionReturns limit)).bind fun _ =>
          quiet_block.bind fun _ => quiet_pure _

/-! ## Directives -/

theorem quiet_pragmaRest (limit : Nat) : (pragmaRest limit).Quiet := by
  induction limit with
  | zero => exact quiet_expect.bind fun _ => quiet_pure _
  | succ limit ih =>
      apply quiet_next.bind
      intro t
      split
      · exact quiet_pure _
      · exact quiet_refuseAt t
      · exact ih.bind fun _ => quiet_pure _

theorem quiet_pragmaDirective (limit : Nat) : (pragmaDirective limit).Quiet := by
  apply quiet_expect.bind
  intro keyword
  apply quiet_next.bind
  intro first
  split
  · exact quiet_refuseAt first
  · exact quiet_refuseAt first
  · exact (quiet_pragmaRest limit).bind fun _ => quiet_pure _

theorem quiet_importPath : importPath.Quiet :=
  Quiet.bind quiet_expect fun _ => quiet_rename.bind fun _ => quiet_pure _

theorem quiet_symbolAlias : symbolAlias.Quiet :=
  quiet_identifier.bind fun _ => quiet_rename.bind fun _ => quiet_pure _

theorem quiet_symbolAliases (limit : Nat) : (symbolAliases limit).Quiet :=
  quiet_expect.bind fun _ => (quiet_separatedBy quiet_symbolAlias limit).bind fun _ =>
    quiet_expect.bind fun _ => quiet_pure _

theorem quiet_importSymbols (limit : Nat) : (importSymbols limit).Quiet :=
  (quiet_symbolAliases limit).bind fun _ => quiet_expect.bind fun _ =>
    Quiet.bind quiet_expect fun _ => quiet_pure _

theorem quiet_importWildcard : importWildcard.Quiet :=
  quiet_expect.bind fun _ => quiet_expect.bind fun _ => quiet_identifier.bind fun _ =>
    quiet_expect.bind fun _ => Quiet.bind quiet_expect fun _ => quiet_pure _

theorem quiet_importElement (limit : Nat) : (importElement limit).Quiet := by
  apply quiet_choose.bind
  intro t
  split
  · exact quiet_importPath.map _
  · exact (quiet_importSymbols limit).map _
  · exact quiet_importWildcard.map _
  · exact quiet_refuseAt t

theorem quiet_importDirective (limit : Nat) : (importDirective limit).Quiet :=
  quiet_expect.bind fun _ => (quiet_importElement limit).bind fun _ =>
    quiet_expect.bind fun _ => quiet_pure _

/-! ## Contracts -/

theorem quiet_inheritanceSpecifier (limit : Nat) : (inheritanceSpecifier limit).Quiet :=
  (quiet_identifierPath limit).bind fun _ =>
    (quiet_whenNext (quiet_callArgumentList limit)).bind fun _ => quiet_pure _

theorem quiet_inheritance (limit : Nat) : (inheritance limit).Quiet :=
  quiet_expect.bind fun _ =>
    (quiet_separatedBy (quiet_inheritanceSpecifier limit) limit).bind fun _ => quiet_pure _

theorem quiet_contractBody (limit count : Nat) : (contractBody limit count).Quiet := by
  induction count with
  | zero => exact quiet_expect.bind fun _ => quiet_pure _
  | succ count ih =>
      apply quiet_peek.bind
      intro t
      split
      · exact quiet_next.bind fun _ => quiet_pure _
      · exact (quiet_functionDefinition limit).bind fun _ => ih.bind fun _ => quiet_pure _
      · exact quiet_refuseAt t
      · exact quiet_refuseAt t

theorem quiet_contractDefinition (limit : Nat) : (contractDefinition limit).Quiet :=
  quiet_accept?.bind fun _ => quiet_expect.bind fun _ => quiet_identifier.bind fun _ =>
    (quiet_whenNext (quiet_inheritance limit)).bind fun _ => quiet_expect.bind fun _ =>
      (quiet_contractBody limit limit).bind fun _ => quiet_pure _

end Grammar

end SoliditySource
