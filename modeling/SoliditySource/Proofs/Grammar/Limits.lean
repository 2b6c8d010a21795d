import SoliditySource.Proofs.Rule.Limit
import SoliditySource.Production

/-! # The limits of the grammar are never met

A production is read the same way with every limit above the weight of the reader, so what
the limit is set to makes no difference.
-/

namespace SoliditySource

namespace Grammar

open Rule

variable {n l l' : Nat}

/-! ## Names, types and expressions -/

theorem alike_identifierPath (hl : n ≤ l) (hl' : n ≤ l') :
    Alike n (identifierPath l) (identifierPath l') :=
  ((Alike.refl identifier).separatedBy (by decide) hl hl').bind fun _ => .refl _

theorem alike_parameterList (hl : n ≤ l) (hl' : n ≤ l') :
    Alike n (parameterList l) (parameterList l') :=
  ((Alike.refl parameter).separatedBy (by decide) hl hl').bind fun _ => .refl _

theorem alike_namedArguments (hl : n ≤ l) (hl' : n ≤ l') :
    Alike n (namedArguments l) (namedArguments l') := by
  apply (Alike.refl _).bind
  intro lbrace
  exact ((Alike.refl namedArgument).separatedBy (by decide) hl hl').bind fun _ => .refl _

theorem alike_callArguments (hl : n ≤ l) (hl' : n ≤ l') :
    Alike n (callArguments l) (callArguments l') := by
  apply (Alike.refl peek).bind
  intro t
  split
  · exact .refl _
  · exact (alike_namedArguments hl hl').map _
  · exact ((Alike.refl expression).separatedBy (by decide) hl hl').map _

theorem alike_callArgumentList (hl : n ≤ l) (hl' : n ≤ l') :
    Alike n (callArgumentList l) (callArgumentList l') := by
  apply (Alike.refl _).bind
  intro lparen
  exact (alike_callArguments hl hl').bind fun _ => .refl _

/-! ## Functions -/

theorem alike_modifiers (hl : n ≤ l) (hl' : n ≤ l') (seen : Modifiers) :
    Alike n (modifiers l seen) (modifiers l' seen) := by
  induction n generalizing l l' seen with
  | zero => exact fun r hr => absurd hr (Nat.not_lt_zero _)
  | succ n ih =>
      obtain ⟨l, rfl⟩ := Nat.exists_eq_add_of_lt hl
      obtain ⟨l', rfl⟩ := Nat.exists_eq_add_of_lt hl'
      apply (Alike.refl peek).bind
      intro t
      split
      · apply (Alike.refl visibility).bind_takes (takes_takeIf rfl)
        intro keyword
        exact ih (Nat.le_add_right n l) (Nat.le_add_right n l') _
      · split
        · apply (Alike.refl stateMutability).bind_takes (takes_takeIf rfl)
          intro keyword
          exact ih (Nat.le_add_right n l) (Nat.le_add_right n l') _
        · exact .refl _

theorem alike_functionReturns (hl : n ≤ l) (hl' : n ≤ l') :
    Alike n (functionReturns l) (functionReturns l') := by
  apply (Alike.refl _).bind
  intro keyword
  apply (Alike.refl _).bind
  intro lparen
  exact (alike_parameterList hl hl').bind fun _ => .refl _

theorem alike_functionDefinition (hl : n ≤ l) (hl' : n ≤ l') :
    Alike n (functionDefinition l) (functionDefinition l') := by
  apply (Alike.refl _).bind
  intro keyword
  apply (Alike.refl functionDescriptor).bind
  intro descriptor
  apply (Alike.refl _).bind
  intro lparen
  apply (Alike.refl _).bind
  intro rparen
  apply (alike_modifiers hl hl' _).bind
  intro modifiers
  exact ((alike_functionReturns hl hl').whenNext _).bind fun _ => .refl _

theorem takes_functionDefinition (l : Nat) : (functionDefinition l).Takes :=
  (takes_expect (by decide)).bind _

/-! ## Directives -/

theorem alike_pragmaRest (hl : n ≤ l) (hl' : n ≤ l') : Alike n (pragmaRest l) (pragmaRest l') := by
  induction n generalizing l l' with
  | zero => exact fun r hr => absurd hr (Nat.not_lt_zero _)
  | succ n ih =>
      obtain ⟨l, rfl⟩ := Nat.exists_eq_add_of_lt hl
      obtain ⟨l', rfl⟩ := Nat.exists_eq_add_of_lt hl'
      apply Alike.next_bind
      · intro t ht
        simp only [ht]
      · intro t ht
        split
        · exact .refl _
        · exact .refl _
        · exact (ih (Nat.le_add_right n l) (Nat.le_add_right n l')).bind fun _ => .refl _

theorem alike_pragmaDirective (hl : n ≤ l) (hl' : n ≤ l') :
    Alike n (pragmaDirective l) (pragmaDirective l') := by
  apply (Alike.refl _).bind
  intro keyword
  apply (Alike.refl next).bind
  intro first
  split
  · exact .refl _
  · exact .refl _
  · exact (alike_pragmaRest hl hl').bind fun _ => .refl _

theorem takes_pragmaDirective (l : Nat) : (pragmaDirective l).Takes :=
  (takes_expect (by decide)).bind _

theorem alike_symbolAliases (hl : n ≤ l) (hl' : n ≤ l') :
    Alike n (symbolAliases l) (symbolAliases l') := by
  apply (Alike.refl _).bind
  intro lbrace
  exact ((Alike.refl symbolAlias).separatedBy (by decide) hl hl').bind fun _ => .refl _

theorem alike_importSymbols (hl : n ≤ l) (hl' : n ≤ l') :
    Alike n (importSymbols l) (importSymbols l') :=
  (alike_symbolAliases hl hl').bind fun _ => .refl _

theorem alike_importElement (hl : n ≤ l) (hl' : n ≤ l') :
    Alike n (importElement l) (importElement l') := by
  apply (Alike.refl _).bind
  intro t
  split
  · exact .refl _
  · exact (alike_importSymbols hl hl').map _
  · exact .refl _
  · exact .refl _

theorem alike_importDirective (hl : n ≤ l) (hl' : n ≤ l') :
    Alike n (importDirective l) (importDirective l') := by
  apply (Alike.refl _).bind
  intro keyword
  exact (alike_importElement hl hl').bind fun _ => .refl _

theorem takes_importDirective (l : Nat) : (importDirective l).Takes :=
  (takes_expect (by decide)).bind _

/-! ## Contracts and source units -/

theorem alike_inheritanceSpecifier (hl : n ≤ l) (hl' : n ≤ l') :
    Alike n (inheritanceSpecifier l) (inheritanceSpecifier l') := by
  apply (alike_identifierPath hl hl').bind
  intro path
  exact ((alike_callArgumentList hl hl').whenNext _).bind fun _ => .refl _

theorem alike_inheritance (hl : n ≤ l) (hl' : n ≤ l') :
    Alike n (inheritance l) (inheritance l') := by
  apply (Alike.refl _).bind
  intro isKeyword
  have hentry := alike_inheritanceSpecifier hl hl'
  exact (hentry.separatedBy (by decide) hl hl').bind fun _ => .refl _

/-- Each member takes a token, so there are fewer members than the limit on their number. -/
theorem alike_contractBody {count count' : Nat} (hl : n ≤ l) (hl' : n ≤ l') (hc : n ≤ count)
    (hc' : n ≤ count') : Alike n (contractBody l count) (contractBody l' count') := by
  induction n generalizing count count' with
  | zero => exact fun r hr => absurd hr (Nat.not_lt_zero _)
  | succ n ih =>
      obtain ⟨count, rfl⟩ := Nat.exists_eq_add_of_lt hc
      obtain ⟨count', rfl⟩ := Nat.exists_eq_add_of_lt hc'
      apply (Alike.refl peek).bind
      intro t
      split
      · exact .refl _
      · apply (alike_functionDefinition hl hl').bind_takes (takes_functionDefinition l)
        intro function
        have hrest := ih (Nat.le_of_succ_le hl) (Nat.le_of_succ_le hl')
          (Nat.le_add_right n count) (Nat.le_add_right n count')
        exact hrest.bind fun _ => .refl _
      · exact .refl _
      · exact .refl _

theorem alike_contractDefinition (hl : n ≤ l) (hl' : n ≤ l') :
    Alike n (contractDefinition l) (contractDefinition l') := by
  apply (Alike.refl _).bind
  intro abstractKeyword
  apply (Alike.refl _).bind
  intro keyword
  apply (Alike.refl identifier).bind
  intro name
  apply ((alike_inheritance hl hl').whenNext _).bind
  intro inheritance
  apply (Alike.refl _).bind
  intro lbrace
  exact (alike_contractBody hl hl' hl hl').bind fun _ => .refl _

theorem takes_contractDefinition (l : Nat) : (contractDefinition l).Takes :=
  .behind _ fun _ => (takes_expect (by decide)).bind _

/-- Each construct takes a token, so there are fewer constructs than the limit on their number. -/
theorem alike_constructs {count count' : Nat} (hl : n ≤ l) (hl' : n ≤ l') (hc : n ≤ count)
    (hc' : n ≤ count') (unit : SourceUnit) :
    Alike n (constructs l count unit) (constructs l' count' unit) := by
  induction n generalizing count count' unit with
  | zero => exact fun r hr => absurd hr (Nat.not_lt_zero _)
  | succ n ih =>
      obtain ⟨count, rfl⟩ := Nat.exists_eq_add_of_lt hc
      obtain ⟨count', rfl⟩ := Nat.exists_eq_add_of_lt hc'
      have hrest := ih (Nat.le_of_succ_le hl) (Nat.le_of_succ_le hl')
        (Nat.le_add_right n count) (Nat.le_add_right n count')
      apply (Alike.refl peek).bind
      intro t
      apply (Alike.refl _).bind
      intro _
      split
      · exact .refl _
      · apply (alike_pragmaDirective hl hl').bind_takes (takes_pragmaDirective l)
        intro d
        exact (Alike.refl _).bind fun _ => hrest _
      · apply (alike_importDirective hl hl').bind_takes (takes_importDirective l)
        intro d
        exact (Alike.refl _).bind fun _ => hrest _
      · apply (alike_contractDefinition hl hl').bind_takes (takes_contractDefinition l)
        intro c
        exact (Alike.refl _).bind fun _ => hrest _
      · apply (alike_contractDefinition hl hl').bind_takes (takes_contractDefinition l)
        intro c
        exact (Alike.refl _).bind fun _ => hrest _
      · apply (alike_functionDefinition hl hl').bind_takes (takes_functionDefinition l)
        intro f
        exact (Alike.refl _).bind fun _ => hrest _
      · exact .refl _

end Grammar

open Grammar Rule

theorem Production.alike_rule {α : Type} (production : Production α) {n l l' : Nat} (hl : n ≤ l)
    (hl' : n ≤ l') : Alike n (production.rule l) (production.rule l') := by
  cases production with
  | sourceUnit => exact alike_constructs hl hl' hl hl' _
  | pragmaDirective => exact alike_pragmaDirective hl hl'
  | importDirective => exact alike_importDirective hl hl'
  | importPath => exact .refl _
  | importSymbols => exact alike_importSymbols hl hl'
  | importWildcard => exact .refl _
  | path => exact .refl _
  | symbolAliases => exact alike_symbolAliases hl hl'
  | symbolAlias => exact .refl _
  | identifier => exact .refl _
  | identifierPath => exact alike_identifierPath hl hl'
  | contractDefinition => exact alike_contractDefinition hl hl'
  | inheritanceSpecifier => exact alike_inheritanceSpecifier hl hl'
  | functionDefinition => exact alike_functionDefinition hl hl'
  | visibility => exact .refl _
  | stateMutability => exact .refl _
  | typeName => exact .refl _
  | elementaryTypeName => exact .refl _
  | parameterList => exact alike_parameterList hl hl'
  | parameter => exact .refl _
  | block => exact .refl _
  | statement => exact .refl _
  | returnStatement => exact .refl _
  | expression => exact .refl _
  | literal => exact .refl _
  | callArgumentList => exact alike_callArgumentList hl hl'

/-- Reading a construct does not depend on the limit, as long as it is above the weight of
the reader. -/
theorem TokenReader.parse_eq_run {α : Type} (r : TokenReader) (production : Production α)
    {limit : Nat} (h : r.weight < limit) :
    r.parse production = (production.rule limit).run r :=
  production.alike_rule (Nat.le_refl _) h r (Nat.lt_succ_self _)

end SoliditySource
