import Mathlib.Data.List.Forall2
import SoliditySource.Proofs.Grammar.Phrases
import SoliditySource.Proofs.Reparse.Nodes

/-! # Phrases at other positions

A phrase stays one when its tokens stand elsewhere, and its tree is then the same tree at the
other positions. Parts of a tree that are still functions are related by what they make of
related arguments.
-/

namespace SoliditySource

open Relator

/-- The second of two trees is what `move` makes of the first. -/
def Becomes {α : Type} (move : α → α) (a a' : α) : Prop := a' = move a

/-- The ends of tokens go where the ends of the tokens at the other positions are. -/
def KeepsEnds (f : Position → Position) (ts : List Token) : Prop :=
  ∀ t ∈ ts, f t.last = (t.relocate f).last

namespace Phrase

variable {α β : Type} {f : Position → Position} {p q : Phrase α} {R : α → α → Prop}
  {S : β → β → Prop}

/-- Its phrases stay phrases at other positions, and their trees are related. -/
def Moves (f : Position → Position) (p : Phrase α) (R : α → α → Prop) : Prop :=
  ∀ ts a, KeepsEnds f ts → p.Spells ts a →
    ∃ a', p.Spells (ts.map (Token.relocate f)) a' ∧ R a a'

/-! ## Ways to build phrases -/

theorem moves_empty {a : α} (h : R a a) : (empty a).Moves f R := by
  rintro _ _ - ⟨rfl, rfl⟩
  exact ⟨_, ⟨rfl, rfl⟩, h⟩

theorem moves_token_last {fits : TokenKind → Bool} :
    (token fits).Moves f fun t t' => t' = t.relocate f ∧ f t.last = t'.last := by
  rintro _ t hends ⟨rfl, ht⟩
  exact ⟨t.relocate f, ⟨rfl, ht⟩, rfl, hends t List.mem_cons_self⟩

theorem Moves.map {g : α → β} (hp : p.Moves f R) (hg : (R ⇒ S) g g) : (g <$> p).Moves f S := by
  rintro ts _ hends ⟨a, ha, rfl⟩
  obtain ⟨a', ha', hr⟩ := hp ts a hends ha
  exact ⟨g a', ⟨a', ha', rfl⟩, hg hr⟩

/-- A tree that is put into a larger one, and moves with it. -/
theorem Moves.wrap {move : α → α} {move' : β → β} {wrap : α → β}
    (hp : p.Moves f (Becomes move)) (hwrap : ∀ a, wrap (move a) = move' (wrap a)) :
    (wrap <$> p).Moves f (Becomes move') := by
  refine hp.map fun a a' ha => ?_
  rw [ha]
  exact hwrap a

theorem Moves.imp {R' : α → α → Prop} (hp : p.Moves f R) (h : ∀ a a', R a a' → R' a a') :
    p.Moves f R' := by
  intro ts a hends ha
  obtain ⟨a', ha', hr⟩ := hp ts a hends ha
  exact ⟨a', ha', h a a' hr⟩

theorem Moves.seq {p : Phrase (α → β)} {q : Phrase α} (hp : p.Moves f (R ⇒ S))
    (hq : q.Moves f R) : (p <*> q).Moves f S := by
  rintro _ _ hends ⟨us, vs, g, a, rfl, hg, ha, rfl⟩
  obtain ⟨g', hg', hs⟩ := hp us g (fun t ht => hends t (List.mem_append_left vs ht)) hg
  obtain ⟨a', ha', hr⟩ := hq vs a (fun t ht => hends t (List.mem_append_right us ht)) ha
  exact ⟨g' a', ⟨_, _, g', a', List.map_append, hg', ha', rfl⟩, hs hr⟩

theorem Moves.either (hp : p.Moves f R) (hq : q.Moves f R) : (either p q).Moves f R := by
  rintro ts a hends (ha | ha)
  · obtain ⟨a', ha', hr⟩ := hp ts a hends ha
    exact ⟨a', .inl ha', hr⟩
  · obtain ⟨a', ha', hr⟩ := hq ts a hends ha
    exact ⟨a', .inr ha', hr⟩

theorem Moves.many (hp : p.Moves f R) : (many p).Moves f (List.Forall₂ R) := by
  intro ts as hends has
  change Repeated p.Spells ts as at has
  induction has with
  | nil => exact ⟨[], .nil, .nil⟩
  | @cons us vs a as ha _ ih =>
      obtain ⟨a', ha', hr⟩ := hp us a (fun t ht => hends t (List.mem_append_left vs ht)) ha
      obtain ⟨as', has', hrs⟩ := ih fun t ht => hends t (List.mem_append_right us ht)
      refine ⟨a' :: as', ?_, .cons hr hrs⟩
      rw [List.map_append]
      exact .cons ha' has'

theorem moves_token {fits : TokenKind → Bool} :
    (token fits).Moves f (Becomes (Token.relocate f)) := moves_token_last.imp fun _ _ h => h.1

theorem moves_mark (kind : TokenKind) : (mark kind).Moves f (Becomes f) :=
  moves_token.wrap fun _ => rfl

variable {move : α → α}

theorem Moves.optional (hp : p.Moves f (Becomes move)) :
    (optional p).Moves f (Becomes (Option.map move)) := by
  refine Moves.either (hp.wrap ?_) (moves_empty rfl)
  exact fun _ => rfl

theorem Moves.list (hp : p.Moves f (Becomes move)) :
    (Phrase.many p).Moves f (Becomes (List.map move)) := by
  refine hp.many.imp fun as as' h => ?_
  induction h with
  | nil => rfl
  | cons h _ ih => rw [h, ih]; rfl

/-! ## Lists -/

theorem entries_relocate (a : α) (rest : List (Position × α)) :
    entries (move a) (rest.map (Prod.map f move)) =
      (entries a rest).map (Separated.relocate f move) := by
  induction rest generalizing a with
  | nil => rfl
  | cons entry rest ih =>
      obtain ⟨q, b⟩ := entry
      rw [entries, List.map_cons, List.map_cons, ← ih b]
      rfl

theorem Moves.separated {separator : TokenKind} (hp : p.Moves f (Becomes move)) :
    (separated separator p).Moves f (Becomes (List.map (Separated.relocate f move))) := by
  have hpair : (Prod.mk <$> mark separator <*> p).Moves f (Becomes (Prod.map f move)) := by
    refine ((moves_mark separator).map ?_).seq hp
    rintro _ _ rfl _ _ rfl
    rfl
  refine (hp.map ?_).seq hpair.list
  rintro a _ rfl rest _ rfl
  exact entries_relocate a rest

theorem Moves.upTo {kind : TokenKind} (hp : p.Moves f (Becomes move)) :
    (upTo kind p).Moves f (Becomes (Prod.map (List.map move) (Token.relocate f))) := by
  refine (hp.list.map ?_).seq moves_token
  rintro _ _ rfl _ _ rfl
  rfl

theorem items_relocate (l : List (Separated α)) :
    Separated.items (l.map (Separated.relocate f move)) = (Separated.items l).map move := by
  rw [Separated.items, Separated.items, List.map_map, List.map_map]
  rfl

theorem separators_relocate (l : List (Separated α)) :
    Separated.separators (l.map (Separated.relocate f move)) =
      (Separated.separators l).map f := by
  rw [Separated.separators, Separated.separators, List.filterMap_map, List.map_filterMap]
  rfl

/-! ## Names and types -/

theorem moves_identifierPath :
    identifierPath.Moves f (Becomes (IdentifierPath.relocate f)) :=
  moves_token.separated.wrap fun _ => rfl

theorem moves_rename : rename.Moves f (Becomes (Option.map (Alias.relocate f))) := by
  refine Moves.optional (((moves_mark _).map ?_).seq moves_token)
  rintro _ _ rfl _ _ rfl
  rfl

theorem moves_elementaryTypeName :
    elementaryTypeName.Moves f (Becomes (ElementaryTypeName.relocate f)) := by
  refine Moves.either ((moves_token.map ?_).seq moves_token.optional) (moves_token.map ?_)
  · rintro _ _ rfl _ _ rfl
    rfl
  · rintro _ _ rfl
    rfl

theorem moves_typeName : typeName.Moves f (Becomes (TypeName.relocate f)) :=
  moves_elementaryTypeName.wrap fun _ => rfl

theorem moves_parameter : parameter.Moves f (Becomes (Parameter.relocate f)) :=
  moves_typeName.wrap fun _ => rfl

theorem moves_parameterList : parameterList.Moves f (Becomes (ParameterList.relocate f)) := by
  refine moves_parameter.separated.map ?_
  rintro l _ rfl
  show ParameterList.mk _ _ = _
  rw [items_relocate, separators_relocate]
  rfl

/-! ## Expressions -/

theorem moves_literal : literal.Moves f (Becomes (Literal.relocate f)) := by
  refine Moves.either (moves_token_last.map ?_) (Moves.either (moves_token.map ?_) (moves_token.map ?_))
  · -- a string keeps its span, and with it the end of its token
    rintro t _ ⟨rfl, hlast⟩
    show Literal.string ⟨t.kind, ⟨f t.position, (t.relocate f).last⟩, t.text⟩ = _
    rw [← hlast]
    rfl
  · rintro _ _ rfl
    rfl
  · rintro _ _ rfl
    rfl

theorem moves_expression : expression.Moves f (Becomes (Expression.relocate f)) := by
  refine Moves.either (moves_literal.wrap ?_) (moves_token.wrap ?_)
  all_goals exact fun _ => rfl

theorem moves_namedArgument : namedArgument.Moves f (Becomes (NamedArgument.relocate f)) := by
  refine ((moves_token.map ?_).seq (moves_mark _)).seq moves_expression
  rintro _ _ rfl _ _ rfl _ _ rfl
  rfl

theorem moves_namedArguments : namedArguments.Moves f (Becomes (NamedArguments.relocate f)) := by
  refine (((moves_mark _).map ?_).seq moves_namedArgument.separated).seq (moves_mark _)
  rintro _ _ rfl _ _ rfl _ _ rfl
  rfl

theorem moves_callArguments : callArguments.Moves f (Becomes (CallArguments.relocate f)) := by
  refine Moves.either (moves_namedArguments.wrap ?_) (moves_expression.separated.wrap ?_)
  all_goals exact fun _ => rfl

theorem moves_closedArguments :
    closedArguments.Moves f (Becomes (Prod.map (CallArguments.relocate f) f)) := by
  refine Moves.either ((moves_mark _).map ?_) ((moves_callArguments.map ?_).seq (moves_mark _))
  · rintro _ _ rfl
    rfl
  · rintro _ _ rfl _ _ rfl
    rfl

theorem moves_callArgumentList :
    callArgumentList.Moves f (Becomes (CallArgumentList.relocate f)) := by
  refine ((moves_mark _).map ?_).seq moves_closedArguments
  rintro _ _ rfl _ _ rfl
  rfl

/-! ## Functions -/

theorem moves_returnStatement :
    returnStatement.Moves f (Becomes (ReturnStatement.relocate f)) := by
  refine (((moves_mark _).map ?_).seq moves_expression).seq (moves_mark _)
  rintro _ _ rfl _ _ rfl _ _ rfl
  rfl

theorem moves_statement : statement.Moves f (Becomes (Statement.relocate f)) :=
  moves_returnStatement.wrap fun _ => rfl

theorem moves_block : block.Moves f (Becomes (Block.relocate f)) := by
  refine (((moves_mark _).map ?_).seq moves_statement).seq (moves_mark _)
  rintro _ _ rfl _ _ rfl _ _ rfl
  rfl

theorem moves_modifier :
    modifier.Moves f (Becomes (Modifiers.relocate f) ⇒ Becomes (Modifiers.relocate f)) := by
  refine Moves.either (moves_token.map ?_) (moves_token.map ?_)
  · rintro _ _ rfl _ _ rfl
    rfl
  · rintro _ _ rfl _ _ rfl
    rfl

/-- Changes that are related, made one after the other, lead to related modifiers. -/
theorem moves_modifiersAfter {seen : Modifiers} (hseen : seen = seen.relocate f) :
    (modifiersAfter seen).Moves f (Becomes (Modifiers.relocate f)) := by
  have hstep : (Becomes (Modifiers.relocate f) ⇒
      (Becomes (Modifiers.relocate f) ⇒ Becomes (Modifiers.relocate f)) ⇒
        Becomes (Modifiers.relocate f)) (fun m change => change m) (fun m change => change m) := by
    intro m m' hm change change' hchange
    exact hchange hm
  refine moves_modifier.many.map fun changes changes' h => ?_
  exact List.rel_foldl hstep hseen h

theorem moves_functionReturns :
    functionReturns.Moves f (Becomes (FunctionReturns.relocate f)) := by
  refine ((((moves_mark _).map ?_).seq (moves_mark _)).seq moves_parameterList).seq (moves_mark _)
  rintro _ _ rfl _ _ rfl _ _ rfl _ _ rfl
  rfl

theorem moves_functionDefinition :
    functionDefinition.Moves f (Becomes (FunctionDefinition.relocate f)) := by
  refine (((((((moves_mark _).map ?_).seq moves_token).seq (moves_mark _)).seq (moves_mark _)).seq
    (moves_modifiersAfter rfl)).seq moves_functionReturns.optional).seq moves_block
  rintro _ _ rfl _ _ rfl _ _ rfl _ _ rfl _ _ rfl _ _ rfl _ _ rfl
  rfl

/-! ## Directives -/

theorem moves_pragmaTokens : pragmaTokens.Moves f
    (Becomes (Prod.map (List.map (Token.relocate f)) (Token.relocate f))) := by
  refine (moves_token.map ?_).seq moves_token.upTo
  rintro _ _ rfl _ _ rfl
  rfl

theorem moves_pragmaDirective :
    pragmaDirective.Moves f (Becomes (PragmaDirective.relocate f)) := by
  refine ((moves_mark _).map ?_).seq moves_pragmaTokens
  rintro _ _ rfl _ _ rfl
  rfl

theorem moves_importPath : importPath.Moves f (Becomes (ImportPath.relocate f)) := by
  refine (moves_token.map ?_).seq moves_rename
  rintro _ _ rfl _ _ rfl
  rfl

theorem moves_symbolAlias : symbolAlias.Moves f (Becomes (SymbolAlias.relocate f)) := by
  refine (moves_token.map ?_).seq moves_rename
  rintro _ _ rfl _ _ rfl
  rfl

theorem moves_symbolAliases : symbolAliases.Moves f (Becomes (SymbolAliases.relocate f)) := by
  refine (((moves_mark _).map ?_).seq moves_symbolAlias.separated).seq (moves_mark _)
  rintro _ _ rfl l _ rfl _ _ rfl
  show SymbolAliases.mk _ _ _ _ = _
  rw [items_relocate, separators_relocate]
  rfl

theorem moves_importSymbols : importSymbols.Moves f (Becomes (ImportSymbols.relocate f)) := by
  refine ((moves_symbolAliases.map ?_).seq (moves_mark _)).seq moves_token
  rintro _ _ rfl _ _ rfl _ _ rfl
  rfl

theorem moves_importWildcard : importWildcard.Moves f (Becomes (ImportWildcard.relocate f)) := by
  refine (((((moves_mark _).map ?_).seq (moves_mark _)).seq moves_token).seq (moves_mark _)).seq
    moves_token
  rintro _ _ rfl _ _ rfl _ _ rfl _ _ rfl _ _ rfl
  rfl

theorem moves_importElement : importElement.Moves f (Becomes (ImportElement.relocate f)) := by
  refine Moves.either (moves_importPath.wrap ?_)
    (Moves.either (moves_importSymbols.wrap ?_) (moves_importWildcard.wrap ?_))
  all_goals exact fun _ => rfl

theorem moves_importDirective :
    importDirective.Moves f (Becomes (ImportDirective.relocate f)) := by
  refine (((moves_mark _).map ?_).seq moves_importElement).seq (moves_mark _)
  rintro _ _ rfl _ _ rfl _ _ rfl
  rfl

/-! ## Contracts -/

theorem moves_inheritanceSpecifier :
    inheritanceSpecifier.Moves f (Becomes (InheritanceSpecifier.relocate f)) := by
  refine (moves_identifierPath.map ?_).seq moves_callArgumentList.optional
  rintro _ _ rfl _ _ rfl
  rfl

theorem moves_inheritance : inheritance.Moves f (Becomes (Inheritance.relocate f)) := by
  refine ((moves_mark _).map ?_).seq moves_inheritanceSpecifier.separated
  rintro _ _ rfl l _ rfl
  show Inheritance.mk _ _ _ = _
  rw [items_relocate, separators_relocate]
  rfl

theorem moves_contractMember : contractMember.Moves f (Becomes (ContractMember.relocate f)) :=
  moves_functionDefinition.wrap fun _ => rfl

theorem moves_contractDefinition :
    contractDefinition.Moves f (Becomes (ContractDefinition.relocate f)) := by
  refine (((((moves_token.optional.map ?_).seq (moves_mark _)).seq moves_token).seq
    moves_inheritance.optional).seq (moves_mark _)).seq moves_contractMember.upTo
  rintro keyword _ rfl _ _ rfl _ _ rfl _ _ rfl _ _ rfl _ _ rfl
  cases keyword <;> rfl

end Phrase

/-- A node stays one at other positions. -/
theorem NodeSort.moves {α : Type} (sort : NodeSort α) (f : Position → Position) :
    sort.production.phrase.Moves f (Becomes (sort.relocate f)) := by
  cases sort with
  | pragmaDirective => exact Phrase.moves_pragmaDirective
  | importDirective => exact Phrase.moves_importDirective
  | importPath => exact Phrase.moves_importPath
  | importSymbols => exact Phrase.moves_importSymbols
  | importWildcard => exact Phrase.moves_importWildcard
  | symbolAliases => exact Phrase.moves_symbolAliases
  | symbolAlias => exact Phrase.moves_symbolAlias
  | identifierPath => exact Phrase.moves_identifierPath
  | contractDefinition => exact Phrase.moves_contractDefinition
  | inheritanceSpecifier => exact Phrase.moves_inheritanceSpecifier
  | functionDefinition => exact Phrase.moves_functionDefinition
  | typeName => exact Phrase.moves_typeName
  | elementaryTypeName => exact Phrase.moves_elementaryTypeName
  | parameterList => exact Phrase.moves_parameterList
  | parameter => exact Phrase.moves_parameter
  | block => exact Phrase.moves_block
  | statement => exact Phrase.moves_statement
  | returnStatement => exact Phrase.moves_returnStatement
  | expression => exact Phrase.moves_expression
  | literal => exact Phrase.moves_literal
  | callArgumentList => exact Phrase.moves_callArgumentList

end SoliditySource
