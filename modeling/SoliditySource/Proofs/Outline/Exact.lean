import SoliditySource.Proofs.Outline.Spans
import SoliditySource.Proofs.Outline.Trees

/-! # The trees are exact

Each type of tree reports the start of the first thing it stores and the end of the last one,
provided that its lists have their shapes.
-/

namespace SoliditySource

open Outline

namespace Outline

variable {kind : TokenKind} {items : List Outline} {positions : List Position}

@[simp] theorem exact_mark (kind : TokenKind) (position : Position) :
    (mark kind position).Exact := .leaf _

/-- A node that wraps another one and has its span. -/
theorem exact_wrapped {o : Outline} {span : Span} (h : o.Exact)
    (hfirst : o.first? = some span.first) (hlast : o.last? = some span.last) :
    (node span [o]).Exact :=
  .node hfirst hlast (by simpa using h)

/-- A node between two marks, the second one of which has one rune. -/
theorem exact_enclosed {first last : Position} {kind' : TokenKind}
    (hkind : Runes.isCloser kind' = true) (items : List Outline) (h : ∀ o ∈ items, o.Exact) :
    (node ⟨first, last⟩ (mark kind first :: (items ++ [mark kind' last]))).Exact := by
  have hlast : (mark kind' last).last? = some last := if_pos hkind
  refine .node rfl ?_ ?_
  · rw [← List.cons_append, List.getLast?_concat]
    exact hlast
  · intro p hp
    rw [List.mem_cons, List.mem_append, List.mem_singleton] at hp
    rcases hp with rfl | hp | rfl
    · exact exact_mark kind first
    · exact h p hp
    · exact exact_mark kind' last

/-! ## Lists -/

theorem exact_interleave (h : ∀ o ∈ items, o.Exact) :
    ∀ p ∈ interleave kind items positions, p.Exact := by
  induction items generalizing positions with
  | nil => simp [interleave]
  | cons item items ih =>
      obtain ⟨hitem, hitems⟩ := List.forall_mem_cons.mp h
      cases positions with
      | nil => exact h
      | cons position positions => simpa [interleave] using ⟨hitem, ih hitems⟩

theorem exact_separated {α : Type} {parts : α → List Outline} {entries : List (Separated α)}
    (h : ∀ a, ∀ p ∈ parts a, p.Exact) : ∀ p ∈ separated kind parts entries, p.Exact := by
  intro p hp
  obtain ⟨entry, -, hp⟩ := List.mem_flatMap.mp hp
  rcases List.mem_append.mp hp with hp | hp
  · exact h _ p hp
  · rw [Option.mem_toList, Option.map_eq_some_iff] at hp
    obtain ⟨position, -, rfl⟩ := hp
    exact exact_mark kind position

/-- A list that has one separator less than items starts and ends with an item. -/
theorem interleave_ends {α : Type} {items : List α} (kind : TokenKind) (outline : α → Outline)
    (h : positions.length + 1 = items.length) :
    ∃ a b, items.head? = some a ∧ items.getLast? = some b ∧
      (interleave kind (items.map outline) positions).head? = some (outline a) ∧
      (interleave kind (items.map outline) positions).getLast? = some (outline b) := by
  induction items generalizing positions with
  | nil => simp at h
  | cons item items ih =>
      cases positions with
      | nil =>
          have hitems : items = [] := by simpa using h
          subst hitems
          exact ⟨item, item, rfl, rfl, rfl, rfl⟩
      | cons position positions =>
          obtain ⟨a, b, -, hb, -, hlast⟩ := ih (by simpa using h)
          refine ⟨item, b, rfl, ?_, rfl, ?_⟩
          · simp [List.getLast?_cons, hb]
          · simp [interleave, List.getLast?_cons, hlast]

/-- A node that covers the items of a list. -/
theorem exact_cover {α : Type} {items : List α} {outline : α → Outline} {span : α → Span}
    (kind : TokenKind) (h : positions.length + 1 = items.length)
    (hitems : ∀ a ∈ items, (outline a).Exact)
    (hfirst : ∀ a, (outline a).first? = some (span a).first)
    (hlast : ∀ a, (outline a).last? = some (span a).last) :
    (node (Span.cover (items.map span)) (interleave kind (items.map outline) positions)).Exact := by
  obtain ⟨a, b, ha, hb, hhead, htail⟩ := interleave_ends kind outline h
  have hcover : Span.cover (items.map span) = ⟨(span a).first, (span b).last⟩ := by
    simp [Span.cover, ha, hb]
  rw [hcover]
  refine .node ?_ ?_ (exact_interleave (by simpa using hitems))
  · rw [hhead]
    exact hfirst a
  · rw [htail]
    exact hlast b

end Outline

/-! ## Names and types -/

theorem IdentifierPath.exact_outline {p : IdentifierPath} (h : p.Shaped) : p.outline.Exact := by
  have hcover : (node (Span.cover ((Separated.items p.elements).map Token.span))
      (interleave .period ((Separated.items p.elements).map Token.outline)
        (Separated.separators p.elements))).Exact :=
    exact_cover .period h.length_separators (by simp) (fun _ => rfl) (fun _ => rfl)
  rw [h.interleave_eq] at hcover
  simpa [outline, span, Separated.items, Function.comp_def] using hcover

@[simp] theorem Alias.exact_outline (a : Alias) : a.outline.Exact :=
  .node rfl rfl (by simp)

@[simp] theorem ElementaryTypeName.exact_outline (t : ElementaryTypeName) : t.outline.Exact := by
  obtain ⟨name, payable⟩ := t
  cases payable <;> exact .node rfl rfl (by simp [tokens])

@[simp] theorem TypeName.exact_outline (t : TypeName) : t.outline.Exact := by
  cases t with
  | elementary type => exact exact_wrapped type.exact_outline rfl rfl

@[simp] theorem Parameter.exact_outline (p : Parameter) : p.outline.Exact :=
  exact_wrapped p.typeName.exact_outline rfl rfl

theorem ParameterList.exact_outline {l : ParameterList} (h : l.Shaped) : l.outline.Exact :=
  exact_cover .comma h (by simp) (fun _ => rfl) (fun _ => rfl)

/-! ## Expressions and call arguments -/

@[simp] theorem Literal.exact_outline (l : Literal) : l.outline.Exact := by
  cases l with
  | string literal => exact exact_wrapped (.node rfl rfl (by simp)) rfl rfl
  | boolean literal => exact exact_wrapped (exact_wrapped (exact_token _) rfl rfl) rfl rfl
  | number literal => exact exact_wrapped (exact_wrapped (exact_token _) rfl rfl) rfl rfl

@[simp] theorem Expression.exact_outline (e : Expression) : e.outline.Exact := by
  cases e with
  | literal value => exact exact_wrapped value.exact_outline rfl rfl
  | identifier name => exact exact_wrapped (exact_token name) rfl rfl

@[simp] theorem NamedArguments.exact_outline (a : NamedArguments) : a.outline.Exact :=
  exact_enclosed rfl _ (exact_separated (by simp [NamedArgument.outlines]))

@[simp] theorem CallArgumentList.exact_outline (l : CallArgumentList) : l.outline.Exact := by
  apply exact_enclosed rfl _
  cases l.arguments with
  | empty => simp [CallArguments.outlines]
  | positional arguments =>
      show ∀ o ∈ separated .comma (fun e => [Expression.outline e]) arguments, o.Exact
      exact exact_separated (by simp)
  | named arguments => simp [CallArguments.outlines]

/-! ## Functions -/

@[simp] theorem ReturnStatement.exact_outline (s : ReturnStatement) : s.outline.Exact :=
  exact_enclosed rfl [s.expression.outline] (by simp)

@[simp] theorem Statement.exact_outline (s : Statement) : s.outline.Exact := by
  cases s with
  | returning statement => exact exact_wrapped statement.exact_outline rfl rfl

@[simp] theorem Block.exact_outline (b : Block) : b.outline.Exact :=
  exact_enclosed rfl _ (by simp)

theorem FunctionReturns.exact_outline {r : FunctionReturns} (h : r.parameters.Shaped) :
    r.outline.Exact :=
  exact_enclosed rfl [mark .lparen r.lparen, r.parameters.outline]
    (by simpa using ParameterList.exact_outline h)

theorem FunctionDefinition.exact_outline {f : FunctionDefinition} (h : f.Shaped) :
    f.outline.Exact := by
  obtain ⟨keyword, descriptor, lparen, rparen, modifiers, returns, body⟩ := f
  cases returns with
  | none => exact .node rfl rfl (by simp)
  | some r =>
      have hr := FunctionReturns.exact_outline (h r rfl)
      exact .node rfl rfl (by simp [hr])

/-! ## Directives -/

@[simp] theorem PragmaDirective.exact_outline (d : PragmaDirective) : d.outline.Exact :=
  exact_enclosed rfl _ (by simp)

@[simp] theorem ImportPath.exact_outline (e : ImportPath) : e.outline.Exact := by
  obtain ⟨path, rename⟩ := e
  cases rename <;> exact .node rfl rfl (by simp)

@[simp] theorem SymbolAlias.exact_outline (s : SymbolAlias) : s.outline.Exact := by
  obtain ⟨symbol, rename⟩ := s
  cases rename <;> exact .node rfl rfl (by simp)

@[simp] theorem SymbolAliases.exact_outline (s : SymbolAliases) : s.outline.Exact :=
  exact_enclosed rfl _ (exact_interleave (by simp))

@[simp] theorem ImportSymbols.exact_outline (e : ImportSymbols) : e.outline.Exact :=
  .node rfl rfl (by simp)

@[simp] theorem ImportWildcard.exact_outline (e : ImportWildcard) : e.outline.Exact :=
  .node rfl rfl (by simp)

@[simp] theorem ImportElement.exact_outline (e : ImportElement) : e.outline.Exact := by
  cases e with
  | path element => exact exact_wrapped element.exact_outline rfl rfl
  | symbols element => exact exact_wrapped element.exact_outline rfl rfl
  | wildcard element => exact exact_wrapped element.exact_outline rfl rfl

@[simp] theorem ImportDirective.exact_outline (d : ImportDirective) : d.outline.Exact :=
  exact_enclosed rfl [d.element.outline] (by simp)

/-! ## Contracts -/

theorem InheritanceSpecifier.exact_outline {s : InheritanceSpecifier} (h : s.Shaped) :
    s.outline.Exact := by
  have hpath := IdentifierPath.exact_outline h.1
  obtain ⟨path, arguments⟩ := s
  cases arguments <;> exact .node rfl rfl (by simp [hpath])

theorem Inheritance.exact_outline {i : Inheritance} (h : i.Shaped) : i.outline.Exact := by
  obtain ⟨_, b, -, hb, -, htail⟩ := interleave_ends .comma InheritanceSpecifier.outline h.1
  have hitems : ∀ o ∈ i.specifiers.map InheritanceSpecifier.outline, o.Exact := by
    simpa using fun s hs => InheritanceSpecifier.exact_outline (h.2 s hs)
  refine .node rfl ?_ (List.forall_mem_cons.mpr ⟨exact_mark _ _, exact_interleave hitems⟩)
  rw [List.getLast?_cons, htail, span, hb]
  rfl

theorem ContractMember.exact_outline {m : ContractMember} (h : m.Shaped) : m.outline.Exact := by
  cases m with
  | function definition => exact exact_wrapped (FunctionDefinition.exact_outline h) rfl rfl

theorem ContractDefinition.exact_outline {c : ContractDefinition} (h : c.Shaped) :
    c.outline.Exact := by
  have hinheritance : ∀ o ∈ (c.inheritance.map Inheritance.outline).toList, o.Exact := by
    simpa using fun i hi => Inheritance.exact_outline (h.1 i hi)
  have hbody : ∀ o ∈ c.body.map ContractMember.outline, o.Exact := by
    simpa using fun m hm => ContractMember.exact_outline (h.2 m hm)
  have hinner : ∀ o ∈ c.name.outline :: ((c.inheritance.map Inheritance.outline).toList ++
      mark .lbrace c.lbrace :: c.body.map ContractMember.outline), o.Exact := by
    simp only [List.forall_mem_cons, List.forall_mem_append]
    exact ⟨exact_token _, hinheritance, exact_mark _ _, hbody⟩
  cases hkeyword : c.abstractKeyword with
  | none =>
      have henclosed : (node ⟨c.keyword, c.rbrace⟩ (mark .kwContract c.keyword ::
          (_ ++ [mark .rbrace c.rbrace]))).Exact := exact_enclosed rfl _ hinner
      simpa [outline, span, hkeyword] using henclosed
  | some position =>
      have henclosed : (node ⟨position, c.rbrace⟩ (mark .kwAbstract position ::
          (_ ++ [mark .rbrace c.rbrace]))).Exact :=
        exact_enclosed rfl _ (List.forall_mem_cons.mpr ⟨exact_mark .kwContract c.keyword, hinner⟩)
      simpa [outline, span, hkeyword] using henclosed

/-! ## Productions -/

theorem SourceUnit.exact_outlines {unit : SourceUnit} (h : unit.Shaped) :
    ∀ o ∈ unit.outlines, o.Exact ∧ o.IsNode := by
  intro o ho
  simp only [outlines, List.mem_append, Option.mem_toList, Option.map_eq_some_iff] at ho
  rcases ho with ((⟨d, -, rfl⟩ | ⟨d, -, rfl⟩) | ⟨c, hc, rfl⟩) | ⟨f, hf, rfl⟩
  · exact ⟨d.exact_outline, trivial⟩
  · exact ⟨d.exact_outline, trivial⟩
  · exact ⟨ContractDefinition.exact_outline (h.contract c hc), trivial⟩
  · exact ⟨FunctionDefinition.exact_outline (h.function f hf), trivial⟩

/-- What reading a production gives has exact nodes as its outlines. -/
theorem Production.exact_outlines {α : Type} (production : Production α) {tree : α}
    (h : production.Shaped tree) : ∀ o ∈ production.outlines tree, o.Exact ∧ o.IsNode := by
  have hone : ∀ {o' : Outline}, o'.Exact → o'.IsNode → ∀ o ∈ [o'], o.Exact ∧ o.IsNode := by
    intro o' hexact hnode o ho
    obtain rfl := List.mem_singleton.mp ho
    exact ⟨hexact, hnode⟩
  cases production with
  | sourceUnit => exact SourceUnit.exact_outlines h
  | pragmaDirective => exact hone tree.exact_outline trivial
  | importDirective => exact hone tree.exact_outline trivial
  | importPath => exact hone tree.exact_outline trivial
  | importSymbols => exact hone tree.exact_outline trivial
  | importWildcard => exact hone tree.exact_outline trivial
  | path => exact hone (exact_token tree) trivial
  | symbolAliases => exact hone tree.exact_outline trivial
  | symbolAlias => exact hone tree.exact_outline trivial
  | identifier => exact hone (exact_token tree) trivial
  | identifierPath => exact hone (IdentifierPath.exact_outline h) trivial
  | contractDefinition => exact hone (ContractDefinition.exact_outline h) trivial
  | inheritanceSpecifier => exact hone (InheritanceSpecifier.exact_outline h) trivial
  | functionDefinition => exact hone (FunctionDefinition.exact_outline h) trivial
  | visibility => exact hone (exact_token tree) trivial
  | stateMutability => exact hone (exact_token tree) trivial
  | typeName => exact hone tree.exact_outline trivial
  | elementaryTypeName => exact hone tree.exact_outline trivial
  | parameterList => exact hone (ParameterList.exact_outline h) trivial
  | parameter => exact hone tree.exact_outline trivial
  | block => exact hone tree.exact_outline trivial
  | statement => exact hone tree.exact_outline trivial
  | returnStatement => exact hone tree.exact_outline trivial
  | expression => exact hone tree.exact_outline trivial
  | literal => exact hone tree.exact_outline trivial
  | callArgumentList => exact hone tree.exact_outline trivial

end SoliditySource
