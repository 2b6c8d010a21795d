import SoliditySource.Proofs.Outline.Trees
import SoliditySource.Proofs.Rule.Gathers

/-! # What the rules of the grammar store

Each rule of the grammar comes to a value that stores the tokens taken, all of them and in
order. The value of a rule is stored by the values of the rules it is made of, one behind the
other.
-/

namespace SoliditySource

/-- The values of the rule store the tokens that it takes, and are `shaped`. -/
def Rule.Stores {α : Type} (rule : Rule α) (parts : α → List Outline) (shaped : α → Prop) : Prop :=
  rule.Gathers none fun ts a => Recorded ((parts a).flatMap Outline.leaves) ts ∧ shaped a

open Rule

namespace Rule

variable {α β : Type} {rule : Rule α} {parts : α → List Outline} {shaped : α → Prop}
  {seen : Option Token} {later : List Token → β → Prop} {kind : TokenKind} {part : Missing}

theorem Stores.bind {f : α → Rule β} (h : rule.Stores parts shaped)
    (hf : ∀ us a, Recorded ((parts a).flatMap Outline.leaves) us → shaped a →
      (f a).Gathers none fun vs b => later (us ++ vs) b) : (rule >>= f).Gathers seen later :=
  Gathers.then h fun us a ha => hf us a ha.1 ha.2

theorem Stores.map {f : α → β} {parts' : β → List Outline} {shaped' : β → Prop}
    (h : rule.Stores parts shaped)
    (hparts : ∀ a, (parts' (f a)).flatMap Outline.leaves = (parts a).flatMap Outline.leaves)
    (hshaped : ∀ a, shaped a → shaped' (f a)) : (f <$> rule).Stores parts' shaped' := by
  apply Gathers.map
  apply h.imp
  intro ts a ha
  rw [hparts]
  exact ⟨ha.1, hshaped a ha.2⟩

theorem Stores.imp {shaped' : α → Prop} (h : rule.Stores parts shaped)
    (himp : ∀ a, shaped a → shaped' a) : rule.Stores parts shaped' :=
  Gathers.imp h fun _ a ha => ⟨ha.1, himp a ha.2⟩

theorem Stores.expect_bind {f : Token → Rule β} (hkind : kind ≠ .eos)
    (h : ∀ t, Recorded [.mark kind t.position] [t] →
      (f t).Gathers none fun vs b => later ([t] ++ vs) b) :
    (expect kind part >>= f).Gathers seen later :=
  Gathers.expect_bind hkind fun t ht => h t (by simpa using ht)

theorem stores_takeIf {fits : TokenKind → Bool} {cause : Cause} (hfits : fits .eos = false) :
    (takeIf fits cause).Stores (fun t => [t.outline]) fun t => fits t.kind = true :=
  gathers_takeIf hfits fun t ht => by simpa using ht

theorem Stores.whenNext {outline : α → Outline} (h : rule.Stores (fun a => [outline a]) shaped) :
    (whenNext kind rule).Stores (fun o => (o.map outline).toList) fun o => ∀ a ∈ o, shaped a := by
  apply gathers_whenNext h
  · simp
  · intro ts a ha
    simpa using ha

theorem Stores.separatedBy (hkind : kind ≠ .eos) (h : rule.Stores parts shaped) (limit : Nat) :
    (separatedBy kind rule limit).Stores (Outline.separated kind parts) fun entries =>
      Separated.Joined entries ∧ ∀ a ∈ Separated.items entries, shaped a := by
  have hlast : ∀ {us a}, Recorded ((parts a).flatMap Outline.leaves) us → shaped a →
      Recorded ((Outline.separated kind parts [⟨a, none⟩]).flatMap Outline.leaves) (us ++ []) ∧
        Separated.Joined [Separated.mk a none] ∧
          ∀ b ∈ Separated.items [Separated.mk a none], shaped b := by
    intro us a hrecorded hshaped
    exact ⟨by simpa [Outline.separated] using hrecorded, Separated.joined_singleton a,
      by simpa [Separated.items] using hshaped⟩
  induction limit with
  | zero =>
      apply Stores.bind h
      intro us a hrecorded hshaped
      exact hlast hrecorded hshaped
  | succ limit ih =>
      apply Stores.bind h
      intro us a hrecorded hshaped
      apply Gathers.accept?_bind hkind
      intro o ho
      cases o with
      | none => exact hlast hrecorded hshaped
      | some t =>
          apply Stores.bind ih
          intro vs entries hentries hall
          obtain ⟨hjoined, hall⟩ := hall
          refine ⟨?_, hjoined.cons, List.forall_mem_cons.mpr ⟨hshaped, hall⟩⟩
          have ht : Recorded [.mark kind t.position] [t] := by simpa using ho
          simpa [Outline.separated] using hrecorded.append (ht.append hentries)

/-- A list that is stored apart from its separators. -/
theorem Stores.interleaved {outline : α → Outline} (hkind : kind ≠ .eos)
    (h : rule.Stores (fun a => [outline a]) shaped) (limit : Nat) {f : List (Separated α) → Rule β}
    (hf : ∀ us entries,
      Recorded ((Outline.interleave kind ((Separated.items entries).map outline)
        (Separated.separators entries)).flatMap Outline.leaves) us →
      (Separated.separators entries).length + 1 = (Separated.items entries).length →
      (∀ a ∈ Separated.items entries, shaped a) →
      (f entries).Gathers none fun vs b => later (us ++ vs) b) :
    (Rule.separatedBy kind rule limit >>= f).Gathers seen later := by
  apply Stores.bind (h.separatedBy hkind limit)
  intro us entries hrecorded hall
  obtain ⟨hjoined, hall⟩ := hall
  apply hf us entries _ hjoined.length_separators hall
  rwa [hjoined.interleave_eq]

end Rule

namespace Grammar

/-! ## Names and types -/

theorem stores_identifier :
    identifier.Stores (fun t => [t.outline]) fun t => t.kind.isIdentifierLike = true :=
  stores_takeIf rfl

theorem stores_identifierPath (limit : Nat) :
    (identifierPath limit).Stores (fun p => [p.outline]) IdentifierPath.Shaped := by
  apply Stores.bind (stores_identifier.separatedBy (by decide) limit)
  intro us elements helements hall
  exact ⟨by simpa [IdentifierPath.outline] using helements, hall.1⟩

theorem stores_rename :
    rename.Stores (fun o => (o.map Alias.outline).toList) fun _ => True := by
  apply Gathers.accept?_bind (by decide)
  intro o ho
  cases o with
  | none => simp [Gathers, pure]
  | some keyword =>
      apply Stores.bind stores_identifier
      intro us name hname _
      have hkeyword : Recorded [.mark .kwAs keyword.position] [keyword] := by simpa using ho
      exact ⟨by simpa [Alias.outline] using hkeyword.append hname, trivial⟩

theorem stores_elementaryTypeName :
    elementaryTypeName.Stores (fun t => [t.outline]) fun _ => True := by
  apply Stores.bind (stores_takeIf rfl)
  intro us name hname _
  by_cases hkind : name.kind = .kwAddress
  · rw [if_pos hkind]
    apply Gathers.accept?_bind (by decide)
    intro o _
    exact ⟨by simpa [ElementaryTypeName.outline, ElementaryTypeName.tokens] using
      hname.append (recorded_tokens o.toList), trivial⟩
  · rw [if_neg hkind]
    exact ⟨by simpa [ElementaryTypeName.outline, ElementaryTypeName.tokens] using hname, trivial⟩

theorem stores_typeName : typeName.Stores (fun t => [t.outline]) fun _ => True := by
  apply Gathers.choose_bind
  intro t
  by_cases hkind : t.kind.isElementaryType = true
  · rw [if_pos hkind]
    apply Gathers.of_none
    exact stores_elementaryTypeName.map (by simp [TypeName.outline]) fun _ _ => trivial
  · rw [if_neg hkind]
    exact gathers_refuseAt

theorem stores_parameter : parameter.Stores (fun p => [p.outline]) fun _ => True :=
  stores_typeName.map (by simp [Parameter.outline]) fun _ _ => trivial

theorem stores_parameterList (limit : Nat) :
    (parameterList limit).Stores (fun l => [l.outline]) ParameterList.Shaped := by
  apply stores_parameter.interleaved (by decide) limit
  intro us entries hentries hlength _
  exact ⟨by simpa [ParameterList.outline] using hentries, hlength⟩

/-! ## Expressions and call arguments -/

theorem literalOf?_eq_some {t : Token} {l : Literal} (h : literalOf? t = some l) :
    t.kind ≠ .eos ∧ Recorded l.outline.leaves [t] := by
  unfold literalOf? at h
  split at h
  · next hkind =>
      cases h
      refine ⟨fun ht => by simp [ht, TokenKind.isStringLiteral] at hkind, ?_⟩
      simp [Literal.outline, StringLiteral.outline, Leaf.Records, recorded_cons]
  · split at h
    · next hkind =>
        cases h
        refine ⟨fun ht => by simp [ht] at hkind, ?_⟩
        simp [Literal.outline, BooleanLiteral.outline]
    · split at h
      · next hkind =>
          cases h
          refine ⟨fun ht => by simp [ht] at hkind, ?_⟩
          simp [Literal.outline, NumberLiteral.outline]
      · cases h

theorem stores_literal : literal.Stores (fun l => [l.outline]) fun _ => True := by
  apply Gathers.next_bind
  intro t
  split
  · next l hl =>
      obtain ⟨hkind, hrecorded⟩ := literalOf?_eq_some hl
      exact ⟨hkind, by simpa using hrecorded, trivial⟩
  · exact gathers_refuseAt

theorem stores_expression : expression.Stores (fun e => [e.outline]) fun _ => True := by
  apply Gathers.choose_bind
  intro t
  split
  · exact (stores_literal.map (by simp [Expression.outline]) fun _ _ => trivial).of_none
  · split
    · exact (stores_identifier.map (by simp [Expression.outline]) fun _ _ => trivial).of_none
    · exact gathers_refuseAt

theorem stores_namedArgument : namedArgument.Stores NamedArgument.outlines fun _ => True := by
  apply Stores.bind stores_identifier
  intro us name hname _
  apply Stores.expect_bind (by decide)
  intro colon hcolon
  apply Stores.bind stores_expression
  intro vs value hvalue _
  exact ⟨by simpa [NamedArgument.outlines] using hname.append (hcolon.append hvalue), trivial⟩

theorem stores_namedArguments (limit : Nat) :
    (namedArguments limit).Stores (fun a => [a.outline]) fun a =>
      Separated.Joined a.arguments := by
  apply Stores.expect_bind (by decide)
  intro lbrace hlbrace
  apply Stores.bind (stores_namedArgument.separatedBy (by decide) limit)
  intro us arguments harguments hall
  apply Stores.expect_bind (by decide)
  intro rbrace hrbrace
  exact ⟨by simpa [NamedArguments.outline] using hlbrace.append (harguments.append hrbrace),
    hall.1⟩

theorem stores_callArguments (limit : Nat) :
    (callArguments limit).Stores CallArguments.outlines CallArguments.Shaped := by
  apply Gathers.peek_bind
  intro t
  split
  · exact ⟨by simp [CallArguments.outlines], trivial⟩
  · apply Gathers.of_none
    exact (stores_namedArguments limit).map (by simp [CallArguments.outlines]) fun _ h => h
  · apply Gathers.of_none
    exact (stores_expression.separatedBy (by decide) limit).map
      (by simp [CallArguments.outlines]) fun _ h => h.1

theorem stores_callArgumentList (limit : Nat) :
    (callArgumentList limit).Stores (fun l => [l.outline]) fun l => l.arguments.Shaped := by
  apply Stores.expect_bind (by decide)
  intro lparen hlparen
  apply Stores.bind (stores_callArguments limit)
  intro us arguments harguments hshaped
  apply Stores.expect_bind (by decide)
  intro rparen hrparen
  exact ⟨by simpa [CallArgumentList.outline] using hlparen.append (harguments.append hrparen),
    hshaped⟩

/-! ## Functions -/

theorem stores_returnStatement :
    returnStatement.Stores (fun s => [s.outline]) fun _ => True := by
  apply Stores.expect_bind (by decide)
  intro keyword hkeyword
  apply Stores.bind stores_expression
  intro us expression hexpression _
  apply Stores.expect_bind (by decide)
  intro semicolon hsemicolon
  exact ⟨by simpa [ReturnStatement.outline] using
    hkeyword.append (hexpression.append hsemicolon), trivial⟩

theorem stores_statement : statement.Stores (fun s => [s.outline]) fun _ => True := by
  apply Gathers.choose_bind
  intro t
  split
  · exact (stores_returnStatement.map (by simp [Statement.outline]) fun _ _ => trivial).of_none
  · exact gathers_refuseAt

theorem stores_block : block.Stores (fun b => [b.outline]) fun _ => True := by
  apply Stores.expect_bind (by decide)
  intro lbrace hlbrace
  apply Stores.bind stores_statement
  intro us statement hstatement _
  apply Stores.expect_bind (by decide)
  intro rbrace hrbrace
  exact ⟨by simpa [Block.outline] using hlbrace.append (hstatement.append hrbrace), trivial⟩

/-- The last of tokens that come after others. -/
theorem getLast?_cons_or {t : Token} {ts : List Token} {o : Option Token} :
    (t :: ts).getLast?.or o = ts.getLast?.or (some t) := by
  rw [List.getLast?_cons]
  cases ts.getLast? <;> rfl

/-- What is kept of modifiers that are taken after others. -/
theorem gathers_modifiers (limit : Nat) (kept : Modifiers) :
    (modifiers limit kept).Gathers none fun ts m =>
      (∀ t ∈ ts, t.kind.isVisibility = true ∨ t.kind.isStateMutability = true) ∧
        m.visibility = (ts.filter fun t => t.kind.isVisibility).getLast?.or kept.visibility ∧
        m.stateMutability =
          (ts.filter fun t => t.kind.isStateMutability).getLast?.or kept.stateMutability := by
  induction limit generalizing kept with
  | zero => simp [modifiers, Gathers, pure]
  | succ limit ih =>
      apply Gathers.peek_bind
      intro t
      split
      · apply Gathers.of_none
        apply Gathers.takeIf_bind rfl
        intro keyword hkeyword
        apply (ih _).imp
        intro ts m h
        have hother := TokenKind.isStateMutability_of_isVisibility hkeyword
        simpa [hkeyword, hother, getLast?_cons_or] using h
      · split
        · apply Gathers.of_none
          apply Gathers.takeIf_bind rfl
          intro keyword hkeyword
          apply (ih _).imp
          intro ts m h
          have hother := TokenKind.isVisibility_of_isStateMutability hkeyword
          simpa [hkeyword, hother, getLast?_cons_or] using h
        · simp [Gathers, pure]

theorem stores_functionDescriptor :
    functionDescriptor.Stores (fun t => [t.outline]) fun _ => True := by
  have hword : ∀ {t : Token}, t.kind ≠ .eos → next.Gathers (some t) fun ts t =>
      Recorded ([t.outline].flatMap Outline.leaves) ts ∧ True :=
    fun hkind => gathers_next hkind ⟨by simp, trivial⟩
  apply Gathers.peek_bind
  intro t
  split
  · next hkind => exact hword (by simp [hkind])
  · next hkind => exact hword (by simp [hkind])
  · exact (stores_identifier.imp fun _ _ => trivial).of_none

theorem stores_functionReturns (limit : Nat) :
    (functionReturns limit).Stores (fun r => [r.outline]) fun r => r.parameters.Shaped := by
  apply Stores.expect_bind (by decide)
  intro keyword hkeyword
  apply Stores.expect_bind (by decide)
  intro lparen hlparen
  apply Stores.bind (stores_parameterList limit)
  intro us parameters hparameters hshaped
  apply Stores.expect_bind (by decide)
  intro rparen hrparen
  exact ⟨by simpa [FunctionReturns.outline] using
    hkeyword.append (hlparen.append (hparameters.append hrparen)), hshaped⟩

theorem stores_functionDefinition (limit : Nat) :
    (functionDefinition limit).Stores (fun f => [f.outline]) FunctionDefinition.Shaped := by
  apply Stores.expect_bind (by decide)
  intro keyword hkeyword
  apply Stores.bind stores_functionDescriptor
  intro us descriptor hdescriptor _
  apply Stores.expect_bind (by decide)
  intro lparen hlparen
  apply Stores.expect_bind (by decide)
  intro rparen hrparen
  apply Gathers.then (gathers_modifiers limit ⟨none, none⟩)
  intro vs kept hkept
  have hmodifiers : Recorded [.modifiers kept] vs := by
    simpa [recorded_cons, Leaf.Records] using hkept
  apply Stores.bind ((stores_functionReturns limit).whenNext)
  intro ws returns hreturns hshaped
  apply Stores.bind stores_block
  intro xs body hbody _
  exact ⟨by simpa [FunctionDefinition.outline] using hkeyword.append (hdescriptor.append
    (hlparen.append (hrparen.append (hmodifiers.append (hreturns.append hbody))))), hshaped⟩

/-! ## Directives -/

theorem gathers_pragmaRest (limit : Nat) :
    (pragmaRest limit).Gathers none fun ts found =>
      ts = found.1 ++ [found.2] ∧ (∀ t ∈ found.1, t.kind ≠ .semicolon) ∧
        found.2.kind = .semicolon := by
  induction limit with
  | zero =>
      apply Gathers.expect_bind (by decide)
      intro semicolon hsemicolon
      exact ⟨rfl, by simp, hsemicolon⟩
  | succ limit ih =>
      apply Gathers.next_bind
      intro t
      split
      · next hkind => exact ⟨by simp [hkind], rfl, by simp, hkind⟩
      · exact gathers_refuseAt
      · next hsemicolon heos =>
          apply Gathers.then ih
          intro us found hfound
          obtain ⟨rfl, hrest, hend⟩ := hfound
          exact ⟨heos, by simp, List.forall_mem_cons.mpr ⟨hsemicolon, hrest⟩, hend⟩

theorem stores_pragmaDirective (limit : Nat) :
    (pragmaDirective limit).Stores (fun d => [d.outline]) PragmaDirective.Shaped := by
  apply Stores.expect_bind (by decide)
  intro keyword hkeyword
  apply Gathers.next_bind
  intro first
  split
  · exact gathers_refuseAt
  · exact gathers_refuseAt
  · next hsemicolon heos =>
      apply Gathers.then (gathers_pragmaRest limit)
      intro us found hfound
      obtain ⟨rest, semicolon⟩ := found
      obtain ⟨rfl, hrest, hend⟩ := hfound
      have hsemi : Recorded [.mark .semicolon semicolon.position] [semicolon] := by simpa using hend
      refine ⟨heos, ?_, by simp, List.forall_mem_cons.mpr ⟨hsemicolon, hrest⟩⟩
      simpa [PragmaDirective.outline] using
        hkeyword.append ((recorded_tokens (first :: rest)).append hsemi)

theorem stores_path : path.Stores (fun t => [t.outline]) fun _ => True := by
  unfold path expect
  exact (stores_takeIf rfl).imp fun _ _ => trivial

theorem stores_importPath : importPath.Stores (fun e => [e.outline]) fun _ => True := by
  apply Stores.bind stores_path
  intro us path hpath _
  apply Stores.bind stores_rename
  intro vs rename hrename _
  exact ⟨by simpa [ImportPath.outline] using hpath.append hrename, trivial⟩

theorem stores_symbolAlias : symbolAlias.Stores (fun s => [s.outline]) fun _ => True := by
  apply Stores.bind stores_identifier
  intro us symbol hsymbol _
  apply Stores.bind stores_rename
  intro vs rename hrename _
  exact ⟨by simpa [SymbolAlias.outline] using hsymbol.append hrename, trivial⟩

theorem stores_symbolAliases (limit : Nat) :
    (symbolAliases limit).Stores (fun s => [s.outline]) SymbolAliases.Shaped := by
  apply Stores.expect_bind (by decide)
  intro lbrace hlbrace
  apply stores_symbolAlias.interleaved (by decide) limit
  intro us entries hentries hlength _
  apply Stores.expect_bind (by decide)
  intro rbrace hrbrace
  exact ⟨by simpa [SymbolAliases.outline] using hlbrace.append (hentries.append hrbrace), hlength⟩

theorem stores_importSymbols (limit : Nat) :
    (importSymbols limit).Stores (fun e => [e.outline]) fun e => e.symbols.Shaped := by
  apply Stores.bind (stores_symbolAliases limit)
  intro us symbols hsymbols hshaped
  apply Stores.expect_bind (by decide)
  intro fromKeyword hfrom
  apply Stores.bind stores_path
  intro vs path hpath _
  exact ⟨by simpa [ImportSymbols.outline] using hsymbols.append (hfrom.append hpath), hshaped⟩

theorem stores_importWildcard : importWildcard.Stores (fun e => [e.outline]) fun _ => True := by
  apply Stores.expect_bind (by decide)
  intro asterisk hasterisk
  apply Stores.expect_bind (by decide)
  intro asKeyword has
  apply Stores.bind stores_identifier
  intro us name hname _
  apply Stores.expect_bind (by decide)
  intro fromKeyword hfrom
  apply Stores.bind stores_path
  intro vs path hpath _
  exact ⟨by simpa [ImportWildcard.outline] using
    hasterisk.append (has.append (hname.append (hfrom.append hpath))), trivial⟩

theorem stores_importElement (limit : Nat) :
    (importElement limit).Stores (fun e => [e.outline]) ImportElement.Shaped := by
  apply Gathers.choose_bind
  intro t
  split
  · apply Gathers.of_none
    exact stores_importPath.map (by simp [ImportElement.outline]) fun _ h => h
  · apply Gathers.of_none
    exact (stores_importSymbols limit).map (by simp [ImportElement.outline]) fun _ h => h
  · apply Gathers.of_none
    exact stores_importWildcard.map (by simp [ImportElement.outline]) fun _ h => h
  · exact gathers_refuseAt

theorem stores_importDirective (limit : Nat) :
    (importDirective limit).Stores (fun d => [d.outline]) fun d => d.element.Shaped := by
  apply Stores.expect_bind (by decide)
  intro keyword hkeyword
  apply Stores.bind (stores_importElement limit)
  intro us element helement hshaped
  apply Stores.expect_bind (by decide)
  intro semicolon hsemicolon
  exact ⟨by simpa [ImportDirective.outline] using
    hkeyword.append (helement.append hsemicolon), hshaped⟩

/-! ## Contracts -/

theorem stores_inheritanceSpecifier (limit : Nat) :
    (inheritanceSpecifier limit).Stores (fun s => [s.outline]) InheritanceSpecifier.Shaped := by
  apply Stores.bind (stores_identifierPath limit)
  intro us path hpath hshaped
  apply Stores.bind ((stores_callArgumentList limit).whenNext)
  intro vs arguments harguments hall
  exact ⟨by simpa [InheritanceSpecifier.outline] using hpath.append harguments, hshaped, hall⟩

theorem stores_inheritance (limit : Nat) :
    (inheritance limit).Stores (fun i => [i.outline]) Inheritance.Shaped := by
  apply Stores.expect_bind (by decide)
  intro isKeyword his
  apply (stores_inheritanceSpecifier limit).interleaved (by decide) limit
  intro us entries hentries hlength hall
  exact ⟨by simpa [Inheritance.outline] using his.append hentries, hlength, hall⟩

/-- The members of a contract and the brace behind them. -/
theorem stores_contractBody (limit count : Nat) :
    (contractBody limit count).Stores
      (fun body => body.1.map ContractMember.outline ++ [.mark .rbrace body.2.position])
      fun body => ∀ m ∈ body.1, m.Shaped := by
  induction count with
  | zero =>
      apply Stores.expect_bind (by decide)
      intro rbrace hrbrace
      exact ⟨by simpa using hrbrace, by simp⟩
  | succ count ih =>
      apply Gathers.peek_bind
      intro t
      split
      · next hkind =>
          apply Gathers.bind
          apply gathers_next (by simp [hkind])
          exact ⟨by simpa using hkind, by simp⟩
      · apply Stores.bind (stores_functionDefinition limit)
        intro us function hfunction hshaped
        apply Stores.bind ih
        intro vs body hbody hall
        refine ⟨?_, List.forall_mem_cons.mpr ⟨hshaped, hall⟩⟩
        simpa [ContractMember.outline] using hfunction.append hbody
      · exact gathers_refuseAt
      · exact gathers_refuseAt

theorem stores_contractDefinition (limit : Nat) :
    (contractDefinition limit).Stores (fun c => [c.outline]) ContractDefinition.Shaped := by
  apply Gathers.accept?_bind (by decide)
  intro abstract habstract
  have hoption : Recorded
      (((abstract.map Token.position).map (Outline.mark .kwAbstract)).toList.flatMap Outline.leaves)
      abstract.toList := by
    cases abstract with
    | none => exact .nil
    | some t => simpa using habstract
  apply Stores.expect_bind (by decide)
  intro keyword hkeyword
  apply Stores.bind stores_identifier
  intro us name hname _
  apply Stores.bind ((stores_inheritance limit).whenNext)
  intro vs inheritance hinheritance hspecifiers
  apply Stores.expect_bind (by decide)
  intro lbrace hlbrace
  apply Stores.bind (stores_contractBody limit limit)
  intro ws body hbody hmembers
  exact ⟨by simpa [ContractDefinition.outline] using hoption.append (hkeyword.append
    (hname.append (hinheritance.append (hlbrace.append hbody)))), hspecifiers, hmembers⟩

/-! ## Source units -/

/-- What a unit becomes when constructs are read from the tokens: its slots are those of before,
or they store tokens in a row. -/
def Keeps (unit : SourceUnit) (ts : List Token) (unit' : SourceUnit) : Prop :=
  (unit.Shaped → unit'.Shaped) ∧
    ∀ o ∈ unit'.outlines, o ∈ unit.outlines ∨ ∃ us, us <:+: ts ∧ Recorded o.leaves us

theorem gathers_logParsed_bind {β : Type} {f : Unit → Rule β} {seen : Option Token}
    {later : List Token → β → Prop} {construct : Construct} {span : Span} {earlier : Option Span}
    (h : (f ()).Gathers seen later) :
    (logParsed construct span earlier >>= f).Gathers seen later := by
  cases earlier <;> exact h

/-- A construct is read and takes its slot, then the other constructs follow. -/
theorem gathers_construct {α : Type} {rule : Rule α} {outline : α → Outline} {shaped : α → Prop}
    {unit : SourceUnit} {store : α → SourceUnit} {limit count : Nat} {construct : Construct}
    {span : α → Span} {earlier : Option Span} {seen : Option Token}
    (h : rule.Stores (fun a => [outline a]) shaped)
    (hshaped : ∀ a, shaped a → unit.Shaped → (store a).Shaped)
    (hstore : ∀ a, ∀ o ∈ (store a).outlines, o = outline a ∨ o ∈ unit.outlines)
    (ih : ∀ unit, (constructs limit count unit).Gathers none (Keeps unit)) :
    (do
      let a ← rule
      logParsed construct (span a) earlier
      constructs limit count (store a)).Gathers seen (Keeps unit) := by
  apply Stores.bind h
  intro us a hrecorded ha
  apply gathers_logParsed_bind
  apply (ih (store a)).imp
  intro vs unit' hkeeps
  refine ⟨fun hunit => hkeeps.1 (hshaped a ha hunit), fun o ho => ?_⟩
  rcases hkeeps.2 o ho with hold | ⟨ws, hws, ho⟩
  · rcases hstore a o hold with rfl | hold
    · exact .inr ⟨us, List.infix_append' [] us vs, by simpa using hrecorded⟩
    · exact .inl hold
  · exact .inr ⟨ws, hws.trans (List.suffix_append us vs).isInfix, ho⟩

theorem gathers_constructs (limit count : Nat) (unit : SourceUnit) :
    (constructs limit count unit).Gathers none (Keeps unit) := by
  have hdone : ∀ unit, Keeps unit [] unit := fun unit => ⟨id, fun o ho => .inl ho⟩
  induction count generalizing unit with
  | zero => exact hdone unit
  | succ count ih =>
      apply Gathers.peek_bind
      intro t
      apply Gathers.log_bind
      split
      · exact hdone unit
      · apply gathers_construct (stores_pragmaDirective limit) _ _ ih
        · intro d hd hunit
          exact { hunit with pragma := by simpa using hd }
        · grind [SourceUnit.outlines]
      · apply gathers_construct (stores_importDirective limit) _ _ ih
        · intro d hd hunit
          exact { hunit with imports := by simpa using hd }
        · grind [SourceUnit.outlines]
      · apply gathers_construct (stores_contractDefinition limit) _ _ ih
        · intro c hc hunit
          exact { hunit with contract := by simpa using hc }
        · grind [SourceUnit.outlines]
      · apply gathers_construct (stores_contractDefinition limit) _ _ ih
        · intro c hc hunit
          exact { hunit with contract := by simpa using hc }
        · grind [SourceUnit.outlines]
      · apply gathers_construct (stores_functionDefinition limit) _ _ ih
        · intro f hf hunit
          exact { hunit with function := by simpa using hf }
        · grind [SourceUnit.outlines]
      · exact gathers_refuseAt

theorem gathers_sourceUnit (limit : Nat) :
    (sourceUnit limit).Gathers none fun ts unit => unit.Shaped ∧
      ∀ o ∈ unit.outlines, ∃ us, us <:+: ts ∧ Recorded o.leaves us := by
  apply (gathers_constructs limit limit .empty).imp
  intro ts unit h
  have hempty : SourceUnit.empty.Shaped := by constructor <;> simp [SourceUnit.empty]
  refine ⟨h.1 hempty, fun o ho => (h.2 o ho).resolve_left ?_⟩
  simp [SourceUnit.outlines, SourceUnit.empty]

end Grammar

end SoliditySource
