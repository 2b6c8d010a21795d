import SoliditySource.Proofs.Grammar.Phrases
import SoliditySource.Proofs.Reparse.Nodes
import SoliditySource.Proofs.Reparse.Tokens

/-! # The tokens of a node

The tokens of a node lie among those of the node above it, and its span goes from the start
of the first of them to the end of the last one.
-/

namespace SoliditySource

open Phrase

/-! ## First and last tokens -/

/-- The first token stands at `p`. -/
def StartsAt (ts : List Token) (p : Position) : Prop := ∃ t, ts.head? = some t ∧ p = t.position

/-- The last token ends at `p`, if marks that close a construct have one rune. -/
def EndsAt (ts : List Token) (p : Position) : Prop :=
  ∃ t, ts.getLast? = some t ∧
    ((Runes.isCloser t.kind = true → t.last = t.position) → p = t.last)

/-- The tokens go from the first position of the span to the last one. -/
def Covers (ts : List Token) (span : Span) : Prop := StartsAt ts span.first ∧ EndsAt ts span.last

theorem StartsAt.append {us : List Token} {p : Position} (h : StartsAt us p) (vs : List Token) :
    StartsAt (us ++ vs) p := by
  obtain ⟨t, ht, rfl⟩ := h
  exact ⟨t, by rw [List.head?_append, ht]; rfl, rfl⟩

theorem EndsAt.append {vs : List Token} {p : Position} (h : EndsAt vs p) (us : List Token) :
    EndsAt (us ++ vs) p := by
  obtain ⟨t, ht, hp⟩ := h
  exact ⟨t, by rw [List.getLast?_append, ht]; rfl, hp⟩

theorem Covers.append {us vs : List Token} {s s' : Span} (h : Covers us s) (h' : Covers vs s') :
    Covers (us ++ vs) ⟨s.first, s'.last⟩ := ⟨h.1.append vs, h'.2.append us⟩

theorem covers_token (t : Token) : Covers [t] t.span := ⟨⟨t, rfl, rfl⟩, ⟨t, rfl, fun _ => rfl⟩⟩

theorem startsAt_mark {kind : TokenKind} {ts : List Token} {p : Position}
    (h : (mark kind).Spells ts p) : StartsAt ts p := by
  obtain ⟨t, ⟨rfl, -⟩, rfl⟩ := h
  exact ⟨t, rfl, rfl⟩

theorem endsAt_mark {kind : TokenKind} (hk : Runes.isCloser kind = true) {ts : List Token}
    {p : Position} (h : (mark kind).Spells ts p) : EndsAt ts p := by
  obtain ⟨t, ⟨rfl, hf⟩, rfl⟩ := h
  have hkind : t.kind = kind := by simpa using hf
  refine ⟨t, rfl, fun hlast => ?_⟩
  rw [hkind] at hlast
  exact (hlast hk).symm

/-! ## Nodes among tokens -/

/-- Some of the tokens, next to each other, are a phrase for the node. -/
def Node.Sits (ts : List Token) (node : Node) : Prop :=
  ∃ us, us <:+: ts ∧ node.sort.production.phrase.Spells us node.tree

theorem Node.Sits.mono {us ts : List Token} {node : Node} (h : node.Sits us) (hts : us <:+: ts) :
    node.Sits ts := by
  obtain ⟨vs, hvs, hspells⟩ := h
  exact ⟨vs, hvs.trans hts, hspells⟩

theorem Node.sits_self {α : Type} {sort : NodeSort α} {ts : List Token} {tree : α}
    (h : sort.production.phrase.Spells ts tree) : Node.Sits ts ⟨sort, tree⟩ :=
  ⟨ts, List.infix_rfl, h⟩

/-! ## Lists -/

section

variable {α : Type} {p : Phrase α} {separator : TokenKind}

/-- The items of a list lie among its tokens. -/
theorem infix_of_repeated {spells : List Token → α → Prop} {ts : List Token} {as : List α}
    (h : Repeated spells ts as) : ∀ a ∈ as, ∃ us, us <:+: ts ∧ spells us a := by
  induction h with
  | nil => exact fun a ha => absurd ha List.not_mem_nil
  | cons h hs ih =>
      intro b hb
      rcases List.mem_cons.mp hb with rfl | hb
      · exact ⟨_, (List.prefix_append _ _).isInfix, h⟩
      · obtain ⟨us, hus, hspells⟩ := ih b hb
        exact ⟨us, hus.trans (List.suffix_append _ _).isInfix, hspells⟩

theorem mem_entries {a b : α} {sep : Option Position} {rest : List (Position × α)}
    (h : ⟨b, sep⟩ ∈ entries a rest) : b = a ∨ ∃ q, (q, b) ∈ rest := by
  induction rest generalizing a with
  | nil =>
      rw [entries, List.mem_singleton] at h
      cases h
      exact .inl rfl
  | cons entry rest ih =>
      obtain ⟨q, c⟩ := entry
      rw [entries, List.mem_cons] at h
      rcases h with h | h
      · cases h
        exact .inl rfl
      · rcases ih h with rfl | ⟨q', hq⟩
        · exact .inr ⟨q, List.mem_cons_self⟩
        · exact .inr ⟨q', List.mem_cons_of_mem _ hq⟩

theorem infix_of_separated {ts : List Token} {l : List (Separated α)}
    (h : (separated separator p).Spells ts l) :
    ∀ e ∈ l, ∃ us, us <:+: ts ∧ p.Spells us e.item := by
  obtain ⟨us, vs, _, rest, rfl, ⟨a, ha, rfl⟩, hrest, rfl⟩ := h
  intro e he
  rcases mem_entries he with hitem | ⟨q, hq⟩
  · exact ⟨us, (List.prefix_append _ _).isInfix, by rw [hitem]; exact ha⟩
  · obtain ⟨ws, hws, xs, ys, _, b, rfl, ⟨m, -, rfl⟩, hb, hpair⟩ := infix_of_repeated hrest _ hq
    cases hpair
    refine ⟨ys, ?_, hb⟩
    exact ((List.suffix_append _ _).isInfix.trans hws).trans (List.suffix_append _ _).isInfix

theorem endsAt_entries {span : α → Span} (hp : ∀ us a, p.Spells us a → Covers us (span a))
    {us vs : List Token} {a : α} {rest : List (Position × α)} (ha : p.Spells us a)
    (hrest : Repeated (Prod.mk <$> mark separator <*> p).Spells vs rest) :
    ∃ e, (entries a rest).getLast? = some e ∧ EndsAt (us ++ vs) (span e.item).last := by
  induction hrest generalizing us a with
  | nil =>
      refine ⟨⟨a, none⟩, rfl, ?_⟩
      rw [List.append_nil]
      exact (hp us a ha).2
  | @cons xs vs entry rest h hs ih =>
      obtain ⟨m, b⟩ := entry
      obtain ⟨ys, zs, _, b', rfl, ⟨m', -, rfl⟩, hb, hpair⟩ := h
      cases hpair
      obtain ⟨e, he, hends⟩ := ih hb
      refine ⟨e, ?_, ?_⟩
      · rw [entries, List.getLast?_cons, he]
        rfl
      · rw [List.append_assoc, ← List.append_assoc]
        exact hends.append (us ++ ys)

/-- A list goes from its first item to its last one. -/
theorem covers_separated (span : α → Span)
    (hp : ∀ us a, p.Spells us a → Covers us (span a)) {ts : List Token}
    {l : List (Separated α)} (h : (separated separator p).Spells ts l) :
    Covers ts (.cover (l.map fun e => span e.item)) := by
  obtain ⟨us, vs, _, rest, rfl, ⟨a, ha, rfl⟩, hrest, rfl⟩ := h
  obtain ⟨e, he, hends⟩ := endsAt_entries hp ha hrest
  have hhead : ((entries a rest).map fun e => span e.item).head? = some (span a) := by
    cases rest <;> rfl
  have hlast : ((entries a rest).map fun e => span e.item).getLast? = some (span e.item) := by
    rw [List.getLast?_map, he]
    rfl
  rw [Span.cover, hhead, hlast]
  exact ⟨(hp us a ha).1.append vs, hends⟩

end

/-! ## What holds of each node -/

/-- What is said of the tokens of a node: where they start and end, and that the nodes right
below lie among them. -/
def Node.Fits (ts : List Token) (node : Node) : Prop :=
  Covers ts (node.sort.span node.tree) ∧
    ∀ child ∈ node.sort.children node.tree, child.Sits ts

/-- A node with one node below it that has the same tokens. -/
theorem Node.fits_over {α : Type} (sort : NodeSort α) {ts : List Token} {tree : α} {node : Node}
    (h : sort.production.phrase.Spells ts tree)
    (hcovers : Covers ts (node.sort.span node.tree))
    (hchildren : node.sort.children node.tree = [⟨sort, tree⟩]) : Node.Fits ts node := by
  refine ⟨hcovers, fun child hc => ?_⟩
  rw [hchildren] at hc
  cases List.mem_singleton.mp hc
  exact sits_self h

/-- What stands between an opening mark and a closing one. -/
theorem between_marks {α β : Type} {p : Phrase α} {start stop : TokenKind}
    {g : Position → α → Position → β} {ts : List Token} {b : β}
    (h : (g <$> mark start <*> p <*> mark stop).Spells ts b)
    (hstop : Runes.isCloser stop = true) :
    ∃ us first a last, us <:+: ts ∧ p.Spells us a ∧ b = g first a last ∧
      Covers ts ⟨first, last⟩ := by
  obtain ⟨_, ws, _, last, rfl, ⟨us, vs, _, a, rfl, ⟨first, hf, rfl⟩, ha, rfl⟩, hl, rfl⟩ := h
  refine ⟨vs, first, a, last, List.infix_append us vs ws, ha, rfl, ?_, ?_⟩
  · exact ((startsAt_mark hf).append vs).append ws
  · exact (endsAt_mark hstop hl).append _

/-! ## Names and types -/

theorem fits_identifierPath {ts : List Token} {p : IdentifierPath}
    (h : Phrase.identifierPath.Spells ts p) : Node.Fits ts ⟨.identifierPath, p⟩ := by
  obtain ⟨l, hl, rfl⟩ := h
  refine ⟨covers_separated Token.span ?_ hl, fun child hc => nomatch hc⟩
  rintro _ t ⟨rfl, -⟩
  exact covers_token t

theorem endsAt_rename {ts : List Token} {t : Token} {rename : Option Alias}
    (h : Phrase.rename.Spells ts rename) :
    EndsAt (t :: ts) ((rename.map fun a => a.span.last).getD t.last) := by
  rcases h with ⟨a, ⟨us, _, _, name, rfl, ⟨m, -, rfl⟩, ⟨rfl, -⟩, rfl⟩, rfl⟩ | ⟨rfl, rfl⟩
  · exact (covers_token name).2.append (t :: us)
  · exact (covers_token t).2

theorem fits_elementaryTypeName {ts : List Token} {e : ElementaryTypeName}
    (h : Phrase.elementaryTypeName.Spells ts e) : Node.Fits ts ⟨.elementaryTypeName, e⟩ := by
  refine ⟨?_, fun child hc => nomatch hc⟩
  rcases h with ⟨us, vs, _, payable, rfl, ⟨t, ⟨rfl, -⟩, rfl⟩, hp, rfl⟩ | ⟨t, ⟨rfl, -⟩, rfl⟩
  · rcases hp with ⟨u, ⟨rfl, -⟩, rfl⟩ | ⟨rfl, rfl⟩
    · exact (covers_token t).append (covers_token u)
    · exact covers_token t
  · exact covers_token t

theorem fits_typeName {ts : List Token} {e : TypeName} (h : Phrase.typeName.Spells ts e) :
    Node.Fits ts ⟨.typeName, e⟩ := by
  obtain ⟨type, htype, rfl⟩ := h
  exact Node.fits_over .elementaryTypeName htype (fits_elementaryTypeName htype).1 rfl

theorem fits_parameter {ts : List Token} {e : Parameter} (h : Phrase.parameter.Spells ts e) :
    Node.Fits ts ⟨.parameter, e⟩ := by
  obtain ⟨type, htype, rfl⟩ := h
  exact Node.fits_over .typeName htype (fits_typeName htype).1 rfl

/-- The items of a list are nodes that lie among its tokens. -/
theorem sits_of_mem_items {α : Type} (sort : NodeSort α) {separator : TokenKind}
    {ts : List Token} {l : List (Separated α)}
    (h : (separated separator sort.production.phrase).Spells ts l) :
    ∀ child ∈ (Separated.items l).map (Node.mk sort), child.Sits ts := by
  intro child hc
  obtain ⟨a, ha, rfl⟩ := List.mem_map.mp hc
  obtain ⟨e, he, rfl⟩ := List.mem_map.mp ha
  obtain ⟨us, hus, hspells⟩ := infix_of_separated h e he
  exact ⟨us, hus, hspells⟩

theorem fits_parameterList {ts : List Token} {e : ParameterList}
    (h : Phrase.parameterList.Spells ts e) : Node.Fits ts ⟨.parameterList, e⟩ := by
  obtain ⟨l, hl, rfl⟩ := h
  refine ⟨?_, sits_of_mem_items .parameter hl⟩
  have hcovers := covers_separated Parameter.span
    (fun us a ha => (fits_parameter ha).1) hl
  show Covers ts (.cover ((l.map Separated.item).map Parameter.span))
  rw [List.map_map]
  exact hcovers

/-! ## Expressions -/

theorem fits_literal {ts : List Token} {e : Literal} (h : Phrase.literal.Spells ts e) :
    Node.Fits ts ⟨.literal, e⟩ := by
  refine ⟨?_, fun child hc => nomatch hc⟩
  rcases h with ⟨t, ⟨rfl, -⟩, rfl⟩ | ⟨t, ⟨rfl, -⟩, rfl⟩ | ⟨t, ⟨rfl, -⟩, rfl⟩
  · exact covers_token t
  · exact covers_token t
  · exact covers_token t

theorem fits_expression {ts : List Token} {e : Expression} (h : Phrase.expression.Spells ts e) :
    Node.Fits ts ⟨.expression, e⟩ := by
  rcases h with ⟨l, hl, rfl⟩ | ⟨t, ⟨rfl, -⟩, rfl⟩
  · exact Node.fits_over .literal hl (fits_literal hl).1 rfl
  · exact ⟨covers_token t, fun child hc => nomatch hc⟩

theorem sits_namedArgument {ts : List Token} {a : NamedArgument}
    (h : Phrase.namedArgument.Spells ts a) : Node.Sits ts ⟨.expression, a.value⟩ := by
  obtain ⟨us, vs, _, e, rfl, ⟨_, _, _, _, rfl, ⟨name, -, rfl⟩, -, rfl⟩, he, rfl⟩ := h
  exact ⟨vs, (List.suffix_append _ _).isInfix, he⟩

theorem sits_callArguments {ts : List Token} {a : CallArguments}
    (h : Phrase.callArguments.Spells ts a) : ∀ child ∈ a.children, child.Sits ts := by
  intro child hc
  rcases h with ⟨n, hn, rfl⟩ | ⟨l, hl, rfl⟩
  · obtain ⟨us, lbrace, l, rbrace, hus, hl, rfl, -⟩ := between_marks hn rfl
    obtain ⟨e, he, rfl⟩ := List.mem_map.mp hc
    obtain ⟨xs, hxs, hspells⟩ := infix_of_separated hl e he
    exact (sits_namedArgument hspells).mono (hxs.trans hus)
  · obtain ⟨e, he, rfl⟩ := List.mem_map.mp hc
    obtain ⟨us, hus, hspells⟩ := infix_of_separated hl e he
    exact ⟨us, hus, hspells⟩

theorem fits_callArgumentList {ts : List Token} {l : CallArgumentList}
    (h : Phrase.callArgumentList.Spells ts l) : Node.Fits ts ⟨.callArgumentList, l⟩ := by
  obtain ⟨us, vs, _, closed, rfl, ⟨lparen, hl, rfl⟩, hclosed, rfl⟩ := h
  rcases hclosed with ⟨rparen, hr, rfl⟩ | ⟨xs, ys, _, rparen, rfl, ⟨a, ha, rfl⟩, hr, rfl⟩
  · exact ⟨⟨(startsAt_mark hl).append vs, (endsAt_mark rfl hr).append us⟩,
      fun child hc => nomatch hc⟩
  · refine ⟨⟨(startsAt_mark hl).append _, ((endsAt_mark rfl hr).append xs).append us⟩, ?_⟩
    intro child hc
    exact (sits_callArguments ha child hc).mono (List.infix_append' us xs ys)

/-! ## Functions -/

theorem fits_returnStatement {ts : List Token} {s : ReturnStatement}
    (h : Phrase.returnStatement.Spells ts s) : Node.Fits ts ⟨.returnStatement, s⟩ := by
  obtain ⟨us, keyword, e, semicolon, hus, he, rfl, hcovers⟩ := between_marks h rfl
  refine ⟨hcovers, fun child hc => ?_⟩
  cases List.mem_singleton.mp hc
  exact ⟨us, hus, he⟩

theorem fits_statement {ts : List Token} {s : Statement} (h : Phrase.statement.Spells ts s) :
    Node.Fits ts ⟨.statement, s⟩ := by
  obtain ⟨r, hr, rfl⟩ := h
  exact Node.fits_over .returnStatement hr (fits_returnStatement hr).1 rfl

theorem fits_block {ts : List Token} {b : Block} (h : Phrase.block.Spells ts b) :
    Node.Fits ts ⟨.block, b⟩ := by
  obtain ⟨us, lbrace, s, rbrace, hus, hs, rfl, hcovers⟩ := between_marks h rfl
  refine ⟨hcovers, fun child hc => ?_⟩
  cases List.mem_singleton.mp hc
  exact ⟨us, hus, hs⟩

theorem sits_functionReturns {ts : List Token} {r : FunctionReturns}
    (h : Phrase.functionReturns.Spells ts r) : Node.Sits ts ⟨.parameterList, r.parameters⟩ := by
  obtain ⟨_, ws, _, rparen, rfl, ⟨us, vs, _, l, rfl, ⟨xs, ys, _, lparen, rfl, ⟨keyword, -, rfl⟩, -,
    rfl⟩, hl, rfl⟩, -, rfl⟩ := h
  exact ⟨vs, List.infix_append _ vs ws, hl⟩

theorem fits_functionDefinition {ts : List Token} {d : FunctionDefinition}
    (h : Phrase.functionDefinition.Spells ts d) : Node.Fits ts ⟨.functionDefinition, d⟩ := by
  obtain ⟨_, bs, _, body, rfl, ⟨_, rs, _, returns, rfl, ⟨_, ms, _, modifiers, rfl, ⟨_, ps, _, rparen,
    rfl, ⟨_, ls, _, lparen, rfl, ⟨us, ds, _, descriptor, rfl, ⟨keyword, hk, rfl⟩, -, rfl⟩, -, rfl⟩,
    -, rfl⟩, -, rfl⟩, hr, rfl⟩, hb, rfl⟩ := h
  refine ⟨⟨?_, (fits_block hb).1.2.append _⟩, ?_⟩
  · exact (((((startsAt_mark hk).append ds).append ls).append ps).append ms).append rs |>.append bs
  · intro child hc
    rcases List.mem_append.mp hc with hc | hc
    · rcases hr with ⟨r, hr, rfl⟩ | ⟨rfl, rfl⟩
      · cases List.mem_singleton.mp hc
        exact (sits_functionReturns hr).mono (List.infix_append _ rs bs)
      · cases hc
    · cases List.mem_singleton.mp hc
      exact ⟨bs, (List.suffix_append _ _).isInfix, hb⟩

/-! ## Directives -/

theorem fits_pragmaDirective {ts : List Token} {d : PragmaDirective}
    (h : Phrase.pragmaDirective.Spells ts d) : Node.Fits ts ⟨.pragmaDirective, d⟩ := by
  obtain ⟨us, _, _, _, rfl, ⟨keyword, hk, rfl⟩, ⟨vs, _, _, rest, rfl, ⟨first, -, rfl⟩,
    ⟨ws, _, _, semicolon, rfl, ⟨tokens, -, rfl⟩, ⟨rfl, hs⟩, rfl⟩, rfl⟩, rfl⟩ := h
  have hclose : (mark .semicolon).Spells [semicolon] semicolon.position :=
    ⟨semicolon, ⟨rfl, hs⟩, rfl⟩
  refine ⟨⟨(startsAt_mark hk).append _, ?_⟩, fun child hc => nomatch hc⟩
  exact (((endsAt_mark rfl hclose).append ws).append vs).append us

theorem fits_importPath {ts : List Token} {e : ImportPath} (h : Phrase.importPath.Spells ts e) :
    Node.Fits ts ⟨.importPath, e⟩ := by
  obtain ⟨_, vs, _, rename, rfl, ⟨t, ⟨rfl, -⟩, rfl⟩, hr, rfl⟩ := h
  exact ⟨⟨(covers_token t).1.append vs, endsAt_rename hr⟩, fun child hc => nomatch hc⟩

theorem fits_symbolAlias {ts : List Token} {s : SymbolAlias}
    (h : Phrase.symbolAlias.Spells ts s) : Node.Fits ts ⟨.symbolAlias, s⟩ := by
  obtain ⟨_, vs, _, rename, rfl, ⟨t, ⟨rfl, -⟩, rfl⟩, hr, rfl⟩ := h
  exact ⟨⟨(covers_token t).1.append vs, endsAt_rename hr⟩, fun child hc => nomatch hc⟩

theorem fits_symbolAliases {ts : List Token} {s : SymbolAliases}
    (h : Phrase.symbolAliases.Spells ts s) : Node.Fits ts ⟨.symbolAliases, s⟩ := by
  obtain ⟨us, lbrace, l, rbrace, hus, hl, rfl, hcovers⟩ := between_marks h rfl
  refine ⟨hcovers, fun child hc => ?_⟩
  exact (sits_of_mem_items .symbolAlias hl child hc).mono hus

theorem fits_importSymbols {ts : List Token} {e : ImportSymbols}
    (h : Phrase.importSymbols.Spells ts e) : Node.Fits ts ⟨.importSymbols, e⟩ := by
  obtain ⟨_, ws, _, path, rfl, ⟨us, vs, _, _, rfl, ⟨s, hs, rfl⟩, -, rfl⟩, ⟨rfl, -⟩, rfl⟩ := h
  refine ⟨⟨((fits_symbolAliases hs).1.1.append vs).append _, (covers_token path).2.append _⟩, ?_⟩
  intro child hc
  cases List.mem_singleton.mp hc
  exact ⟨us, ((List.prefix_append us vs).trans (List.prefix_append _ _)).isInfix, hs⟩

theorem fits_importWildcard {ts : List Token} {e : ImportWildcard}
    (h : Phrase.importWildcard.Spells ts e) : Node.Fits ts ⟨.importWildcard, e⟩ := by
  obtain ⟨_, _, _, path, rfl, ⟨_, fs, _, _, rfl, ⟨_, ns, _, _, rfl, ⟨us, ks, _, _, rfl,
    ⟨asterisk, ha, rfl⟩, -, rfl⟩, -, rfl⟩, -, rfl⟩, ⟨rfl, -⟩, rfl⟩ := h
  refine ⟨⟨?_, (covers_token path).2.append _⟩, fun child hc => nomatch hc⟩
  exact (((startsAt_mark ha).append ks).append ns).append fs |>.append _

theorem sits_importElement {ts : List Token} {e : ImportElement}
    (h : Phrase.importElement.Spells ts e) : ∀ child ∈ e.children, child.Sits ts := by
  intro child hc
  rcases h with ⟨e, he, rfl⟩ | ⟨e, he, rfl⟩ | ⟨e, he, rfl⟩
  · cases List.mem_singleton.mp hc
    exact Node.sits_self he
  · cases List.mem_singleton.mp hc
    exact Node.sits_self he
  · cases List.mem_singleton.mp hc
    exact Node.sits_self he

theorem fits_importDirective {ts : List Token} {d : ImportDirective}
    (h : Phrase.importDirective.Spells ts d) : Node.Fits ts ⟨.importDirective, d⟩ := by
  obtain ⟨us, keyword, e, semicolon, hus, he, rfl, hcovers⟩ := between_marks h rfl
  refine ⟨hcovers, fun child hc => ?_⟩
  exact (sits_importElement he child hc).mono hus

/-! ## Contracts and source units -/

theorem fits_inheritanceSpecifier {ts : List Token} {s : InheritanceSpecifier}
    (h : Phrase.inheritanceSpecifier.Spells ts s) : Node.Fits ts ⟨.inheritanceSpecifier, s⟩ := by
  obtain ⟨us, vs, _, arguments, rfl, ⟨p, hp, rfl⟩, ha, rfl⟩ := h
  have hpath := (fits_identifierPath hp).1
  have hsits : Node.Sits (us ++ vs) ⟨.identifierPath, p⟩ :=
    ⟨us, (List.prefix_append us vs).isInfix, hp⟩
  rcases ha with ⟨l, hl, rfl⟩ | ⟨rfl, rfl⟩
  · refine ⟨⟨hpath.1.append vs, (fits_callArgumentList hl).1.2.append us⟩, ?_⟩
    intro child hc
    rcases List.mem_cons.mp hc with rfl | hc
    · exact hsits
    · cases List.mem_singleton.mp hc
      exact ⟨vs, (List.suffix_append us vs).isInfix, hl⟩
  · rw [List.append_nil] at hsits ⊢
    refine ⟨hpath, fun child hc => ?_⟩
    cases List.mem_singleton.mp hc
    exact hsits

theorem sits_inheritance {ts : List Token} {i : Inheritance}
    (h : Phrase.inheritance.Spells ts i) :
    ∀ child ∈ i.specifiers.map (Node.mk .inheritanceSpecifier), child.Sits ts := by
  obtain ⟨us, vs, _, l, rfl, ⟨keyword, -, rfl⟩, hl, rfl⟩ := h
  intro child hc
  exact (sits_of_mem_items .inheritanceSpecifier hl child hc).mono
    (List.suffix_append us vs).isInfix

theorem fits_contractDefinition {ts : List Token} {c : ContractDefinition}
    (h : Phrase.contractDefinition.Spells ts c) : Node.Fits ts ⟨.contractDefinition, c⟩ := by
  obtain ⟨_, bs, _, body, rfl, ⟨_, ls, _, lbrace, rfl, ⟨_, is, _, inheritance, rfl, ⟨_, ns, _, name,
    rfl, ⟨as, ks, _, keyword, rfl, ⟨abstractKeyword, ha, rfl⟩, hk, rfl⟩, -, rfl⟩, hi, rfl⟩, -, rfl⟩,
    ⟨ms, _, _, rbrace, rfl, ⟨members, hm, rfl⟩, ⟨rfl, hr⟩, rfl⟩, rfl⟩ := h
  have hclose : (mark .rbrace).Spells [rbrace] rbrace.position := ⟨rbrace, ⟨rfl, hr⟩, rfl⟩
  have hopen : StartsAt (as ++ ks) ((abstractKeyword.map Token.position).getD keyword) := by
    rcases ha with ⟨t, ⟨rfl, -⟩, rfl⟩ | ⟨rfl, rfl⟩
    · exact (covers_token t).1.append ks
    · exact startsAt_mark hk
  refine ⟨⟨?_, ?_⟩, ?_⟩
  · exact (((hopen.append ns).append is).append ls).append _
  · exact ((endsAt_mark rfl hclose).append ms).append _
  · intro child hc
    rcases List.mem_append.mp hc with hc | hc
    · rcases hi with ⟨i, hi, rfl⟩ | ⟨rfl, rfl⟩
      · refine (sits_inheritance hi child hc).mono ?_
        exact (List.suffix_append _ is).isInfix.trans
          ((List.prefix_append _ ls).trans (List.prefix_append _ _)).isInfix
      · cases hc
    · obtain ⟨m, hmem, rfl⟩ := List.mem_map.mp hc
      obtain ⟨us, hus, d, hd, rfl⟩ := infix_of_repeated hm m hmem
      refine ⟨us, hus.trans ?_, hd⟩
      exact (List.prefix_append ms _).isInfix.trans (List.suffix_append _ _).isInfix

/-- The node that a construct is. -/
def TopLevel.node : TopLevel → Node
  | pragma directive => ⟨.pragmaDirective, directive⟩
  | imports directive => ⟨.importDirective, directive⟩
  | contract definition => ⟨.contractDefinition, definition⟩
  | function definition => ⟨.functionDefinition, definition⟩

theorem TopLevel.sits_node {ts : List Token} {item : TopLevel} (h : topLevel.Spells ts item) :
    item.node.Sits ts := by
  rcases h with ⟨d, hd, rfl⟩ | ⟨d, hd, rfl⟩ | ⟨d, hd, rfl⟩ | ⟨d, hd, rfl⟩
  · exact Node.sits_self hd
  · exact Node.sits_self hd
  · exact Node.sits_self hd
  · exact Node.sits_self hd

theorem TopLevel.mem_children_store {unit : SourceUnit} {item : TopLevel} {node : Node}
    (h : node ∈ (item.store unit).children) : node ∈ unit.children ∨ node = item.node := by
  simp only [SourceUnit.children, List.mem_append] at h ⊢
  cases item with
  | pragma d =>
      rcases h with ((h | h) | h) | h
      · exact .inr (List.mem_singleton.mp h)
      · exact .inl (.inl (.inl (.inr h)))
      · exact .inl (.inl (.inr h))
      · exact .inl (.inr h)
  | imports d =>
      rcases h with ((h | h) | h) | h
      · exact .inl (.inl (.inl (.inl h)))
      · exact .inr (List.mem_singleton.mp h)
      · exact .inl (.inl (.inr h))
      · exact .inl (.inr h)
  | contract c =>
      rcases h with ((h | h) | h) | h
      · exact .inl (.inl (.inl (.inl h)))
      · exact .inl (.inl (.inl (.inr h)))
      · exact .inr (List.mem_singleton.mp h)
      · exact .inl (.inr h)
  | function d =>
      rcases h with ((h | h) | h) | h
      · exact .inl (.inl (.inl (.inl h)))
      · exact .inl (.inl (.inl (.inr h)))
      · exact .inl (.inl (.inr h))
      · exact .inr (List.mem_singleton.mp h)

theorem TopLevel.mem_children_foldl {items : List TopLevel} {unit : SourceUnit} {node : Node}
    (h : node ∈ (items.foldl store unit).children) :
    node ∈ unit.children ∨ ∃ item ∈ items, node = item.node := by
  induction items generalizing unit with
  | nil => exact .inl h
  | cons item items ih =>
      rcases ih h with hunit | ⟨later, hl, rfl⟩
      · rcases mem_children_store hunit with hunit | rfl
        · exact .inl hunit
        · exact .inr ⟨item, List.mem_cons_self, rfl⟩
      · exact .inr ⟨later, List.mem_cons_of_mem _ hl, rfl⟩

theorem sits_sourceUnit {ts : List Token} {unit : SourceUnit}
    (h : Phrase.sourceUnit.Spells ts unit) : ∀ child ∈ unit.children, child.Sits ts := by
  obtain ⟨items, hitems, rfl⟩ := h
  intro child hc
  rcases TopLevel.mem_children_foldl hc with hc | ⟨item, hi, rfl⟩
  · cases hc
  · obtain ⟨us, hus, hspells⟩ := infix_of_repeated hitems item hi
    exact (TopLevel.sits_node hspells).mono hus

/-! ## Nodes at any depth -/

theorem NodeSort.fits {α : Type} (sort : NodeSort α) {ts : List Token} {tree : α}
    (h : sort.production.phrase.Spells ts tree) : Node.Fits ts ⟨sort, tree⟩ := by
  cases sort with
  | pragmaDirective => exact fits_pragmaDirective h
  | importDirective => exact fits_importDirective h
  | importPath => exact fits_importPath h
  | importSymbols => exact fits_importSymbols h
  | importWildcard => exact fits_importWildcard h
  | symbolAliases => exact fits_symbolAliases h
  | symbolAlias => exact fits_symbolAlias h
  | identifierPath => exact fits_identifierPath h
  | contractDefinition => exact fits_contractDefinition h
  | inheritanceSpecifier => exact fits_inheritanceSpecifier h
  | functionDefinition => exact fits_functionDefinition h
  | typeName => exact fits_typeName h
  | elementaryTypeName => exact fits_elementaryTypeName h
  | parameterList => exact fits_parameterList h
  | parameter => exact fits_parameter h
  | block => exact fits_block h
  | statement => exact fits_statement h
  | returnStatement => exact fits_returnStatement h
  | expression => exact fits_expression h
  | literal => exact fits_literal h
  | callArgumentList => exact fits_callArgumentList h

/-- A node that a source unit contains lies among the tokens of the unit. -/
theorem SourceUnit.Contains.sits {unit : SourceUnit} {node : Node} (h : unit.Contains node)
    {ts : List Token} (hunit : Phrase.sourceUnit.Spells ts unit) : node.Sits ts := by
  induction h with
  | top h => exact sits_sourceUnit hunit _ h
  | @deeper parent node _ h ih =>
      obtain ⟨us, hus, hspells⟩ := ih
      exact ((parent.sort.fits hspells).2 node h).mono hus

end SoliditySource
