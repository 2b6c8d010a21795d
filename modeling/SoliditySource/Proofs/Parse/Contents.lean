import SoliditySource.Proofs.Grammar.Stores

/-! # What trees store of the tokens

A production that comes to a tree has taken the tokens that the tree stores and no others.
-/

namespace SoliditySource

/-- The reading of a whole text, which keeps the last construct of each sort only. -/
def Production.isWhole {α : Type} : Production α → Bool
  | sourceUnit => true
  | _ => false

/-- The tokens that reading a construct takes. -/
def TokenReader.consumed {α : Type} (r : TokenReader) (production : Production α) : List Token :=
  (production.rule (r.weight + 1)).taken r

theorem Production.stores {α : Type} {production : Production α}
    (h : production.isWhole = false) (limit : Nat) :
    (production.rule limit).Stores production.outlines production.Shaped := by
  cases production with
  | sourceUnit => cases h
  | pragmaDirective => exact Grammar.stores_pragmaDirective limit
  | importDirective => exact Grammar.stores_importDirective limit
  | importPath => exact Grammar.stores_importPath
  | importSymbols => exact Grammar.stores_importSymbols limit
  | importWildcard => exact Grammar.stores_importWildcard
  | path => exact Grammar.stores_path
  | symbolAliases => exact Grammar.stores_symbolAliases limit
  | symbolAlias => exact Grammar.stores_symbolAlias
  | identifier => exact Grammar.stores_identifier.imp fun _ _ => trivial
  | identifierPath => exact Grammar.stores_identifierPath limit
  | contractDefinition => exact Grammar.stores_contractDefinition limit
  | inheritanceSpecifier => exact Grammar.stores_inheritanceSpecifier limit
  | functionDefinition => exact Grammar.stores_functionDefinition limit
  | visibility => exact (Rule.stores_takeIf rfl).imp fun _ _ => trivial
  | stateMutability => exact (Rule.stores_takeIf rfl).imp fun _ _ => trivial
  | typeName => exact Grammar.stores_typeName
  | elementaryTypeName => exact Grammar.stores_elementaryTypeName
  | parameterList => exact Grammar.stores_parameterList limit
  | parameter => exact Grammar.stores_parameter
  | block => exact Grammar.stores_block
  | statement => exact Grammar.stores_statement
  | returnStatement => exact Grammar.stores_returnStatement
  | expression => exact Grammar.stores_expression
  | literal => exact Grammar.stores_literal
  | callArgumentList => exact Grammar.stores_callArgumentList limit

/-- The reader of a production that succeeds has handed out the tokens taken, none of them the
end token, and the tree stores all of them in order, of the modifiers of a function the last
one of each sort. The lists in the tree have their separators between the entries. -/
theorem TokenReader.parse_contents {α : Type} {production : Production α}
    (hproduction : production.isWhole = false) {r : TokenReader} {tree : α}
    (h : (r.parse production).result = .ok tree) :
    (∃ s, r.Hands (r.consumed production) s ∧ (r.parse production).reader.next = s.next) ∧
      (∀ t ∈ r.consumed production, t.kind ≠ .eos) ∧
      Recorded ((production.outlines tree).flatMap Outline.leaves) (r.consumed production) ∧
      production.Shaped tree := by
  have hstores := (Production.stores hproduction (r.weight + 1)).sound (by simp) h
  exact ⟨Rule.hands_taken _ h, hstores⟩

theorem TokenReader.parse_contents_arguments :
    ∃ l : CallArgumentList,
      ((ofFeed (.ofText "(a,1)".toList)).parse .callArgumentList).result = .ok l ∧
      (∀ t ∈ (ofFeed (.ofText "(a,1)".toList)).consumed .callArgumentList, t.kind ≠ .eos) ∧
      Recorded l.outline.leaves ((ofFeed (.ofText "(a,1)".toList)).consumed .callArgumentList) ∧
      l.arguments = .positional [⟨.identifier ⟨.identifier, ['a'], ⟨1, 2⟩⟩, some ⟨1, 3⟩⟩,
        ⟨.literal (.number ⟨⟨.number, ['1'], ⟨1, 4⟩⟩⟩), none⟩] := by
  have hr := at_ofFeed "(a,1)".toList
  have hweight : (ofFeed (.ofText "(a,1)".toList)).weight = 5 := by decide +kernel
  have hup : (Place.ofText "(a,1)".toList).Upcoming
      [⟨.lparen, ['('], ⟨1, 1⟩⟩, ⟨.identifier, ['a'], ⟨1, 2⟩⟩, ⟨.comma, [','], ⟨1, 3⟩⟩,
        ⟨.number, ['1'], ⟨1, 4⟩⟩, ⟨.rparen, [')'], ⟨1, 5⟩⟩] (.ok (.eos ⟨1, 6⟩)) :=
    .token (n := ⟨"a,1)".toList, ⟨1, 2⟩⟩) rfl rfl
      (.token (n := ⟨",1)".toList, ⟨1, 3⟩⟩) rfl rfl
        (.token (n := ⟨"1)".toList, ⟨1, 4⟩⟩) rfl rfl
          (.token (n := ⟨")".toList, ⟨1, 5⟩⟩) rfl rfl
            (.token (n := ⟨[], ⟨1, 6⟩⟩) rfl rfl (.finished (n := ⟨[], ⟨1, 6⟩⟩) rfl rfl)))))
  have hparse : ∃ l, ((ofFeed (.ofText "(a,1)".toList)).parse .callArgumentList).result = .ok l ∧
      l.arguments = .positional [⟨.identifier ⟨.identifier, ['a'], ⟨1, 2⟩⟩, some ⟨1, 3⟩⟩,
        ⟨.literal (.number ⟨⟨.number, ['1'], ⟨1, 4⟩⟩⟩), none⟩] := by
    rw [parse, hweight]
    exact ⟨_, (Rule.run_describes (Production.callArgumentList.rule 6) hr hup).1, rfl⟩
  obtain ⟨l, hl, harguments⟩ := hparse
  obtain ⟨-, hkinds, hrecorded, -⟩ := parse_contents rfl hl
  exact ⟨l, hl, hkinds, by simpa [Production.outlines] using hrecorded, harguments⟩

end SoliditySource
