import SoliditySource.Proofs.Grammar.Mirrors
import SoliditySource.Proofs.Parse.Acceptance
import SoliditySource.Proofs.Reparse.Moves
import SoliditySource.Proofs.Token.Seam

/-! # Source units in a row

Every construct of a source unit ends with a semicolon or a brace, so two source units in a row
fall into the tokens of the one and the tokens of the other. Reading them together stores the
constructs of the second one after those of the first one.
-/

namespace SoliditySource

namespace Phrase

variable {α β : Type} {p q : Phrase α}

/-! ## Phrases that end with a closing mark -/

/-- The last token of its phrases is a closing mark. -/
def Closes (p : Phrase α) : Prop :=
  ∀ ts a, p.Spells ts a → ∃ t, ts.getLast? = some t ∧ Runes.isCloser t.kind = true

theorem closes_token {kind : TokenKind} (h : Runes.isCloser kind = true) :
    (token (· = kind)).Closes := by
  intro ts t hspells
  obtain ⟨rfl, hkind⟩ := hspells
  exact ⟨t, rfl, by rwa [of_decide_eq_true hkind]⟩

theorem Closes.map (h : p.Closes) (f : α → β) : (f <$> p).Closes := by
  intro ts b hspells
  obtain ⟨a, ha, -⟩ := hspells
  exact h ts a ha

theorem Closes.seq (h : q.Closes) (p : Phrase (α → β)) : (p <*> q).Closes := by
  intro ts b hspells
  obtain ⟨us, vs, f, a, rfl, -, ha, -⟩ := hspells
  obtain ⟨t, ht, hkind⟩ := h vs a ha
  exact ⟨t, by rw [List.getLast?_append, ht, Option.some_or], hkind⟩

theorem Closes.either (hp : p.Closes) (hq : q.Closes) : (either p q).Closes := by
  intro ts a hspells
  cases hspells with
  | inl ha => exact hp ts a ha
  | inr ha => exact hq ts a ha

theorem closes_mark {kind : TokenKind} (h : Runes.isCloser kind = true) : (mark kind).Closes :=
  (closes_token h).map _

theorem closes_upTo {kind : TokenKind} (h : Runes.isCloser kind = true) (p : Phrase α) :
    (upTo kind p).Closes := (closes_token h).seq _

/-- The last token of phrases in a row, if there are any. -/
theorem Closes.many (h : p.Closes) {ts : List Token} {as : List α} (has : Repeated p.Spells ts as) :
    ∀ t, ts.getLast? = some t → Runes.isCloser t.kind = true := by
  induction has with
  | nil => simp
  | @cons us vs a as ha _ ih =>
      obtain ⟨u, hu, hkind⟩ := h us a ha
      intro t ht
      rw [List.getLast?_append, hu] at ht
      cases hvs : vs.getLast? with
      | none =>
          rw [hvs] at ht
          cases ht
          exact hkind
      | some v =>
          rw [hvs] at ht
          exact ih t (hvs.trans ht)

theorem closes_pragmaDirective : pragmaDirective.Closes :=
  ((closes_upTo rfl pragmaToken).seq _).seq _

theorem closes_importDirective : importDirective.Closes := (closes_mark rfl).seq _

theorem closes_contractDefinition : contractDefinition.Closes := (closes_upTo rfl contractMember).seq _

theorem closes_block : block.Closes := (closes_mark rfl).seq _

theorem closes_functionDefinition : functionDefinition.Closes := closes_block.seq _

theorem closes_topLevel : topLevel.Closes :=
  (closes_pragmaDirective.map _).either ((closes_importDirective.map _).either
    ((closes_contractDefinition.map _).either (closes_functionDefinition.map _)))

theorem closes_sourceUnit {ts : List Token} {unit : SourceUnit} (h : sourceUnit.Spells ts unit) :
    ∀ t, ts.getLast? = some t → Runes.isCloser t.kind = true := by
  obtain ⟨items, hitems, -⟩ := h
  exact closes_topLevel.many hitems

end Phrase

/-! ## Storing what comes later -/

/-- The slots of `later`, and where it has none those of the unit before it. -/
def SourceUnit.followedBy (unit later : SourceUnit) : SourceUnit :=
  ⟨later.pragma.or unit.pragma, later.imports.or unit.imports, later.contract.or unit.contract,
    later.function.or unit.function⟩

namespace TopLevel

def relocate (f : Position → Position) : TopLevel → TopLevel
  | pragma d => pragma (d.relocate f)
  | imports d => imports (d.relocate f)
  | contract c => contract (c.relocate f)
  | function d => function (d.relocate f)

theorem store_relocate (f : Position → Position) (unit : SourceUnit) (item : TopLevel) :
    store (unit.relocate f) (item.relocate f) = (store unit item).relocate f := by
  cases item <;> rfl

theorem foldl_store_relocate (f : Position → Position) (items : List TopLevel)
    (unit : SourceUnit) :
    (items.map (relocate f)).foldl store (unit.relocate f) =
      (items.foldl store unit).relocate f := by
  rw [List.foldl_map]
  exact List.foldl_hom (SourceUnit.relocate f) (store_relocate f)

theorem foldl_store_followedBy (items : List TopLevel) (unit : SourceUnit) :
    items.foldl store unit = unit.followedBy (items.foldl store .empty) := by
  rw [foldl_store, foldl_store]
  simp [SourceUnit.followedBy, SourceUnit.empty]

end TopLevel

namespace Phrase

theorem moves_topLevel {f : Position → Position} :
    topLevel.Moves f (Becomes (TopLevel.relocate f)) := by
  refine Moves.either (moves_pragmaDirective.wrap ?_) (Moves.either
    (moves_importDirective.wrap ?_) (Moves.either (moves_contractDefinition.wrap ?_)
      (moves_functionDefinition.wrap ?_)))
  all_goals exact fun _ => rfl

theorem moves_sourceUnit {f : Position → Position} :
    sourceUnit.Moves f (Becomes (SourceUnit.relocate f)) := by
  refine moves_topLevel.list.map fun items items' hitems => ?_
  rw [hitems]
  exact TopLevel.foldl_store_relocate f items .empty

theorem spells_followedBy {ts us : List Token} {unit later : SourceUnit}
    (h : sourceUnit.Spells ts unit) (h' : sourceUnit.Spells us later) :
    sourceUnit.Spells (ts ++ us) (unit.followedBy later) := by
  obtain ⟨items, hitems, rfl⟩ := h
  obtain ⟨items', hitems', rfl⟩ := h'
  have hfold : (items ++ items').foldl TopLevel.store .empty =
      (items.foldl TopLevel.store .empty).followedBy (items'.foldl TopLevel.store .empty) := by
    rw [List.foldl_append, TopLevel.foldl_store_followedBy]
  exact ⟨items ++ items', Repeated.append hitems hitems', hfold.symm⟩

end Phrase

/-! ## Reading -/

/-- Two texts that are source units are one when they are written in a row, with nothing or
with any blanks around them. A slot holds what the second unit has in it, at the positions
behind the end of the first text, and otherwise what the first unit has in it. -/
theorem SourceUnit.parse_append {front back : String} {unit later : SourceUnit}
    (h : SourceUnit.parse front = .ok unit) (h' : SourceUnit.parse back = .ok later) :
    SourceUnit.parse (front ++ back) =
      .ok (unit.followedBy
        (later.relocate (Position.shift (Position.start.advance front.toList)))) := by
  obtain ⟨ts, ending, hup⟩ := (Place.ofText front.toList).exists_upcoming
  obtain ⟨⟨eos, rfl⟩, hunit⟩ :=
    TokenReader.parse_sourceUnit_ok (TokenReader.at_ofFeed _) hup h
  obtain ⟨us, ending', hup'⟩ := (Place.ofText back.toList).exists_upcoming
  obtain ⟨⟨eos', rfl⟩, hlater⟩ :=
    TokenReader.parse_sourceUnit_ok (TokenReader.at_ofFeed _) hup' h'
  have hshift := Position.shift_advance (Position.start.advance front.toList)
  have hends : KeepsEnds (Position.shift (Position.start.advance front.toList)) us :=
    hup'.last_relocate hshift
  obtain ⟨_, hmoved, rfl⟩ := Phrase.moves_sourceUnit us later hends hlater
  have hboth := hup.append (Phrase.closes_sourceUnit hunit) (hup'.moved hshift)
  have hreader := TokenReader.at_ofFeed (front.toList ++ back.toList)
  rw [SourceUnit.parse, String.toList_append]
  exact (TokenReader.parse_of_spells .sourceUnit hreader hboth
    (Phrase.spells_followedBy hunit hmoved)).1

theorem SourceUnit.parse_append_two_lines :
    SourceUnit.parse "pragma a;import 'b';\n " =
        .ok ⟨some ⟨⟨1, 1⟩, [⟨.identifier, ['a'], ⟨1, 8⟩⟩], ⟨1, 9⟩⟩,
          some ⟨⟨1, 10⟩, .path ⟨⟨.nonEmptyString, "'b'".toList, ⟨1, 17⟩⟩, none⟩, ⟨1, 20⟩⟩,
          none, none⟩ ∧
      SourceUnit.parse "import\n'c';" =
        .ok ⟨none,
          some ⟨⟨1, 1⟩, .path ⟨⟨.nonEmptyString, "'c'".toList, ⟨2, 1⟩⟩, none⟩, ⟨2, 4⟩⟩,
          none, none⟩ ∧
      SourceUnit.parse ("pragma a;import 'b';\n " ++ "import\n'c';") =
        .ok ⟨some ⟨⟨1, 1⟩, [⟨.identifier, ['a'], ⟨1, 8⟩⟩], ⟨1, 9⟩⟩,
          some ⟨⟨2, 2⟩, .path ⟨⟨.nonEmptyString, "'c'".toList, ⟨3, 1⟩⟩, none⟩, ⟨3, 4⟩⟩,
          none, none⟩ := by
  have hup : (Place.ofText "pragma a;import 'b';\n ".toList).Upcoming
      [⟨.kwPragma, "pragma".toList, ⟨1, 1⟩⟩, ⟨.identifier, ['a'], ⟨1, 8⟩⟩,
        ⟨.semicolon, [';'], ⟨1, 9⟩⟩, ⟨.kwImport, "import".toList, ⟨1, 10⟩⟩,
        ⟨.nonEmptyString, "'b'".toList, ⟨1, 17⟩⟩, ⟨.semicolon, [';'], ⟨1, 20⟩⟩]
      (.ok (.eos ⟨2, 2⟩)) :=
    .token (n := ⟨" a;import 'b';\n ".toList, ⟨1, 7⟩⟩) rfl rfl
      (.token (n := ⟨";import 'b';\n ".toList, ⟨1, 9⟩⟩) rfl rfl
        (.token (n := ⟨"import 'b';\n ".toList, ⟨1, 10⟩⟩) rfl rfl
          (.token (n := ⟨" 'b';\n ".toList, ⟨1, 16⟩⟩) rfl rfl
            (.token (n := ⟨";\n ".toList, ⟨1, 20⟩⟩) (by cbv) rfl
              (.token (n := ⟨"\n ".toList, ⟨1, 21⟩⟩) rfl rfl
                (.finished (n := ⟨[], ⟨2, 2⟩⟩) rfl rfl))))))
  have hup' : (Place.ofText "import\n'c';".toList).Upcoming
      [⟨.kwImport, "import".toList, ⟨1, 1⟩⟩, ⟨.nonEmptyString, "'c'".toList, ⟨2, 1⟩⟩,
        ⟨.semicolon, [';'], ⟨2, 4⟩⟩] (.ok (.eos ⟨2, 5⟩)) :=
    .token (n := ⟨"\n'c';".toList, ⟨1, 7⟩⟩) rfl rfl
      (.token (n := ⟨[';'], ⟨2, 4⟩⟩) (by cbv) rfl
        (.token (n := ⟨[], ⟨2, 5⟩⟩) rfl rfl (.finished (n := ⟨[], ⟨2, 5⟩⟩) rfl rfl)))
  have hr := TokenReader.at_ofFeed "pragma a;import 'b';\n ".toList
  have hr' := TokenReader.at_ofFeed "import\n'c';".toList
  have hweight : (TokenReader.ofFeed (.ofText "pragma a;import 'b';\n ".toList)).weight = 22 := by
    decide +kernel
  have hweight' : (TokenReader.ofFeed (.ofText "import\n'c';".toList)).weight = 11 := by
    decide +kernel
  have hfront : SourceUnit.parse "pragma a;import 'b';\n " =
      .ok ⟨some ⟨⟨1, 1⟩, [⟨.identifier, ['a'], ⟨1, 8⟩⟩], ⟨1, 9⟩⟩,
        some ⟨⟨1, 10⟩, .path ⟨⟨.nonEmptyString, "'b'".toList, ⟨1, 17⟩⟩, none⟩, ⟨1, 20⟩⟩,
        none, none⟩ := by
    rw [SourceUnit.parse, TokenReader.parse, hweight]
    exact (Rule.run_describes (Production.sourceUnit.rule 23) hr hup).1
  have hback : SourceUnit.parse "import\n'c';" =
      .ok ⟨none, some ⟨⟨1, 1⟩, .path ⟨⟨.nonEmptyString, "'c'".toList, ⟨2, 1⟩⟩, none⟩, ⟨2, 4⟩⟩,
        none, none⟩ := by
    rw [SourceUnit.parse, TokenReader.parse, hweight']
    exact (Rule.run_describes (Production.sourceUnit.rule 12) hr' hup').1
  exact ⟨hfront, hback, SourceUnit.parse_append hfront hback⟩

end SoliditySource
