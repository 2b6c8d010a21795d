import SoliditySource.Proofs.Parse.Acceptance
import SoliditySource.Proofs.Reparse.Moves
import SoliditySource.Proofs.Reparse.Segments

/-! # Nodes read on their own

The part of a text that a node of its source unit covers is enough to read the node again:
what stands around it in the text has no say in it.
-/

namespace SoliditySource

/-- A node of a source unit is among the tokens ahead, and its span goes from the first of
its tokens to the last one. -/
theorem SourceUnit.Contains.tokens {unit : SourceUnit} {node : Node} (h : unit.Contains node)
    {place : Place} {ts : List Token} {ending : Except Fault Token}
    (hup : place.Upcoming ts ending) (hunit : Phrase.sourceUnit.Spells ts unit) :
    ∃ front us back t u, ts = front ++ us ++ back ∧ us.head? = some t ∧
      us.getLast? = some u ∧ node.sort.production.phrase.Spells us node.tree ∧
      node.sort.span node.tree = ⟨t.position, u.last⟩ := by
  obtain ⟨us, ⟨front, back, hts⟩, hspells⟩ := h.sits hunit
  obtain ⟨⟨⟨t, ht, hfirst⟩, ⟨u, hu, hlast⟩⟩, -⟩ := node.sort.fits hspells
  have hmem : u ∈ ts := by
    rw [← hts]
    exact List.mem_append_left _ (List.mem_append_right _ (List.mem_of_getLast? hu))
  have hend := hlast (hup.last_of_isCloser u hmem)
  refine ⟨front, us, back, t, u, hts.symm, ht, hu, hspells, ?_⟩
  rw [← hfirst, ← hend]

/-- A node that a source unit contains, at any depth, is read again from the runes of the text
from its first to its last position. It is the same node, its own start now being the start
of the text, and the end token is what comes next. -/
theorem SourceUnit.parse_slice {text : String} {unit : SourceUnit}
    (h : SourceUnit.parse text = .ok unit) {node : Node} (hnode : unit.Contains node) :
    ((TokenReader.ofFeed (.ofText ((node.sort.span node.tree).slice text.toList))).parse
        node.sort.production).result =
      .ok (node.sort.relocate
        (Position.relativeTo (node.sort.span node.tree).first) node.tree) ∧
    ∃ eos s, ((TokenReader.ofFeed (.ofText ((node.sort.span node.tree).slice text.toList))).parse
        node.sort.production).reader.next = .ok eos s ∧ eos.kind = .eos := by
  obtain ⟨ts, ending, hup⟩ := (Place.ofText text.toList).exists_upcoming
  obtain ⟨-, hunit⟩ := TokenReader.parse_sourceUnit_ok (TokenReader.at_ofFeed _) hup h
  obtain ⟨front, us, back, t, u, rfl, ht, hu, hspells, hspan⟩ := hnode.tokens hup hunit
  obtain ⟨⟨eos, hslice⟩, hends⟩ := hup.slice ht hu
  obtain ⟨_, hmoved, rfl⟩ := node.sort.moves _ us node.tree hends hspells
  rw [hspan]
  obtain ⟨hresult, s, hs⟩ :=
    TokenReader.parse_of_spells node.sort.production (TokenReader.at_ofFeed _) hslice hmoved
  exact ⟨hresult, eos, s, hs, hslice.isEos⟩

theorem SourceUnit.parse_slice_two_lines :
    ∃ unit, SourceUnit.parse "import 'a'\n as b;" = .ok unit ∧
      unit.Contains ⟨.importPath, ⟨⟨.nonEmptyString, "'a'".toList, ⟨1, 8⟩⟩,
        some ⟨⟨2, 2⟩, ⟨.identifier, ['b'], ⟨2, 5⟩⟩⟩⟩⟩ ∧
      ((TokenReader.ofFeed (.ofText "'a'\n as b".toList)).parse .importPath).result =
        .ok ⟨⟨.nonEmptyString, "'a'".toList, ⟨1, 1⟩⟩,
          some ⟨⟨2, 2⟩, ⟨.identifier, ['b'], ⟨2, 5⟩⟩⟩⟩ ∧
      ∃ eos s, ((TokenReader.ofFeed (.ofText "'a'\n as b".toList)).parse
        .importPath).reader.next = .ok eos s ∧ eos.kind = .eos := by
  have hr := TokenReader.at_ofFeed "import 'a'\n as b;".toList
  have hweight : (TokenReader.ofFeed (.ofText "import 'a'\n as b;".toList)).weight = 17 := by
    decide +kernel
  have hup : (Place.ofText "import 'a'\n as b;".toList).Upcoming
      [⟨.kwImport, "import".toList, ⟨1, 1⟩⟩, ⟨.nonEmptyString, "'a'".toList, ⟨1, 8⟩⟩,
        ⟨.kwAs, "as".toList, ⟨2, 2⟩⟩, ⟨.identifier, ['b'], ⟨2, 5⟩⟩, ⟨.semicolon, [';'], ⟨2, 6⟩⟩]
      (.ok (.eos ⟨2, 7⟩)) :=
    .token (n := ⟨" 'a'\n as b;".toList, ⟨1, 7⟩⟩) rfl rfl
      (.token (n := ⟨"\n as b;".toList, ⟨1, 11⟩⟩) (by cbv) rfl
        (.token (n := ⟨" b;".toList, ⟨2, 4⟩⟩) rfl rfl
          (.token (n := ⟨[';'], ⟨2, 6⟩⟩) rfl rfl
            (.token (n := ⟨[], ⟨2, 7⟩⟩) rfl rfl (.finished (n := ⟨[], ⟨2, 7⟩⟩) rfl rfl)))))
  have hparse : ∃ d, SourceUnit.parse "import 'a'\n as b;" = .ok ⟨none, some d, none, none⟩ ∧
      d.element = .path ⟨⟨.nonEmptyString, "'a'".toList, ⟨1, 8⟩⟩,
        some ⟨⟨2, 2⟩, ⟨.identifier, ['b'], ⟨2, 5⟩⟩⟩⟩ := by
    rw [SourceUnit.parse, TokenReader.parse, hweight]
    exact ⟨_, (Rule.run_describes (Production.sourceUnit.rule 18) hr hup).1, rfl⟩
  obtain ⟨d, hparse, helement⟩ := hparse
  have hdirective : (SourceUnit.mk none (some d) none none).Contains ⟨.importDirective, d⟩ :=
    .top List.mem_cons_self
  have hnode := SourceUnit.Contains.deeper hdirective
    (show ⟨.importPath, _⟩ ∈ d.element.children by rw [helement]; exact List.mem_cons_self)
  exact ⟨_, hparse, hnode, SourceUnit.parse_slice hparse hnode⟩

end SoliditySource
