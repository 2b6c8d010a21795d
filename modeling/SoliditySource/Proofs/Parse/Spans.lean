import SoliditySource.Proofs.Outline.Exact
import SoliditySource.Proofs.Parse.Contents
import SoliditySource.Proofs.Token.Lossless

/-! # Spans of the nodes of a text

Read from a text, each node goes from the first token that was taken for it to the last one,
and its children lie one behind the other within it.
-/

namespace SoliditySource

/-! ## The tokens taken from a text -/

theorem Place.Upcoming.wellPlaced {place : Place} {ts : List Token} {ending : Except Fault Token}
    (h : place.Upcoming ts ending) (hknown : place.position.isKnown = true) : WellPlaced ts where
  ordered := h.ordered
  known t ht := by
    obtain ⟨text, htext⟩ := h.position_mem t ht
    rw [htext]
    exact Position.isKnown_advance hknown text
  closer := h.last_of_isCloser

/-- Tokens that a reader hands out, the end token not being among them, are ahead of it. -/
theorem TokenReader.Hands.isPrefix {r s : TokenReader} {us : List Token} (h : r.Hands us s)
    {place : Place} {ts : List Token} {ending : Except Fault Token} (hr : r.At place)
    (hup : place.Upcoming ts ending) (hus : ∀ t ∈ us, t.kind ≠ .eos) : us <+: ts := by
  induction h generalizing place ts with
  | nil r => exact List.nil_prefix
  | cons hnext _ ih =>
      obtain ⟨ht, hus⟩ := List.forall_mem_cons.mp hus
      cases hup with
      | refused hread =>
          obtain ⟨u, hu⟩ := next_error hr hread
          cases hnext.symm.trans hu
      | finished hread heos =>
          obtain ⟨u, hu, -⟩ := next_ok hr hread
          cases hnext.symm.trans hu
          exact absurd (by simpa [Token.isEos] using heos) ht
      | token hread _ hup =>
          obtain ⟨u, hu, ha⟩ := next_ok hr hread
          cases hnext.symm.trans hu
          exact (List.prefix_cons_inj _).mpr (ih ha hup hus)

/-- Whatever a production gives stores tokens in a row of those taken. -/
theorem Production.gathers {α : Type} (production : Production α) (limit : Nat) :
    (production.rule limit).Gathers none fun ts tree => production.Shaped tree ∧
      ∀ o ∈ production.outlines tree, ∃ us, us <:+: ts ∧ Recorded o.leaves us := by
  cases hwhole : production.isWhole with
  | true =>
      cases production with
      | sourceUnit => exact Grammar.gathers_sourceUnit limit
      | _ => cases hwhole
  | false =>
      apply Rule.Gathers.imp (Production.stores hwhole limit)
      intro ts tree h
      exact ⟨h.2, fun o ho => Outline.recorded_of_mem h.1 ho⟩

theorem TokenReader.wellPlaced_consumed {α : Type} {text : List Char} {production : Production α}
    {tree : α} (h : ((ofFeed (.ofText text)).parse production).result = .ok tree) :
    WellPlaced ((ofFeed (.ofText text)).consumed production) := by
  obtain ⟨ts, ending, hup⟩ := (Place.ofText text).exists_upcoming
  obtain ⟨s, hhands, -⟩ := Rule.hands_taken _ h
  obtain ⟨hkinds, -⟩ := (production.gathers _).sound (by simp) h
  exact (hup.wellPlaced rfl).part (hhands.isPrefix (at_ofFeed text) hup hkinds).isInfix

/-! ## Spans -/

/-- Each node of what a production gives starts with the first of the tokens in a row that it
stores, and ends with the last one. It starts at a known position and does not end before it
starts. Its children lie one behind the other, in source order, and within it. -/
theorem TokenReader.parse_spans {α : Type} {text : List Char} {production : Production α}
    {tree : α} (h : ((ofFeed (.ofText text)).parse production).result = .ok tree)
    {o node : Outline} (ho : o ∈ production.outlines tree) (hnode : o.Contains node) :
    (∃ us t u, us <:+: (ofFeed (.ofText text)).consumed production ∧ Recorded node.leaves us ∧
        us.head? = some t ∧ us.getLast? = some u ∧ node.span = ⟨t.position, u.last⟩) ∧
      node.span.first.isKnown = true ∧ node.span.first ≤ node.span.last ∧
      node.children.Pairwise (fun c d => c.span.last < d.span.first) ∧
      ∀ c ∈ node.children, node.span.first ≤ c.span.first ∧ c.span.last ≤ node.span.last := by
  obtain ⟨-, hshaped, hrecorded⟩ := (production.gathers _).sound (by simp) h
  obtain ⟨hexact, hisNode⟩ := production.exact_outlines hshaped o ho
  obtain ⟨ts, hts, hrecorded⟩ := hrecorded o ho
  obtain ⟨hexact, hisNode, us, hus, hrecorded⟩ := hnode.recorded hexact hisNode hrecorded
  have hpart := hus.trans hts
  have hplaced := (wellPlaced_consumed h).part hpart
  obtain ⟨t, u, ht, hu, hspan⟩ := hexact.cover hisNode hrecorded hplaced
  obtain ⟨hchildren, hwithin⟩ := hexact.children hisNode hrecorded hplaced
  refine ⟨⟨us, t, u, hpart, hrecorded, ht, hu, hspan⟩, ?_, ?_, hchildren, hwithin⟩
  · rw [hspan]
    exact hplaced.known t (List.mem_of_head? ht)
  · rw [hspan]
    exact Position.le_trans t.position_le_last (hplaced.le_last hu t (List.mem_of_head? ht))

theorem TokenReader.parse_spans_two_lines :
    ∃ e : ImportPath,
      ((ofFeed (.ofText "'a'\n as b".toList)).parse .importPath).result = .ok e ∧
      e.span = ⟨⟨1, 1⟩, ⟨2, 5⟩⟩ ∧
      (∃ us t u, us <:+: (ofFeed (.ofText "'a'\n as b".toList)).consumed .importPath ∧
        Recorded e.outline.leaves us ∧ us.head? = some t ∧ us.getLast? = some u ∧
        e.span = ⟨t.position, u.last⟩) ∧
      e.outline.children.Pairwise fun c d => c.span.last < d.span.first := by
  have hr := at_ofFeed "'a'\n as b".toList
  have hweight : (ofFeed (.ofText "'a'\n as b".toList)).weight = 9 := by decide +kernel
  have hup : (Place.ofText "'a'\n as b".toList).Upcoming
      [⟨.nonEmptyString, "'a'".toList, ⟨1, 1⟩⟩, ⟨.kwAs, "as".toList, ⟨2, 2⟩⟩,
        ⟨.identifier, ['b'], ⟨2, 5⟩⟩] (.ok (.eos ⟨2, 6⟩)) :=
    .token (n := ⟨"\n as b".toList, ⟨1, 4⟩⟩) (by cbv) rfl
      (.token (n := ⟨" b".toList, ⟨2, 4⟩⟩) rfl rfl
        (.token (n := ⟨[], ⟨2, 6⟩⟩) rfl rfl (.finished (n := ⟨[], ⟨2, 6⟩⟩) rfl rfl)))
  have hparse : ∃ e, ((ofFeed (.ofText "'a'\n as b".toList)).parse .importPath).result = .ok e ∧
      e.span = ⟨⟨1, 1⟩, ⟨2, 5⟩⟩ := by
    rw [parse, hweight]
    exact ⟨_, (Rule.run_describes (Production.importPath.rule 10) hr hup).1, rfl⟩
  obtain ⟨e, he, hspan⟩ := hparse
  obtain ⟨hcover, -, -, hchildren, -⟩ :=
    parse_spans he (List.mem_singleton_self e.outline) .self
  exact ⟨e, he, hspan, hcover, hchildren⟩

end SoliditySource
