import SoliditySource.Proofs.Grammar.Limits
import SoliditySource.Proofs.Outline.Exact
import SoliditySource.Proofs.Parse.Contents
import SoliditySource.Proofs.Source.Text
import SoliditySource.Proofs.Token.Progress

/-! # Productions take tokens

The tree that a production gives starts with a token, so a production that succeeds has taken one;
only a whole source unit may be empty. Tokens take runes away, so the repetitions of the grammar
end by themselves and the limits on them are not met.
-/

namespace SoliditySource

/-- An exact outline that starts somewhere stores a token. -/
theorem Outline.Exact.ne_nil {o : Outline} (h : o.Exact) (hfirst : o.first? ≠ none)
    {us : List Token} (hrecorded : Recorded o.leaves us) : us ≠ [] := by
  induction h generalizing us with
  | leaf l =>
      rw [recorded_leaf] at hrecorded
      cases l with
      | mark kind position =>
          obtain ⟨text, rfl⟩ := hrecorded
          exact List.cons_ne_nil _ _
      | token t =>
          rw [show us = [t] from hrecorded]
          exact List.cons_ne_nil _ _
      | literal l =>
          obtain ⟨t, rfl, -⟩ := hrecorded
          exact List.cons_ne_nil _ _
      | modifiers kept => exact absurd rfl hfirst
  | node hstart _ _ ih =>
      obtain ⟨part, hpart, hpos⟩ := Option.bind_eq_some_iff.mp hstart
      obtain ⟨rest, rfl⟩ := List.head?_eq_some_iff.mp hpart
      rw [leaves_node, List.flatMap_cons, recorded_append] at hrecorded
      obtain ⟨us, vs, rfl, hus, -⟩ := hrecorded
      have hne := ih part List.mem_cons_self (by simp [hpos]) hus
      exact List.append_ne_nil_of_left_ne_nil hne vs

theorem Feed.decoded_ofText (text : List Char) : (ofText text).decoded = text := by
  rw [ofText_eq_runes]
  induction text with
  | nil => rfl
  | cons c text ih => rw [runes, decoded, ih]

theorem Production.outlines_eq_singleton {α : Type} {production : Production α}
    (h : production.isWhole = false) (tree : α) :
    ∃ o, production.outlines tree = [o] := by
  cases production with
  | sourceUnit => cases h
  | _ => exact ⟨_, rfl⟩

namespace TokenReader

variable {r : TokenReader}

/-- A construct has a first token. -/
theorem consumed_ne_nil {α : Type} {production : Production α}
    (hproduction : production.isWhole = false) {tree : α}
    (h : (r.parse production).result = .ok tree) :
    r.consumed production ≠ [] ∧ ∀ t ∈ r.consumed production, t.kind ≠ .eos := by
  obtain ⟨hkinds, hrecorded, hshaped⟩ :=
    (Production.stores hproduction (r.weight + 1)).sound (by simp) h
  obtain ⟨o, ho⟩ := production.outlines_eq_singleton hproduction tree
  obtain ⟨hexact, hnode⟩ := production.exact_outlines hshaped o (by simp [ho])
  rw [ho, List.flatMap_singleton] at hrecorded
  refine ⟨hexact.ne_nil ?_ hrecorded, hkinds⟩
  cases o with
  | leaf l => cases hnode
  | node span parts => exact Option.some_ne_none _

/-- A source may deliver and fail in any way, and steps and productions, failing or not, may have
been made on it. A fragment or a token that is handed out then was held, or takes runes away. A
production other than that of a whole source unit takes a token if it succeeds. The tokens that a
production takes leave less room, whether or not it succeeds, and the limit on its repetitions is
not met. All tokens up to the end token are at most one more than there is room for, which is one
for each rune at the start of a source. -/
theorem reached_progress {feed : Feed} (h : r.Reached feed) :
    (∀ steps f s, (FragmentReader.after steps r.fragments).next = .ok (some f) s →
      let q := FragmentReader.after steps r.fragments
      (q.held = some f ∧ s = { q with held := none }) ∨
        (q.held = none ∧ f.text ≠ [] ∧ q.remaining = f.text ++ s.remaining)) ∧
    (∀ t s, r.next = .ok t s → t.isEos = false →
      (r.held = some t ∧ s = { r with held := none }) ∨
        (r.held = none ∧
          ∃ text, text ≠ [] ∧ r.fragments.remaining = text ++ s.fragments.remaining)) ∧
    (∀ {α : Type} (production : Production α) tree, production.isWhole = false →
      (r.parse production).result = .ok tree →
        r.consumed production ≠ [] ∧ (∀ t ∈ r.consumed production, t.kind ≠ .eos) ∧
          ∃ s, r.Hands (r.consumed production) s ∧ (r.parse production).reader.next = s.next) ∧
    (∀ {α : Type} (production : Production α),
      Token.tally (r.consumed production) + (r.parse production).reader.room ≤ r.room ∧
        ∀ limit, r.weight < limit → (production.rule limit).run r = r.parse production) ∧
    (∀ ts s, r.all = .ok ts s → ts.length ≤ r.room + 1) ∧
    (ofFeed feed).room = feed.decoded.length ∧ ∀ text, (Feed.ofText text).decoded = text := by
  have hpast := h.past
  refine ⟨?_, ?_, ?_, ?_, fun ts s ha => hpast.length_all ha, rfl, Feed.decoded_ofText⟩
  · intro steps f s hn
    have hsteps := leftBy_induction (fun s {r} (hr : FragmentReader.Past feed [] r) => hr.step s)
      hpast.fragments steps
    exact hsteps.next_progress hn
  · exact fun t s hn ht => hpast.next_progress hn ht
  · intro α production tree hproduction htree
    obtain ⟨hne, hkinds⟩ := consumed_ne_nil hproduction htree
    exact ⟨hne, hkinds, Rule.hands_taken _ htree⟩
  · exact fun production =>
      ⟨hpast.room_run _, fun limit hlimit => (r.parse_eq_run production hlimit).symm⟩

/-- Each rune is a token of its own, so the end token is one more. -/
theorem reached_progress_period :
    let r := ofFeed (.ofText "a.b".toList)
    r.Reached (.ofText "a.b".toList) ∧ r.room = 3 ∧
    (∃ ts s, r.all = .ok ts s ∧ ts.length = 4 ∧ ts.length ≤ r.room + 1) ∧
    r.consumed .identifierPath ≠ [] := by
  intro r
  have hr : r.At (Place.ofText "a.b".toList) := at_ofFeed _
  have hweight : r.weight = 3 := by decide +kernel
  have hup : (Place.ofText "a.b".toList).Upcoming [⟨.identifier, ['a'], ⟨1, 1⟩⟩,
      ⟨.period, ['.'], ⟨1, 2⟩⟩, ⟨.identifier, ['b'], ⟨1, 3⟩⟩] (.ok (.eos ⟨1, 4⟩)) :=
    .token (n := ⟨".b".toList, ⟨1, 2⟩⟩) rfl rfl
      (.token (n := ⟨"b".toList, ⟨1, 3⟩⟩) rfl rfl
        (.token (n := ⟨[], ⟨1, 4⟩⟩) rfl rfl (.finished (n := ⟨[], ⟨1, 4⟩⟩) rfl rfl)))
  have hparse : ∃ tree, (r.parse .identifierPath).result = .ok tree := by
    rw [parse, hweight]
    exact ⟨_, (Rule.run_describes (Production.identifierPath.rule 4) hr hup).1⟩
  obtain ⟨tree, htree⟩ := hparse
  obtain ⟨s, hs⟩ := all_upcoming hup hr
  obtain ⟨-, -, hconstruct, -, hall, hroom, hdecoded⟩ := reached_progress (r := r) .start
  have hthree : r.room = 3 := by
    rw [hroom, hdecoded]
    rfl
  exact ⟨.start, hthree, ⟨_, s, hs, rfl, hall _ s hs⟩, (hconstruct .identifierPath tree rfl htree).1⟩

end TokenReader

end SoliditySource
