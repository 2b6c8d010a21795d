import SoliditySource.Proofs.Grammar.Limits
import SoliditySource.Proofs.Grammar.Mirrors
import SoliditySource.Proofs.Parse.Locality
import SoliditySource.Proofs.Token.Relayout

/-! # Sources with the same kinds and texts

Reading a construct depends on the kinds and texts of the tokens alone. Where two sources
agree in them, the trees differ in positions only, and each position is that of the token with
the same number; so is the position of a refusal.
-/

namespace SoliditySource

/-! ## Positions of the same tokens -/

/-- Where the second tokens have what the first ones have at a position: the start of a token
goes to the start of its counterpart, the end to the end. -/
def counterpart : List Token → List Token → Position → Position
  | t :: ts, u :: us, p =>
      if p = t.position then u.position
      else if p = t.last then u.last
      else counterpart ts us p
  | _, _, p => p

theorem Position.lt_irrefl (p : Position) : ¬ p < p := fun h => not_le_of_lt h (le_refl p)

theorem Position.eq_nil_of_advance {p : Position} {text : List Char} (h : p.advance text = p) :
    text = [] := by
  cases text with
  | nil => rfl
  | cons c text =>
      have hlt := lt_of_lt_of_le (lt_after p c) (le_advance (p.after c) text)
      rw [← advance_cons, h] at hlt
      exact absurd hlt (lt_irrefl p)

namespace Token

/-- A token with at most one rune ends where it starts, and so do all with its text. -/
theorem last_eq_position {t u : Token} (hface : t.face = u.face) (ht : t.last = t.position) :
    u.last = u.position := by
  have htext : t.text = u.text := congrArg Prod.snd hface
  rw [last_eq_advance] at ht ⊢
  rw [← htext, Position.eq_nil_of_advance ht, Position.advance_nil]

theorem relocate_eq {t u : Token} {f : Position → Position} (hface : t.face = u.face)
    (hf : f t.position = u.position) : u = t.relocate f := by
  obtain ⟨kind, text, p⟩ := t
  obtain ⟨kind', text', q⟩ := u
  cases hface
  rw [relocate, hf]

end Token

/-- By induction on the tokens: those behind the first one stand behind its end. -/
theorem counterpart_spec {ts us : List Token}
    (hfaces : List.Forall₂ (fun t u => t.face = u.face) ts us)
    (hordered : ts.Pairwise fun t u => t.last < u.position) :
    List.Forall₂ (fun t u => counterpart ts us t.position = u.position ∧
      counterpart ts us t.last = u.last) ts us := by
  induction hfaces with
  | nil => exact .nil
  | @cons t u ts us hface hfaces ih =>
      obtain ⟨hbehind, hordered⟩ := List.pairwise_cons.mp hordered
      have hhead : counterpart (t :: ts) (u :: us) t.last = u.last := by
        rw [counterpart]
        split
        · next hlast => exact (Token.last_eq_position hface hlast).symm
        · rw [if_pos rfl]
      have htail : ∀ v ∈ ts, ∀ p, v.position ≤ p →
          counterpart (t :: ts) (u :: us) p = counterpart ts us p := by
        intro v hv p hp
        have hlt := Position.lt_of_lt_of_le (hbehind v hv) hp
        rw [counterpart, if_neg, if_neg]
        · rintro rfl
          exact Position.lt_irrefl _ hlt
        · rintro rfl
          exact Position.not_le_of_lt hlt t.position_le_last
      refine .cons ⟨if_pos rfl, hhead⟩ ?_
      have hmem := (List.forall₂_and_left ts us).mpr ⟨fun v hv => hv, ih hordered⟩
      refine hmem.imp ?_
      intro v w h
      obtain ⟨hv, hposition, hlast⟩ := h
      rw [htail v hv _ (Position.le_refl _), htail v hv _ v.position_le_last]
      exact ⟨hposition, hlast⟩

/-- Tokens with the same kinds and texts are the first ones moved to their counterparts, and
moving keeps their ends. -/
theorem map_counterpart {ts us : List Token}
    (hfaces : List.Forall₂ (fun t u => t.face = u.face) ts us)
    (hordered : ts.Pairwise fun t u => t.last < u.position) :
    us = ts.map (Token.relocate (counterpart ts us)) ∧ KeepsEnds (counterpart ts us) ts := by
  have hspec := counterpart_spec hfaces hordered
  generalize counterpart ts us = f at hspec ⊢
  induction hspec with
  | nil => exact ⟨rfl, fun t ht => absurd ht List.not_mem_nil⟩
  | cons h _ ih =>
      obtain ⟨hface, hfaces⟩ := List.forall₂_cons.mp hfaces
      obtain ⟨hmap, hends⟩ := ih hfaces hordered.tail
      have hu := Token.relocate_eq hface h.1
      refine ⟨by rw [List.map_cons, ← hmap, ← hu], List.forall_mem_cons.mpr ⟨?_, hends⟩⟩
      rw [← hu, h.2]

/-! ## Reading at other positions -/

namespace TokenReader

theorem parse_mirrors {f : Position → Position} {r r' : TokenReader} {place place' : Place}
    {ts : List Token} {eos : Token} (hr : r.At place) (hr' : r'.At place')
    (hup : place.Upcoming ts (.ok eos))
    (hup' : place'.Upcoming (ts.map (Token.relocate f)) (.ok (eos.relocate f)))
    (hends : KeepsEnds f (ts ++ [eos])) {α : Type} (production : Production α) :
    (∃ tree, (r.parse production).result = .ok tree ∧
      (r'.parse production).result = .ok (production.relocate f tree)) ∨
    ∃ p cause, (r.parse production).result = .error (.refused ⟨p, cause⟩) ∧
      (r'.parse production).result = .error (.refused ⟨f p, cause⟩) := by
  have hlimit : r.weight < max r.weight r'.weight + 1 := by omega
  have hlimit' : r'.weight < max r.weight r'.weight + 1 := by omega
  rw [parse_eq_run r production hlimit, parse_eq_run r' production hlimit']
  cases (production.mirrors_rule f _).run hr hr' hup hup' hends with
  | inl hok =>
      obtain ⟨tree, tree', htree, h, h'⟩ := hok
      exact .inl ⟨tree, h, htree ▸ h'⟩
  | inr herror => exact .inr herror

/-- The tokens of a text that falls into tokens, the end token being the last one. -/
theorem upcoming_of_all {text : List Char} {ts : List Token} {s : TokenReader}
    (h : (ofFeed (.ofText text)).all = .ok ts s) :
    ∃ front eos, ts = front ++ [eos] ∧ (Place.ofText text).Upcoming front (.ok eos) := by
  obtain ⟨front, ending, hup⟩ := (Place.ofText text).exists_upcoming
  obtain ⟨s', hs'⟩ := all_upcoming hup (at_ofFeed text)
  rw [hs'] at h
  cases ending with
  | error fault => cases h
  | ok eos => cases h; exact ⟨front, eos, rfl, hup⟩

/-- Two sources fall into tokens that agree, one by one, in kinds and texts. Every construct is
then read from both or from none. The tree from the second source is the one from the first
with each position replaced by that of the same token; a refusal has the same cause, at tokens
with the same number. -/
theorem parse_same_faces {text text' : List Char} {ts us : List Token} {s s' : TokenReader}
    (h : (ofFeed (.ofText text)).all = .ok ts s) (h' : (ofFeed (.ofText text')).all = .ok us s')
    (hfaces : ts.map Token.face = us.map Token.face) :
    List.Forall₂ (fun t u => counterpart ts us t.position = u.position ∧
      counterpart ts us t.last = u.position.lastRune u.text) ts us ∧
    ∀ {α : Type} (production : Production α),
      (∃ tree, ((ofFeed (.ofText text)).parse production).result = .ok tree ∧
        ((ofFeed (.ofText text')).parse production).result =
          .ok (production.relocate (counterpart ts us) tree)) ∨
      ∃ (i : Nat) (t u : Token) (cause : Cause), ts[i]? = some t ∧ us[i]? = some u ∧
        ((ofFeed (.ofText text)).parse production).result =
          .error (.refused ⟨t.position, cause⟩) ∧
        ((ofFeed (.ofText text')).parse production).result =
          .error (.refused ⟨u.position, cause⟩) := by
  have hsame : List.Forall₂ (fun t u => t.face = u.face) ts us := by
    rw [← List.forall₂_map_left_iff (R := fun face u => face = Token.face u),
      ← List.forall₂_map_right_iff, hfaces, List.forall₂_eq_eq_eq]
  obtain ⟨front, eos, hts, hup⟩ := upcoming_of_all h
  obtain ⟨front', eos', hus, hup'⟩ := upcoming_of_all h'
  have hordered : ts.Pairwise fun t u => t.last < u.position := by
    rw [hts]
    refine List.pairwise_append.mpr ⟨hup.ordered, List.pairwise_singleton _ _, ?_⟩
    simpa using hup.last_lt_eos
  obtain ⟨hmap, hends⟩ := map_counterpart hsame hordered
  refine ⟨counterpart_spec hsame hordered, ?_⟩
  generalize counterpart ts us = f at hmap hends ⊢
  have hsplit : front' ++ [eos'] = front.map (Token.relocate f) ++ [eos.relocate f] := by
    rw [← hus, hmap, hts, List.map_append, List.map_singleton]
  obtain ⟨hfront, heos⟩ := List.append_inj' hsplit rfl
  cases heos
  rw [hfront] at hup'
  rw [hts] at hends
  intro α production
  have hr := at_ofFeed text
  have hr' := at_ofFeed text'
  cases parse_mirrors hr hr' hup hup' hends production with
  | inl hok => exact .inl hok
  | inr herror =>
      obtain ⟨p, cause, hp, hp'⟩ := herror
      obtain ⟨fault, t, he, hposition, before, after, hbreak, -, -⟩ :=
        refused_at_break production hr hup hp
      cases he
      obtain rfl : p = t.position := hposition
      have hget : ts[before.length]? = some t := by
        rw [hts, hbreak, List.getElem?_append_right (Nat.le_refl _), Nat.sub_self,
          List.getElem?_cons_zero]
      refine .inr ⟨before.length, t, t.relocate f, cause, hget, ?_, hp, hp'⟩
      rw [hmap, List.getElem?_map, hget, Option.map_some]

theorem parse_same_faces_two_lines :
    ∃ s s', (ofFeed (.ofText "'a' as b".toList)).all = .ok [⟨.nonEmptyString, "'a'".toList, ⟨1, 1⟩⟩,
          ⟨.kwAs, "as".toList, ⟨1, 5⟩⟩, ⟨.identifier, ['b'], ⟨1, 8⟩⟩, .eos ⟨1, 9⟩] s ∧
      (ofFeed (.ofText "'a'\n as b".toList)).all = .ok [⟨.nonEmptyString, "'a'".toList, ⟨1, 1⟩⟩,
          ⟨.kwAs, "as".toList, ⟨2, 2⟩⟩, ⟨.identifier, ['b'], ⟨2, 5⟩⟩, .eos ⟨2, 6⟩] s' ∧
      ((ofFeed (.ofText "'a' as b".toList)).parse .importPath).result =
        .ok ⟨⟨.nonEmptyString, "'a'".toList, ⟨1, 1⟩⟩,
          some ⟨⟨1, 5⟩, ⟨.identifier, ['b'], ⟨1, 8⟩⟩⟩⟩ ∧
      ((ofFeed (.ofText "'a'\n as b".toList)).parse .importPath).result =
        .ok ⟨⟨.nonEmptyString, "'a'".toList, ⟨1, 1⟩⟩,
          some ⟨⟨2, 2⟩, ⟨.identifier, ['b'], ⟨2, 5⟩⟩⟩⟩ := by
  have hr := at_ofFeed "'a' as b".toList
  have hup : (Place.ofText "'a' as b".toList).Upcoming [⟨.nonEmptyString, "'a'".toList, ⟨1, 1⟩⟩,
      ⟨.kwAs, "as".toList, ⟨1, 5⟩⟩, ⟨.identifier, ['b'], ⟨1, 8⟩⟩] (.ok (.eos ⟨1, 9⟩)) :=
    .token (n := ⟨" as b".toList, ⟨1, 4⟩⟩) (by cbv) rfl
      (.token (n := ⟨" b".toList, ⟨1, 7⟩⟩) rfl rfl
        (.token (n := ⟨[], ⟨1, 9⟩⟩) rfl rfl (.finished (n := ⟨[], ⟨1, 9⟩⟩) rfl rfl)))
  have hup' : (Place.ofText "'a'\n as b".toList).Upcoming
      [⟨.nonEmptyString, "'a'".toList, ⟨1, 1⟩⟩, ⟨.kwAs, "as".toList, ⟨2, 2⟩⟩,
        ⟨.identifier, ['b'], ⟨2, 5⟩⟩] (.ok (.eos ⟨2, 6⟩)) :=
    .token (n := ⟨"\n as b".toList, ⟨1, 4⟩⟩) (by cbv) rfl
      (.token (n := ⟨" b".toList, ⟨2, 4⟩⟩) rfl rfl
        (.token (n := ⟨[], ⟨2, 6⟩⟩) rfl rfl (.finished (n := ⟨[], ⟨2, 6⟩⟩) rfl rfl)))
  obtain ⟨s, hs⟩ := all_upcoming hup hr
  obtain ⟨s', hs'⟩ := all_upcoming hup' (at_ofFeed _)
  have hparse := (Rule.run_describes (Production.importPath.rule 0) hr hup).1
  refine ⟨s, s', hs, hs', hparse, ?_⟩
  cases (parse_same_faces hs hs' rfl).2 .importPath with
  | inl hok =>
      obtain ⟨tree, htree, hmoved⟩ := hok
      cases hparse.symm.trans htree
      exact hmoved
  | inr herror =>
      obtain ⟨_, _, _, _, _, _, herror, _⟩ := herror
      cases hparse.symm.trans herror

end TokenReader

end SoliditySource
