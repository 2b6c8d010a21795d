import SoliditySource.Proofs.Reparse.Moves
import SoliditySource.Proofs.Rule.Follow

/-! # Rules at other positions

Two rules mirror each other along a change of positions if the second one does with tokens at
the new positions what the first one does with the tokens. No rule that mirrors itself can
decide anything by a position, and every position it stores or reports is one of a token.
-/

namespace SoliditySource

namespace Rule

variable {α β : Type} {f : Position → Position} {R : α → α → Prop} {S : β → β → Prop}
  {rule rule' : Rule α}

/-- The second rule does with tokens whose positions are changed by `f` what the first one does
with the tokens. Events are not compared. -/
inductive Mirrors (f : Position → Position) {α : Type} (R : α → α → Prop) :
    Rule α → Rule α → Prop where
  | done {a a' : α} (h : R a a') : Mirrors f R (done a) (done a')
  | refuse (p : Position) (cause : Cause) : Mirrors f R (refuse ⟨p, cause⟩) (refuse ⟨f p, cause⟩)
  | look {next next' : Token → Rule α}
      (h : ∀ t, f t.last = (t.relocate f).last → Mirrors f R (next t) (next' (t.relocate f))) :
      Mirrors f R (look next) (look next')
  | take {next next' : Token → Rule α}
      (h : ∀ t, f t.last = (t.relocate f).last → Mirrors f R (next t) (next' (t.relocate f))) :
      Mirrors f R (take next) (take next')
  | note (event event' : Event) {next next' : Rule α} (h : Mirrors f R next next') :
      Mirrors f R (note event next) (note event' next')

/-! ## Rules in a row -/

theorem mirrors_pure {a a' : α} (h : R a a') : Mirrors f R (pure a) (pure a') := .done h

theorem Mirrors.bind {g g' : α → Rule β} (h : Mirrors f R rule rule')
    (hg : ∀ a a', R a a' → Mirrors f S (g a) (g' a')) :
    Mirrors f S (rule >>= g) (rule' >>= g') := by
  change Mirrors f S (rule.bind g) (rule'.bind g')
  induction h with
  | done h => exact hg _ _ h
  | refuse p cause => exact .refuse p cause
  | look _ ih => exact .look ih
  | take _ ih => exact .take ih
  | note event event' _ ih => exact .note event event' ih

variable {move : α → α} {move' : β → β}

/-- Behind a rule whose value only moves, the value stands for the moved one. -/
theorem Mirrors.chain {g g' : α → Rule β} (h : Mirrors f (Becomes move) rule rule')
    (hg : ∀ a, Mirrors f S (g a) (g' (move a))) : Mirrors f S (rule >>= g) (rule' >>= g') := by
  apply h.bind
  intro a a' ha
  rw [ha]
  exact hg a

theorem Mirrors.map {g : α → β} (h : Mirrors f (Becomes move) rule rule')
    (hg : ∀ a, g (move a) = move' (g a)) :
    Mirrors f (Becomes move') (g <$> rule) (g <$> rule') := by
  rw [map_eq_pure_bind, map_eq_pure_bind]
  exact h.chain fun a => mirrors_pure (hg a)

/-! ## Single tokens -/

theorem mirrors_log (event event' : Event) : Mirrors f (Becomes id) (log event) (log event') :=
  .note event event' (.done rfl)

theorem mirrors_refuseAt (t : Token) (cause : Cause) :
    Mirrors f R (refuseAt t cause) (refuseAt (t.relocate f) cause) := .refuse t.position cause

/-- A token that is taken keeps its end. -/
theorem mirrors_next_bind {g g' : Token → Rule α}
    (h : ∀ t, f t.last = (t.relocate f).last → Mirrors f R (g t) (g' (t.relocate f))) :
    Mirrors f R (Rule.next >>= g) (Rule.next >>= g') := .take h

theorem mirrors_peek : Mirrors f (Becomes (Token.relocate f)) peek peek :=
  .look fun _ _ => .done rfl

theorem mirrors_next : Mirrors f (Becomes (Token.relocate f)) Rule.next Rule.next :=
  .take fun _ _ => .done rfl

theorem mirrors_takeIf (fits : TokenKind → Bool) (cause : Cause) :
    Mirrors f (Becomes (Token.relocate f)) (takeIf fits cause) (takeIf fits cause) := by
  apply mirrors_next.chain
  intro t
  change Mirrors f _ (if fits t.kind then _ else _) (if fits t.kind then _ else _)
  split
  · exact mirrors_pure rfl
  · exact mirrors_refuseAt t cause

theorem mirrors_expect (kind : TokenKind) (part : Missing) :
    Mirrors f (Becomes (Token.relocate f)) (expect kind part) (expect kind part) :=
  mirrors_takeIf _ _

theorem mirrors_accept? (kind : TokenKind) :
    Mirrors f (Becomes (Option.map (Token.relocate f))) (accept? kind) (accept? kind) := by
  apply mirrors_peek.chain
  intro t
  change Mirrors f _ (if t.kind = kind then _ else _) (if t.kind = kind then _ else _)
  split
  · exact mirrors_next.map fun _ => rfl
  · exact mirrors_pure rfl

theorem Mirrors.whenNext (kind : TokenKind) (h : Mirrors f (Becomes move) rule rule') :
    Mirrors f (Becomes (Option.map move)) (whenNext kind rule) (whenNext kind rule') := by
  apply mirrors_peek.chain
  intro t
  change Mirrors f _ (if t.kind = kind then _ else _) (if t.kind = kind then _ else _)
  split
  · exact h.map fun _ => rfl
  · exact mirrors_pure rfl

theorem mirrors_choose (choice : Choice) :
    Mirrors f (Becomes (Token.relocate f)) (choose choice) (choose choice) := by
  apply mirrors_peek.chain
  intro t
  exact (mirrors_log _ _).chain fun _ => mirrors_pure rfl

/-! ## Lists -/

theorem Mirrors.separatedBy (separator : TokenKind) (h : Mirrors f (Becomes move) rule rule')
    (limit : Nat) :
    Mirrors f (Becomes (List.map (Separated.relocate f move)))
      (separatedBy separator rule limit) (separatedBy separator rule' limit) := by
  induction limit with
  | zero => exact h.chain fun a => mirrors_pure rfl
  | succ limit ih =>
      apply h.chain
      intro a
      apply (mirrors_accept? separator).chain
      intro mark
      cases mark with
      | none => exact mirrors_pure rfl
      | some mark => exact ih.chain fun rest => mirrors_pure rfl

end Rule

/-! ## Verdicts -/

/-- The second verdict is the first one with the positions changed by `f`. -/
inductive Verdict.Mirrors (f : Position → Position) {α : Type} (R : α → α → Prop) :
    Verdict α → Verdict α → Prop where
  | value {a a' : α} (h : R a a') (rest : List Token) :
      Mirrors f R (value a rest) (value a' (rest.map (Token.relocate f)))
  | refusal (p : Position) (cause : Cause) (rest : List Token) :
      Mirrors f R (refusal ⟨p, cause⟩ rest) (refusal ⟨f p, cause⟩ (rest.map (Token.relocate f)))
  | starved : Mirrors f R starved starved

/-- Rules that mirror each other come to mirrored verdicts on tokens that keep their ends. -/
theorem Rule.Mirrors.follow {α : Type} {f : Position → Position} {R : α → α → Prop}
    {rule rule' : Rule α} (h : Mirrors f R rule rule') {ts : List Token} {end? : Option Token}
    (hts : KeepsEnds f ts) (hend : KeepsEnds f end?.toList) :
    (rule.follow end? ts).Mirrors f R
      (rule'.follow (end?.map (Token.relocate f)) (ts.map (Token.relocate f))) := by
  have hhead : ∀ {ts : List Token} {t : Token}, KeepsEnds f ts → ts.head?.or end? = some t →
      f t.last = (t.relocate f).last := by
    intro ts t hts ht
    cases ts with
    | nil => exact hend t (by simpa using ht)
    | cons u ts => cases ht; exact hts t List.mem_cons_self
  induction h generalizing ts with
  | done h => exact .value h ts
  | refuse p cause => exact .refusal p cause ts
  | look _ ih =>
      rw [Rule.follow, Rule.follow, List.head?_map, ← Option.map_or]
      cases ht : ts.head?.or end? with
      | none => exact .starved
      | some t => exact ih t (hhead hts ht) hts
  | take _ ih =>
      rw [Rule.follow, Rule.follow, List.head?_map, ← Option.map_or, ← List.map_tail]
      cases ht : ts.head?.or end? with
      | none => exact .starved
      | some t => exact ih t (hhead hts ht) fun u hu => hts u (List.mem_of_mem_tail hu)
  | note event event' _ ih => exact ih hts

/-- Rules that mirror each other come to related values, or are refused at corresponding
positions for the same cause, when both sources have an end token. -/
theorem Rule.Mirrors.run {α : Type} {f : Position → Position} {R : α → α → Prop}
    {rule rule' : Rule α} (h : Mirrors f R rule rule') {r r' : TokenReader}
    {place place' : Place} {ts : List Token} {eos : Token} (hr : r.At place) (hr' : r'.At place')
    (hup : place.Upcoming ts (.ok eos))
    (hup' : place'.Upcoming (ts.map (Token.relocate f)) (.ok (eos.relocate f)))
    (hends : KeepsEnds f (ts ++ [eos])) :
    (∃ a a', R a a' ∧ (rule.run r).result = .ok a ∧ (rule'.run r').result = .ok a') ∨
      ∃ p cause, (rule.run r).result = .error (.refused ⟨p, cause⟩) ∧
        (rule'.run r').result = .error (.refused ⟨f p, cause⟩) := by
  have hts : KeepsEnds f ts := fun t ht => hends t (List.mem_append_left _ ht)
  have hend : KeepsEnds f (some eos).toList := fun t ht => hends t (List.mem_append_right _ ht)
  have hdescribes : (rule.follow (some eos) ts).Describes (.ok eos) (rule.run r) :=
    rule.run_describes hr hup
  have hdescribes' : (rule'.follow (some (eos.relocate f)) (ts.map (Token.relocate f))).Describes
      (.ok (eos.relocate f)) (rule'.run r') := rule'.run_describes hr' hup'
  have hverdicts : (rule.follow (some eos) ts).Mirrors f R
      (rule'.follow (some (eos.relocate f)) (ts.map (Token.relocate f))) := h.follow hts hend
  generalize rule.follow (some eos) ts = v at hdescribes hverdicts
  generalize rule'.follow (some (eos.relocate f)) _ = v' at hdescribes' hverdicts
  cases hverdicts with
  | value h rest => exact .inl ⟨_, _, h, hdescribes.1, hdescribes'.1⟩
  | refusal p cause rest => exact .inr ⟨p, cause, hdescribes.1, hdescribes'.1⟩
  | starved =>
      -- there is an end token, so no look goes past all tokens
      obtain ⟨fault, hfault, -⟩ := hdescribes
      cases hfault

end SoliditySource
