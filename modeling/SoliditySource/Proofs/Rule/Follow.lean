import SoliditySource.Proofs.Token.Scan
import SoliditySource.Rule.Run

/-! # Rules on lists of tokens

What a rule does on a reader is settled by the tokens ahead. Following a rule on these
tokens alone (`Rule.follow`) gives a verdict, and every run of the rule on a reader bears
it out (`Rule.run_describes`).
-/

namespace SoliditySource

/-- What following a rule on tokens comes to: a value or a refusal, with the tokens that
are left, or a look past all of them. -/
inductive Verdict (α : Type) where
  | value (a : α) (rest : List Token)
  | refusal (fault : Fault) (rest : List Token)
  | starved

/-- Goes on with the value, if there is one. -/
def Verdict.bind {α β : Type} (v : Verdict α) (f : α → List Token → Verdict β) : Verdict β :=
  match v with
  | value a rest => f a rest
  | refusal fault rest => refusal fault rest
  | starved => starved

namespace Rule

variable {α β : Type}

/-- Follows a rule on tokens. After the last one the end token comes again and again,
unless there is none. -/
def follow (end? : Option Token) : Rule α → List Token → Verdict α
  | done value, ts => .value value ts
  | refuse fault, ts => .refusal fault ts
  | look next, ts =>
      match ts.head?.or end? with
      | some t => (next t).follow end? ts
      | none => .starved
  | take next, ts =>
      match ts.head?.or end? with
      | some t => (next t).follow end? ts.tail
      | none => .starved
  | note _ next, ts => next.follow end? ts

theorem follow_bind (end? : Option Token) (rule : Rule α) (f : α → Rule β) (ts : List Token) :
    (rule >>= f).follow end? ts =
      (rule.follow end? ts).bind fun a rest => (f a).follow end? rest := by
  change (rule.bind f).follow end? ts = _
  induction rule generalizing ts with
  | done value => rfl
  | refuse fault => rfl
  | look next ih =>
      simp only [bind, follow]
      cases ts.head?.or end? with
      | some t => exact ih t ts
      | none => rfl
  | take next ih =>
      simp only [bind, follow]
      cases ts.head?.or end? with
      | some t => exact ih t ts.tail
      | none => rfl
  | note event next ih => exact ih ts

@[simp] theorem follow_pure (end? : Option Token) (a : α) (ts : List Token) :
    (pure a : Rule α).follow end? ts = .value a ts := rfl

theorem follow_map (end? : Option Token) (f : α → β) (rule : Rule α) (ts : List Token) :
    (f <$> rule).follow end? ts =
      (rule.follow end? ts).bind fun a rest => .value (f a) rest := by
  rw [← bind_pure_comp, follow_bind]
  rfl

theorem follow_log_bind (end? : Option Token) (event : Event) (f : Unit → Rule β)
    (ts : List Token) : (log event >>= f).follow end? ts = (f ()).follow end? ts := rfl

theorem follow_peek_bind (end? : Option Token) (f : Token → Rule β) (ts : List Token) :
    (peek >>= f).follow end? ts =
      match ts.head?.or end? with
      | some t => (f t).follow end? ts
      | none => .starved := by
  show (look f).follow end? ts = _
  rw [follow]

theorem follow_next_bind (end? : Option Token) (f : Token → Rule β) (ts : List Token) :
    (next >>= f).follow end? ts =
      match ts.head?.or end? with
      | some t => (f t).follow end? ts.tail
      | none => .starved := by
  show (take f).follow end? ts = _
  rw [follow]

theorem follow_next {end? : Option Token} {ts : List Token} {t : Token}
    (ht : ts.head?.or end? = some t) : Rule.next.follow end? ts = .value t ts.tail := by
  rw [← bind_pure Rule.next, follow_next_bind, ht]
  rfl

theorem follow_choose_bind (end? : Option Token) (choice : Choice) (f : Token → Rule β)
    (ts : List Token) : (choose choice >>= f).follow end? ts = (peek >>= f).follow end? ts := by
  rw [choose, bind_assoc, follow_peek_bind, follow_peek_bind]
  rfl

end Rule

/-- The outcome of a run is the one that the verdict tells, when `ending` is ahead after
all tokens. -/
def Verdict.Describes {α : Type} (ending : Except Fault Token) (outcome : Outcome α) :
    Verdict α → Prop
  | value a rest => outcome.result = .ok a ∧
      ∃ place, outcome.reader.At place ∧ Place.Upcoming place rest ending
  | refusal fault rest => outcome.result = .error (.refused fault) ∧
      ∃ place, outcome.reader.At place ∧ Place.Upcoming place rest ending
  | starved => ∃ fault, ending = .error fault ∧ outcome.result = .error (.refused fault)

theorem Verdict.Describes.of_ok {α : Type} {v : Verdict α} {ending : Except Fault Token}
    {outcome : Outcome α} {a : α} (h : v.Describes ending outcome) (ha : outcome.result = .ok a) :
    ∃ rest, v = .value a rest ∧
      ∃ place, outcome.reader.At place ∧ Place.Upcoming place rest ending := by
  cases v with
  | value b rest =>
      cases ha.symm.trans h.1
      exact ⟨rest, rfl, h.2⟩
  | refusal fault rest => cases ha.symm.trans h.1
  | starved =>
      obtain ⟨fault, -, hresult⟩ := h
      cases ha.symm.trans hresult

/-- Runs that bear out the same verdict fail alike. -/
theorem Verdict.Describes.error_eq {α : Type} {v : Verdict α} {ending : Except Fault Token}
    {outcome outcome' : Outcome α} {e : SourceError} (h : v.Describes ending outcome)
    (h' : v.Describes ending outcome') (he : outcome.result = .error e) :
    outcome'.result = .error e := by
  cases v with
  | value a rest => cases he.symm.trans h.1
  | refusal fault rest => rw [h'.1, ← he, h.1]
  | starved =>
      obtain ⟨fault, hfault, hresult⟩ := h
      obtain ⟨fault', hfault', hresult'⟩ := h'
      cases hfault.symm.trans hfault'
      rw [hresult', ← he, hresult]

/-- The next token is the first one ahead, or the end token when there is none. -/
theorem Place.Upcoming.read_eq {place : Place} {ts : List Token} {ending : Except Fault Token}
    (h : place.Upcoming ts ending) :
    (∃ t next, ts.head?.or ending.toOption = some t ∧ place.read = .ok (t, next) ∧
        next.Upcoming ts.tail ending) ∨
      ∃ fault, ts.head?.or ending.toOption = none ∧ ending = .error fault ∧
        place.read = .error fault := by
  cases h with
  | refused h => exact .inr ⟨_, rfl, rfl, h⟩
  | finished h ht => exact .inl ⟨_, _, rfl, h, .finished (Place.read_eos h ht) ht⟩
  | token h ht hn => exact .inl ⟨_, _, rfl, h, hn⟩

/-- Every run of a rule bears out the verdict on the tokens ahead. -/
theorem Rule.run_describes {α : Type} (rule : Rule α) {r : TokenReader} {place : Place}
    {ts : List Token} {ending : Except Fault Token} (hr : r.At place)
    (hup : place.Upcoming ts ending) :
    (rule.follow ending.toOption ts).Describes ending (rule.run r) := by
  induction rule generalizing r place ts with
  | done value => exact ⟨rfl, place, hr, hup⟩
  | refuse fault => exact ⟨rfl, place, hr, hup⟩
  | look next ih =>
      rw [follow, run]
      rcases hup.read_eq with ⟨t, next', hhead, hread, -⟩ | ⟨fault, hhead, he, hread⟩
      · obtain ⟨s, hs, ha⟩ := TokenReader.peek_ok hr hread
        rw [hhead, hs]
        exact ih t ha hup
      · obtain ⟨s, hs⟩ := TokenReader.peek_error hr hread
        rw [hhead, hs]
        exact ⟨fault, he, rfl⟩
  | take next ih =>
      rw [follow, run]
      rcases hup.read_eq with ⟨t, next', hhead, hread, hn⟩ | ⟨fault, hhead, he, hread⟩
      · obtain ⟨s, hs, ha⟩ := TokenReader.next_ok hr hread
        rw [hhead, hs]
        exact ih t ha hn
      · obtain ⟨s, hs⟩ := TokenReader.next_error hr hread
        rw [hhead, hs]
        exact ⟨fault, he, rfl⟩
  | note event next ih =>
      have hx := ih hr hup
      rw [follow, run]
      cases hv : next.follow ending.toOption ts with
      | value a rest => rw [hv] at hx; exact hx
      | refusal fault rest => rw [hv] at hx; exact hx
      | starved => rw [hv] at hx; exact hx

end SoliditySource
