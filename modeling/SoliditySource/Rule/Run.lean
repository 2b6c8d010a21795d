import SoliditySource.Rule.Basic
import SoliditySource.Token.Reader

/-! # Following a rule

A rule that is followed on a reader gives a result, the events it noted and the reader
it leaves behind. An error of the reader ends the rule.
-/

namespace SoliditySource

structure Outcome (α : Type) where
  result : Except SourceError α
  events : List Event
  reader : TokenReader

/-- Follows a rule on the tokens of a reader. -/
def Rule.run {α : Type} : Rule α → TokenReader → Outcome α
  | done value, r => ⟨.ok value, [], r⟩
  | refuse fault, r => ⟨.error (.refused fault), [], r⟩
  | look next, r =>
      match r.peek with
      | .ok t s => (next t).run s
      | .error e s => ⟨.error e, [], s⟩
  | take next, r =>
      match r.next with
      | .ok t s => (next t).run s
      | .error e s => ⟨.error e, [], s⟩
  | note event next, r =>
      let rest := next.run r
      { rest with events := event :: rest.events }

/-- Two rules in a row: the second one starts on the reader that the first one leaves,
unless the first one fails. -/
theorem Rule.run_bind {α β : Type} (rule : Rule α) (f : α → Rule β) (r : TokenReader) :
    (rule >>= f).run r =
      match (rule.run r).result with
      | .ok a =>
          let rest := (f a).run (rule.run r).reader
          { rest with events := (rule.run r).events ++ rest.events }
      | .error e => ⟨.error e, (rule.run r).events, (rule.run r).reader⟩ := by
  change (rule.bind f).run r = _
  induction rule generalizing r with
  | done value => simp [bind, run]
  | refuse fault => simp [bind, run]
  | look next ih =>
      simp only [bind, run]
      split
      · simp [ih]
      · simp
  | take next ih =>
      simp only [bind, run]
      split
      · simp [ih]
      · simp
  | note event next ih =>
      simp only [bind, run, ih]
      split <;> simp

end SoliditySource
