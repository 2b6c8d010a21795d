import SoliditySource.Production

/-! # Sessions

A reader can be driven one step at a time. A session goes on after an error, from the
reader that the failed step leaves behind.
-/

namespace SoliditySource

/-- What a step gives, and where the reader stands after it. -/
structure Answer (ε α : Type) where
  result : Except ε α
  position : Position

def answers {ρ σ ε α : Type} (step : σ → EStateM ε ρ α) (position : ρ → Position) :
    List σ → ρ → List (Answer ε α)
  | [], _ => []
  | s :: steps, r =>
      match step s r with
      | .ok a t => ⟨.ok a, position t⟩ :: answers step position steps t
      | .error e t => ⟨.error e, position t⟩ :: answers step position steps t

inductive FragmentStep where
  | next
  | peek
  deriving DecidableEq, Repr

namespace FragmentReader

def step : FragmentStep → Scan (Option Fragment)
  | .next => next
  | .peek => peek

def session (steps : List FragmentStep) (r : FragmentReader) :
    List (Answer ReadFailure (Option Fragment)) :=
  answers step position steps r

end FragmentReader

inductive TokenStep where
  | next
  | peek
  | all
  deriving DecidableEq, Repr

namespace TokenReader

/-- A step for a single token answers a list with one entry. -/
def step : TokenStep → EStateM SourceError TokenReader (List Token)
  | .next => (fun t => [t]) <$> next
  | .peek => (fun t => [t]) <$> peek
  | .all => all

def session (steps : List TokenStep) (r : TokenReader) :
    List (Answer SourceError (List Token)) :=
  answers step position steps r

structure Reading where
  type : Type
  result : Except SourceError type
  events : List Event

/-- Reads constructs in a row, whether or not the reading of the one before failed. -/
def readings : List (Σ α : Type, Production α) → TokenReader → List Reading
  | [], _ => []
  | ⟨α, production⟩ :: rest, r =>
      let outcome := r.parse production
      ⟨α, outcome.result, outcome.events⟩ :: readings rest outcome.reader

end TokenReader

end SoliditySource
