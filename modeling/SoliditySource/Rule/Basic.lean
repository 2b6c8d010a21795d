import SoliditySource.Error
import SoliditySource.Event
import SoliditySource.Tree.Name

/-! # Grammar rules

A rule is a strategy for reading tokens: it looks at the next token, takes it, notes an
event, refuses the source, or is done. Rules are plain data, so what holds of all rules
(how they use a reader, which tokens they consume) is proved once, by induction on the
rule, and not once for every construct.

Repetitions are bounded by a `limit` on their turns. Each turn takes a token, so a limit
above the number of tokens that can still come is never met: what a construct is read as
does not depend on it (`TokenReader.parse_eq_run`), and what a repetition does once its
limit is used up is no part of any reading.
-/

namespace SoliditySource

/-- A strategy for reading a value of type `α` from tokens. -/
inductive Rule (α : Type) where
  | done (value : α)
  | refuse (fault : Fault)
  | look (next : Token → Rule α)
  | take (next : Token → Rule α)
  | note (event : Event) (next : Rule α)

namespace Rule

variable {α β γ : Type}

def bind : Rule α → (α → Rule β) → Rule β
  | done value, f => f value
  | refuse fault, _ => refuse fault
  | look next, f => look fun t => (next t).bind f
  | take next, f => take fun t => (next t).bind f
  | note event next, f => note event (next.bind f)

instance : Monad Rule where
  pure := done
  bind := bind

theorem bind_done (rule : Rule α) : rule.bind done = rule := by
  induction rule with
  | done value => rfl
  | refuse fault => rfl
  | look next ih => simp only [bind, ih]
  | take next ih => simp only [bind, ih]
  | note event next ih => simp only [bind, ih]

theorem bind_bind (rule : Rule α) (f : α → Rule β) (g : β → Rule γ) :
    (rule.bind f).bind g = rule.bind fun a => (f a).bind g := by
  induction rule with
  | done value => rfl
  | refuse fault => rfl
  | look next ih => simp only [bind, ih]
  | take next ih => simp only [bind, ih]
  | note event next ih => simp only [bind, ih]

instance : LawfulMonad Rule :=
  LawfulMonad.mk' Rule bind_done (fun _ _ => rfl) bind_bind

/-! ## Single tokens -/

def peek : Rule Token := look done

def next : Rule Token := take done

def log (event : Event) : Rule Unit := note event (done ())

def refuseAt (t : Token) (cause : Cause) : Rule α := refuse ⟨t.position, cause⟩

def takeIf (fits : TokenKind → Bool) (cause : Cause) : Rule Token := do
  let t ← next
  if fits t.kind then pure t else refuseAt t cause

def expect (kind : TokenKind) (part : Missing) : Rule Token :=
  takeIf (· = kind) (.missing part)

/-- Takes the next token if it is of the given kind. -/
def accept? (kind : TokenKind) : Rule (Option Token) := do
  let t ← peek
  if t.kind = kind then some <$> next else pure none

def whenNext (kind : TokenKind) (rule : Rule α) : Rule (Option α) := do
  let t ← peek
  if t.kind = kind then some <$> rule else pure none

/-- Looks at the next token, which is about to decide a choice. -/
def choose (choice : Choice) : Rule Token := do
  let t ← peek
  log (.choosing choice t.kind)
  pure t

/-! ## Lists -/

/-- Items with separators between them, at least one item and at most `limit` separators. -/
def separatedBy (separator : TokenKind) (item : Rule α) : Nat → Rule (List (Separated α))
  | 0 => do
      -- never met, by `TokenReader.parse_eq_run`
      let a ← item
      pure [⟨a, none⟩]
  | limit + 1 => do
      let a ← item
      match ← accept? separator with
      | none => pure [⟨a, none⟩]
      | some mark => do
          let rest ← separatedBy separator item limit
          pure (⟨a, some mark.position⟩ :: rest)

end Rule

end SoliditySource
