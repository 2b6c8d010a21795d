import SoliditySource.Grammar.Name
import SoliditySource.Tree.Expression

/-! # Rules for expressions and call arguments -/

namespace SoliditySource.Grammar

open Rule

def literalOf? (t : Token) : Option Literal :=
  if t.kind.isStringLiteral then some (.string ⟨t.kind, t.span, t.text⟩)
  else if t.kind = .kwTrue ∨ t.kind = .kwFalse then some (.boolean ⟨t⟩)
  else if t.kind = .number then some (.number ⟨t⟩)
  else none

def isLiteral (kind : TokenKind) : Bool :=
  kind.isStringLiteral || kind = .kwTrue || kind = .kwFalse || kind = .number

theorem isSome_literalOf? (t : Token) : (literalOf? t).isSome = isLiteral t.kind := by
  rw [literalOf?, isLiteral]
  split
  · next h => simp [h]
  · next h =>
      split
      · next h' => rcases h' with h' | h' <;> simp [h']
      · next h' =>
          rw [not_or] at h'
          split
          · next h'' => simp [h'']
          · next h'' => simp [h, h'.1, h'.2, h'']

def literal : Rule Literal := do
  let t ← next
  match literalOf? t with
  | some value => pure value
  | none => refuseAt t .noLiteral

/-- A literal or an identifier; the next token tells which. -/
def expression : Rule Expression := do
  let t ← choose .expression
  if isLiteral t.kind then .literal <$> literal
  else if t.kind.isIdentifierLike then .identifier <$> identifier
  else refuseAt t (.missing .expression)

def namedArgument : Rule NamedArgument := do
  let name ← identifier
  let colon ← expect .colon .colon
  let value ← expression
  pure ⟨name, colon.position, value⟩

def namedArguments (limit : Nat) : Rule NamedArguments := do
  let lbrace ← expect .lbrace .lbrace
  let arguments ← separatedBy .comma namedArgument limit
  let rbrace ← expect .rbrace .rbrace
  pure ⟨lbrace.position, arguments, rbrace.position⟩

/-- The arguments between parentheses; the next token tells which form they have. -/
def callArguments (limit : Nat) : Rule CallArguments := do
  let t ← peek
  match t.kind with
  | .rparen => pure .empty
  | .lbrace => .named <$> namedArguments limit
  | _ => .positional <$> separatedBy .comma expression limit

def callArgumentList (limit : Nat) : Rule CallArgumentList := do
  let lparen ← expect .lparen .lparen
  let arguments ← callArguments limit
  let rparen ← expect .rparen .rparen
  pure ⟨lparen.position, arguments, rparen.position⟩

end SoliditySource.Grammar
