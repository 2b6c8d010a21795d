import SoliditySource.Grammar.Expression
import SoliditySource.Grammar.TypeName
import SoliditySource.Tree.Function

/-! # Rules for functions and their bodies -/

namespace SoliditySource.Grammar

open Rule

def returnStatement : Rule ReturnStatement := do
  let keyword ← expect .kwReturn .returnKeyword
  let expression ← expression
  let semicolon ← expect .semicolon .statementEnd
  pure ⟨keyword.position, expression, semicolon.position⟩

/-- A statement; only `return` has a rule. -/
def statement : Rule Statement := do
  let t ← choose .statement
  match t.kind with
  | .kwReturn => .returning <$> returnStatement
  | _ => refuseAt t (.missing .statement)

def block : Rule Block := do
  let lbrace ← expect .lbrace .lbrace
  let statement ← statement
  let rbrace ← expect .rbrace .rbrace
  pure ⟨lbrace.position, [statement], rbrace.position⟩

def visibility : Rule Token := takeIf TokenKind.isVisibility (.missing .visibility)

def stateMutability : Rule Token :=
  takeIf TokenKind.isStateMutability (.missing .stateMutability)

/-- Modifiers in any order, at most `limit` of them; a later one takes the place of an
earlier one of its sort. -/
def modifiers : Nat → Modifiers → Rule Modifiers
  | 0, seen => pure seen -- never met, by `TokenReader.parse_eq_run`
  | limit + 1, seen => do
      let t ← peek
      if t.kind.isVisibility then do
        let keyword ← visibility
        modifiers limit { seen with visibility := some keyword }
      else if t.kind.isStateMutability then do
        let keyword ← stateMutability
        modifiers limit { seen with stateMutability := some keyword }
      else pure seen

/-- The name of a function, or the word that stands for one. -/
def functionDescriptor : Rule Token := do
  let t ← peek
  match t.kind with
  | .kwFallback => next
  | .kwReceive => next
  | _ => identifier

def functionReturns (limit : Nat) : Rule FunctionReturns := do
  let keyword ← expect .kwReturns .returnsKeyword
  let lparen ← expect .lparen .lparen
  let parameters ← parameterList limit
  let rparen ← expect .rparen .rparen
  pure ⟨keyword.position, lparen.position, parameters, rparen.position⟩

/-- `"function" descriptor "(" ")" { modifier } [ returns ] block` -/
def functionDefinition (limit : Nat) : Rule FunctionDefinition := do
  let keyword ← expect .kwFunction .functionKeyword
  let descriptor ← functionDescriptor
  let lparen ← expect .lparen .lparen
  let rparen ← expect .rparen .rparen
  let modifiers ← modifiers limit ⟨none, none⟩
  let returns ← whenNext .kwReturns (functionReturns limit)
  let body ← block
  pure ⟨keyword.position, descriptor, lparen.position, rparen.position, modifiers, returns, body⟩

end SoliditySource.Grammar
