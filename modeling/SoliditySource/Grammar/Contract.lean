import SoliditySource.Grammar.Directive
import SoliditySource.Grammar.Function
import SoliditySource.Tree.Contract

/-! # Rules for contracts and source units -/

namespace SoliditySource.Grammar

open Rule

def inheritanceSpecifier (limit : Nat) : Rule InheritanceSpecifier := do
  let path ← identifierPath limit
  let arguments ← whenNext .lparen (callArgumentList limit)
  pure ⟨path, arguments⟩

def inheritance (limit : Nat) : Rule Inheritance := do
  let isKeyword ← expect .kwIs .isKeyword
  let entries ← separatedBy .comma (inheritanceSpecifier limit) limit
  pure ⟨isKeyword.position, Separated.items entries, Separated.separators entries⟩

/-- The members of a contract, at most `count` of them, and the brace that ends them. -/
def contractBody (limit : Nat) : (count : Nat) → Rule (List ContractMember × Token)
  | 0 => do
      -- never met, by `TokenReader.parse_eq_run`
      let rbrace ← expect .rbrace .bodyEnd
      pure ([], rbrace)
  | count + 1 => do
      let t ← peek
      match t.kind with
      | .rbrace => do
          let rbrace ← next
          pure ([], rbrace)
      | .kwFunction => do
          let function ← functionDefinition limit
          let (members, rbrace) ← contractBody limit count
          pure (.function function :: members, rbrace)
      | .eos => refuseAt t (.missing .bodyEnd)
      | _ => refuseAt t (.missing .functionKeyword)

/-- `[ "abstract" ] "contract" identifier [ inheritance ]`, then members in braces. -/
def contractDefinition (limit : Nat) : Rule ContractDefinition := do
  let abstractKeyword ← accept? .kwAbstract
  let keyword ← expect .kwContract .contractKeyword
  let name ← identifier
  let inheritance ← whenNext .kwIs (inheritance limit)
  let lbrace ← expect .lbrace .bodyStart
  let (body, rbrace) ← contractBody limit limit
  pure ⟨abstractKeyword.map Token.position, keyword.position, name, inheritance, lbrace.position,
    body, rbrace.position⟩

def logParsed (construct : Construct) (span : Span) (earlier : Option Span) : Rule Unit := do
  log (.parsed construct span)
  match earlier with
  | some old => log (.replaced construct old.first)
  | none => pure ()

/-- Reads constructs into `unit` up to the end of the source, at most `count` of them. -/
def constructs (limit : Nat) : (count : Nat) → SourceUnit → Rule SourceUnit
  | 0, unit => pure unit -- never met, by `TokenReader.parse_eq_run`
  | count + 1, unit => do
      let t ← peek
      log (.dispatch t.kind t.position)
      match t.kind with
      | .eos => pure unit
      | .kwPragma => do
          let d ← pragmaDirective limit
          logParsed .pragmaDirective d.span (unit.pragma.map PragmaDirective.span)
          constructs limit count { unit with pragma := some d }
      | .kwImport => do
          let d ← importDirective limit
          logParsed .importDirective d.span (unit.imports.map ImportDirective.span)
          constructs limit count { unit with imports := some d }
      | .kwAbstract | .kwContract => do
          let c ← contractDefinition limit
          logParsed .contractDefinition c.span (unit.contract.map ContractDefinition.span)
          constructs limit count { unit with contract := some c }
      | .kwFunction => do
          let f ← functionDefinition limit
          logParsed .functionDefinition f.span (unit.function.map FunctionDefinition.span)
          constructs limit count { unit with function := some f }
      | _ => refuseAt t .invalidToken

/-- `{ pragma-directive | import-directive | contract-definition | function-definition }` -/
def sourceUnit (limit : Nat) : Rule SourceUnit := constructs limit limit .empty

end SoliditySource.Grammar
