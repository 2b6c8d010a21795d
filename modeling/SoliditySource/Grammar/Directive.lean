import SoliditySource.Grammar.Name
import SoliditySource.Tree.Directive

/-! # Rules for directives -/

namespace SoliditySource.Grammar

open Rule

/-- The tokens of a pragma after the first one, at most `limit` of them, and the
semicolon that ends them. -/
def pragmaRest : Nat → Rule (List Token × Token)
  | 0 => do
      -- never met, by `TokenReader.parse_eq_run`
      let semicolon ← expect .semicolon .directiveEnd
      pure ([], semicolon)
  | limit + 1 => do
      let t ← next
      match t.kind with
      | .semicolon => pure ([], t)
      | .eos => refuseAt t (.missing .directiveEnd)
      | _ => do
          let (rest, semicolon) ← pragmaRest limit
          pure (t :: rest, semicolon)

/-- `"pragma" token { token } ";"` -/
def pragmaDirective (limit : Nat) : Rule PragmaDirective := do
  let keyword ← expect .kwPragma .pragmaKeyword
  let first ← next
  match first.kind with
  | .semicolon => refuseAt first (.missing .pragmaTokens)
  | .eos => refuseAt first (.missing .pragmaTokens)
  | _ => do
      let (rest, semicolon) ← pragmaRest limit
      pure ⟨keyword.position, first :: rest, semicolon.position⟩

def path : Rule Token := expect .nonEmptyString .path

def importPath : Rule ImportPath := do
  let path ← path
  let rename ← rename
  pure ⟨path, rename⟩

def symbolAlias : Rule SymbolAlias := do
  let symbol ← identifier
  let rename ← rename
  pure ⟨symbol, rename⟩

def symbolAliases (limit : Nat) : Rule SymbolAliases := do
  let lbrace ← expect .lbrace .lbrace
  let entries ← separatedBy .comma symbolAlias limit
  let rbrace ← expect .rbrace .rbrace
  pure ⟨lbrace.position, Separated.items entries, Separated.separators entries, rbrace.position⟩

def importSymbols (limit : Nat) : Rule ImportSymbols := do
  let symbols ← symbolAliases limit
  let fromKeyword ← expect .kwFrom .fromKeyword
  let path ← path
  pure ⟨symbols, fromKeyword.position, path⟩

def importWildcard : Rule ImportWildcard := do
  let asterisk ← expect .mul .asterisk
  let asKeyword ← expect .kwAs .asKeyword
  let name ← identifier
  let fromKeyword ← expect .kwFrom .fromKeyword
  let path ← path
  pure ⟨asterisk.position, asKeyword.position, name, fromKeyword.position, path⟩

/-- What an import brings in; the next token tells which form it has. -/
def importElement (limit : Nat) : Rule ImportElement := do
  let t ← choose .importElement
  match t.kind with
  | .nonEmptyString => .path <$> importPath
  | .lbrace => .symbols <$> importSymbols limit
  | .mul => .wildcard <$> importWildcard
  | _ => refuseAt t (.missing .importElement)

def importDirective (limit : Nat) : Rule ImportDirective := do
  let keyword ← expect .kwImport .importKeyword
  let element ← importElement limit
  let semicolon ← expect .semicolon .directiveEnd
  pure ⟨keyword.position, element, semicolon.position⟩

end SoliditySource.Grammar
