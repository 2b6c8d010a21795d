import SoliditySource.Tree.Name

/-! # Directives

A pragma keeps its tokens as they are. An import names a whole file, some of its
symbols, or everything in it under one name.
-/

namespace SoliditySource

structure PragmaDirective where
  keyword : Position
  tokens : List Token
  semicolon : Position
  deriving DecidableEq, Repr

def PragmaDirective.span (d : PragmaDirective) : Span := ⟨d.keyword, d.semicolon⟩

/-- `"path"` or `"path" as name` -/
structure ImportPath where
  path : Token
  rename : Option Alias
  deriving DecidableEq, Repr

def ImportPath.span (e : ImportPath) : Span :=
  ⟨e.path.position, (e.rename.map fun a => a.span.last).getD e.path.last⟩

/-- `symbol` or `symbol as name` -/
structure SymbolAlias where
  symbol : Token
  rename : Option Alias
  deriving DecidableEq, Repr

def SymbolAlias.span (s : SymbolAlias) : Span :=
  ⟨s.symbol.position, (s.rename.map fun a => a.span.last).getD s.symbol.last⟩

structure SymbolAliases where
  lbrace : Position
  aliases : List SymbolAlias
  commas : List Position
  rbrace : Position
  deriving DecidableEq, Repr

def SymbolAliases.span (s : SymbolAliases) : Span := ⟨s.lbrace, s.rbrace⟩

structure ImportSymbols where
  symbols : SymbolAliases
  fromKeyword : Position
  path : Token
  deriving DecidableEq, Repr

def ImportSymbols.span (e : ImportSymbols) : Span := ⟨e.symbols.span.first, e.path.last⟩

/-- `* as name from "path"` -/
structure ImportWildcard where
  asterisk : Position
  asKeyword : Position
  name : Token
  fromKeyword : Position
  path : Token
  deriving DecidableEq, Repr

def ImportWildcard.span (e : ImportWildcard) : Span := ⟨e.asterisk, e.path.last⟩

inductive ImportElement where
  | path (element : ImportPath)
  | symbols (element : ImportSymbols)
  | wildcard (element : ImportWildcard)
  deriving DecidableEq, Repr

def ImportElement.span : ImportElement → Span
  | path element => element.span
  | symbols element => element.span
  | wildcard element => element.span

structure ImportDirective where
  keyword : Position
  element : ImportElement
  semicolon : Position
  deriving DecidableEq, Repr

def ImportDirective.span (d : ImportDirective) : Span := ⟨d.keyword, d.semicolon⟩

end SoliditySource
