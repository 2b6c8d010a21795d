import SoliditySource.Token.Kind

/-! # Spellings

The kinds with one fixed spelling, each with that spelling. Which words are reserved,
and what kind an operator has, is read off this table and nothing else.
-/

namespace SoliditySource

namespace TokenKind

/-- Every fixed spelling with its kind: first the marks and operators, then the
reserved words. -/
def spellings : List (String × TokenKind) := [
  ("(", lparen), (")", rparen), ("[", lbrack), ("]", rbrack), ("\x7b", lbrace), ("\x7d", rbrace),
  (":", colon), (";", semicolon), (".", period), (",", comma), ("?", conditional),
  ("=>", doubleArrow), ("->", rightArrow), ("=", assign), ("|=", assignBitOr),
  ("^=", assignBitXor), ("&=", assignBitAnd), ("<<=", assignShl), (">>=", assignSar),
  (">>>=", assignShr), ("+=", assignAdd), ("-=", assignSub), ("*=", assignMul),
  ("/=", assignDiv), ("%=", assignMod), ("||", logicalOr), ("&&", logicalAnd), ("|", bitOr),
  ("^", bitXor), ("&", bitAnd), ("~", bitNot), ("<<", shl), (">>", sar), (">>>", shr),
  ("+", add), ("-", sub), ("*", mul), ("/", div), ("%", mod), ("**", exp), ("==", equal),
  ("!=", notEqual), ("<", lessThan), (">", greaterThan), ("<=", lessThanOrEqual),
  (">=", greaterThanOrEqual), ("<-", lessMinus), (">-", greaterMinus), ("!", logicalNot),
  ("++", inc), ("--", dec), ("after", kwAfter), ("alias", kwAlias), ("apply", kwApply),
  ("auto", kwAuto), ("byte", kwByte), ("case", kwCase), ("copyof", kwCopyof),
  ("default", kwDefault), ("define", kwDefine), ("final", kwFinal), ("implements", kwImplements),
  ("in", kwIn), ("inline", kwInline), ("let", kwLet), ("macro", kwMacro), ("match", kwMatch),
  ("mutable", kwMutable), ("null", kwNull), ("of", kwOf), ("partial", kwPartial),
  ("promise", kwPromise), ("reference", kwReference), ("relocatable", kwRelocatable),
  ("sealed", kwSealed), ("sizeof", kwSizeof), ("static", kwStatic), ("supports", kwSupports),
  ("switch", kwSwitch), ("typedef", kwTypedef), ("typeof", kwTypeof), ("var", kwVar),
  ("abstract", kwAbstract), ("address", kwAddress), ("anonymous", kwAnonymous), ("as", kwAs),
  ("assembly", kwAssembly), ("bool", kwBool), ("break", kwBreak), ("bytes", kwBytes),
  ("calldata", kwCalldata), ("catch", kwCatch), ("constant", kwConstant),
  ("constructor", kwConstructor), ("continue", kwContinue), ("contract", kwContract),
  ("delete", kwDelete), ("do", kwDo), ("else", kwElse), ("emit", kwEmit), ("enum", kwEnum),
  ("error", kwError), ("event", kwEvent), ("external", kwExternal), ("fallback", kwFallback),
  ("false", kwFalse), ("fixed", kwFixed), ("for", kwFor), ("from", kwFrom),
  ("function", kwFunction), ("global", kwGlobal), ("hex", kwHex), ("if", kwIf),
  ("immutable", kwImmutable), ("import", kwImport), ("indexed", kwIndexed), ("int", kwInt),
  ("interface", kwInterface), ("internal", kwInternal), ("is", kwIs), ("library", kwLibrary),
  ("mapping", kwMapping), ("memory", kwMemory), ("modifier", kwModifier), ("new", kwNew),
  ("override", kwOverride), ("payable", kwPayable), ("pragma", kwPragma), ("private", kwPrivate),
  ("public", kwPublic), ("pure", kwPure), ("receive", kwReceive), ("return", kwReturn),
  ("returns", kwReturns), ("revert", kwRevert), ("storage", kwStorage), ("string", kwString),
  ("struct", kwStruct), ("true", kwTrue), ("try", kwTry), ("type", kwType), ("ufixed", kwUfixed),
  ("uint", kwUint), ("unchecked", kwUnchecked), ("unicode", kwUnicode), ("using", kwUsing),
  ("view", kwView), ("virtual", kwVirtual), ("while", kwWhile)]

def lookup (text : List Char) : Option TokenKind :=
  (spellings.find? fun entry => entry.1.toList = text).map Prod.snd

def spelling? (kind : TokenKind) : Option String :=
  (spellings.find? fun entry => entry.2 = kind).map Prod.fst

/-- The name of a kind in messages: its spelling between single quotes, or a
description when the spelling varies. -/
def describe (kind : TokenKind) : String :=
  match kind with
  | eos => "end of source"
  | identifier => "identifier"
  | number => "number"
  | emptyString => "empty-string-literal"
  | nonEmptyString => "non-empty-string-literal"
  | unicodeString => "unicode-string-literal"
  | hexString => "hex-string-literal"
  | _ => "'" ++ kind.spelling?.getD "" ++ "'"

end TokenKind

end SoliditySource
