/-! # Token kinds

Every punctuation mark, operator and reserved word is a kind of its own. Words
that are not reserved are identifiers or numbers, and quoted text is a literal of
one of four kinds. The end of the source is a token too.
-/

namespace SoliditySource

inductive TokenKind where
  | eos
  | identifier
  /-- A word that starts with an ASCII digit. -/
  | number
  | emptyString
  | nonEmptyString
  | unicodeString
  | hexString
  -- Punctuation
  | lparen | rparen | lbrack | rbrack | lbrace | rbrace | colon | semicolon | period | comma
  | conditional | doubleArrow | rightArrow
  -- Assignment
  | assign | assignBitOr | assignBitXor | assignBitAnd | assignShl | assignSar | assignShr
  | assignAdd | assignSub | assignMul | assignDiv | assignMod
  -- Operators
  | logicalOr | logicalAnd | bitOr | bitXor | bitAnd | bitNot | shl | sar | shr | add | sub
  | mul | div | mod | exp | equal | notEqual | lessThan | greaterThan | lessThanOrEqual
  | greaterThanOrEqual | lessMinus | greaterMinus | logicalNot | inc | dec
  -- Reserved words without a use
  | kwAfter | kwAlias | kwApply | kwAuto | kwByte | kwCase | kwCopyof | kwDefault | kwDefine
  | kwFinal | kwImplements | kwIn | kwInline | kwLet | kwMacro | kwMatch | kwMutable | kwNull
  | kwOf | kwPartial | kwPromise | kwReference | kwRelocatable | kwSealed | kwSizeof | kwStatic
  | kwSupports | kwSwitch | kwTypedef | kwTypeof | kwVar
  -- Keywords
  | kwAbstract | kwAddress | kwAnonymous | kwAs | kwAssembly | kwBool | kwBreak | kwBytes
  | kwCalldata | kwCatch | kwConstant | kwConstructor | kwContinue | kwContract | kwDelete
  | kwDo | kwElse | kwEmit | kwEnum | kwError | kwEvent | kwExternal | kwFallback | kwFalse
  | kwFixed | kwFor | kwFrom | kwFunction | kwGlobal | kwHex | kwIf | kwImmutable | kwImport
  | kwIndexed | kwInt | kwInterface | kwInternal | kwIs | kwLibrary | kwMapping | kwMemory
  | kwModifier | kwNew | kwOverride | kwPayable | kwPragma | kwPrivate | kwPublic | kwPure
  | kwReceive | kwReturn | kwReturns | kwRevert | kwStorage | kwString | kwStruct | kwTrue
  | kwTry | kwType | kwUfixed | kwUint | kwUnchecked | kwUnicode | kwUsing | kwView | kwVirtual
  | kwWhile
  deriving DecidableEq, Repr, Inhabited

namespace TokenKind

/-- The kinds that serve as a name: identifiers, and the reserved words that are
reserved in some places only. -/
def isIdentifierLike : TokenKind → Bool
  | identifier | kwFrom | kwError | kwRevert | kwGlobal => true
  | _ => false

def isElementaryType : TokenKind → Bool
  | kwAddress | kwBool | kwString | kwBytes | kwByte | kwInt | kwUint | kwFixed | kwUfixed => true
  | _ => false

def isVisibility : TokenKind → Bool
  | kwPublic | kwPrivate | kwInternal | kwExternal => true
  | _ => false

def isStateMutability : TokenKind → Bool
  | kwPure | kwView | kwPayable => true
  | _ => false

def isStringLiteral : TokenKind → Bool
  | emptyString | nonEmptyString | unicodeString | hexString => true
  | _ => false

end TokenKind

end SoliditySource
