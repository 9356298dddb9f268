import SigilCall.Text.Bytes

namespace SigilCall.Json

inductive Cause
  | eofValue
  | eofList
  | eofObject
  | eofString
  | expectedValue
  | expectedWord
  | expectedListComma
  | expectedObjectComma
  | expectedColon
  | trailingComma
  | trailingCharacters
  | keyNotString
  | recursionLimit
  | invalidNumber
  | numberOutOfRange
  | invalidEscape
  | controlCharacter
  | loneSurrogate
  | unfinishedSurrogate
  deriving DecidableEq, Repr

namespace Cause

def message : Cause → String
  | eofValue => "EOF while parsing a value"
  | eofList => "EOF while parsing a list"
  | eofObject => "EOF while parsing an object"
  | eofString => "EOF while parsing a string"
  | expectedValue => "expected value"
  | expectedWord => "expected ident"
  | expectedListComma => "expected `,` or `]`"
  | expectedObjectComma => "expected `,` or `\x7d`"
  | expectedColon => "expected `:`"
  | trailingComma => "trailing comma"
  | trailingCharacters => "trailing characters"
  | keyNotString => "key must be a string"
  | recursionLimit => "recursion limit exceeded"
  | invalidNumber => "invalid number"
  | numberOutOfRange => "number out of range"
  | invalidEscape => "invalid escape"
  | controlCharacter => "control character (\\u0000-\\u001F) found while parsing a string"
  | loneSurrogate => "lone leading surrogate in hex escape"
  | unfinishedSurrogate => "unexpected end of hex escape"

def isUnfinished : Cause → Bool
  | eofValue | eofList | eofObject | eofString => true
  | _ => false

end Cause

structure Failure where
  cause : Cause
  offset : Nat
  deriving DecidableEq, Repr

/-- A fault in a text by line and column. Lines count from 1. The column is the number of bytes
since the line began. -/
structure DecodeError where
  cause : Cause
  line : Nat
  column : Nat
  deriving DecidableEq, Repr

namespace DecodeError

def message (e : DecodeError) : String :=
  e.cause.message ++ " at line " ++ toString e.line ++ " column " ++ toString e.column

end DecodeError

def locate (line column : Nat) : List Char → Nat → Nat × Nat
  | _, 0 => (line, column)
  | [], n + 1 => (line, column + (n + 1))
  | c :: s, n + 1 =>
      if c = '\n' then locate (line + 1) 0 s n
      else locate line (column + min c.utf8Size (n + 1)) s (n + 1 - c.utf8Size)

def Failure.inText (text : List Char) (f : Failure) : DecodeError :=
  ⟨f.cause, (locate 1 0 text f.offset).1, (locate 1 0 text f.offset).2⟩

end SigilCall.Json
