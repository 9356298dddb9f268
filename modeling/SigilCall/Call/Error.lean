import SigilCall.Json.Error
import SigilCall.Literal.Kind

namespace SigilCall

inductive Part
  | sigil
  | opening
  | closing
  deriving DecidableEq, Repr

def Part.message : Part → String
  | sigil => "expected start symbol `$`"
  | opening => "expected '(' after function name"
  | closing => "expected ')' after function args"

/-- Why a text is no call. Offsets are in bytes from the start of the text. -/
inductive CallError
  | missing (expected : Part) (offset : Nat)
  | badLiteral (kind : Literal.Kind) (offset : Nat) (source : Json.DecodeError)
  | tooDeep (limit : Nat) (offset : Nat)
  deriving DecidableEq, Repr

namespace CallError

def offset : CallError → Nat
  | missing _ n => n
  | badLiteral _ n _ => n
  | tooDeep _ n => n

def source? : CallError → Option Json.DecodeError
  | badLiteral _ _ e => some e
  | _ => none

def message : CallError → String
  | missing expected n =>
      "malformed call at offset " ++ toString n ++ ": " ++ expected.message
  | badLiteral kind n e =>
      "invalid " ++ kind.name ++ " literal at offset " ++ toString n ++ ": " ++ e.message
  | tooDeep limit n =>
      "call nesting exceeds maximum depth of " ++ toString limit ++ " at offset " ++ toString n

end CallError

end SigilCall
