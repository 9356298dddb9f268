import SigilCall.Decimal.Shortest
import SigilCall.Json.Basic

namespace SigilCall.Json

def floatStyle : Decimal.Style := ⟨-5, 15⟩

def Number.render : Number → List Char
  | .integer i _ => (if i < 0 then ['-'] else []) ++ Decimal.digits i.natAbs
  | .float x _ => Decimal.ofFloat floatStyle x

def hexDigit (n : Nat) : Char := .ofNat (if n < 10 then '0'.toNat + n else 'a'.toNat + (n - 10))

/-- A character inside a string. A quotation mark is written by its number, so that the only marks
in a rendered value are those around strings. -/
def renderChar (c : Char) : List Char :=
  if c = '"' then ['\\', 'u', '0', '0', '2', '2']
  else if c = '\\' then ['\\', '\\']
  else if c = '\x08' then ['\\', 'b']
  else if c = '\t' then ['\\', 't']
  else if c = '\n' then ['\\', 'n']
  else if c = '\x0c' then ['\\', 'f']
  else if c = '\r' then ['\\', 'r']
  else if c.toNat < 0x20 then
    ['\\', 'u', '0', '0', hexDigit (c.toNat / 16), hexDigit (c.toNat % 16)]
  else [c]

def renderString (s : String) : List Char := '"' :: (s.toList.flatMap renderChar ++ ['"'])

mutual

def render : Json → List Char
  | .null => ['n', 'u', 'l', 'l']
  | .bool true => ['t', 'r', 'u', 'e']
  | .bool false => ['f', 'a', 'l', 's', 'e']
  | .number x => x.render
  | .string s => renderString s
  | .array vs => '[' :: (renderItems vs ++ [']'])
  | .object es => '{' :: (renderEntries es ++ ['}'])

def renderItems : List Json → List Char
  | [] => []
  | [v] => v.render
  | v :: w :: vs => v.render ++ ',' :: renderItems (w :: vs)

def renderEntries : List (String × Json) → List Char
  | [] => []
  | [(k, v)] => renderString k ++ ':' :: v.render
  | (k, v) :: e :: es => renderString k ++ ':' :: (v.render ++ ',' :: renderEntries (e :: es))

end

end SigilCall.Json
