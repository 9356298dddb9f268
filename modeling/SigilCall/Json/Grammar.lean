import SigilCall.Json.Quoted
import SigilCall.Literal.Span

namespace SigilCall.Json

open Literal

def IsBlank (s : List Char) : Prop := ∀ c ∈ s, Read.isBlank c = true

def IsDigits (s : List Char) : Prop := s ≠ [] ∧ ∀ c ∈ s, c.isDigit = true

inductive IsFraction : List Char → Prop
  | none : IsFraction []
  | point {ds : List Char} : IsDigits ds → IsFraction ('.' :: ds)

inductive IsExponent : List Char → Prop
  | none : IsExponent []
  | unsigned {e : Char} {ds : List Char} : e = 'e' ∨ e = 'E' → IsDigits ds → IsExponent (e :: ds)
  | signed {e s : Char} {ds : List Char} :
      e = 'e' ∨ e = 'E' → s = '+' ∨ s = '-' → IsDigits ds → IsExponent (e :: s :: ds)

inductive IsUnsigned : List Char → Prop
  | mk {w f e : List Char} : IsDigits w → (w.head? = some '0' → w = ['0']) → IsFraction f →
      IsExponent e → IsUnsigned (w ++ (f ++ e))

inductive IsNumber : List Char → Prop
  | positive {s : List Char} : IsUnsigned s → IsNumber s
  | negative {s : List Char} : IsUnsigned s → IsNumber ('-' :: s)

/-- The characters between the quotation marks of a string. In naive mode no escape holds a
quotation mark. -/
inductive IsQuoted (mode : Quoting) : List Char → Prop
  | nil : IsQuoted mode []
  | char {c : Char} {s : List Char} : c ≠ '"' → c ≠ '\\' → 0x20 ≤ c.toNat → IsQuoted mode s →
      IsQuoted mode (c :: s)
  | escape {c : Char} {s : List Char} : (Read.escaped? c).isSome = true →
      (c = '"' → mode = .escaped) → IsQuoted mode s → IsQuoted mode ('\\' :: c :: s)
  | unicode {h s : List Char} : h.length = 4 → (∀ c ∈ h, (Read.hexDigit? c).isSome = true) →
      IsQuoted mode s → IsQuoted mode ('\\' :: 'u' :: (h ++ s))

inductive IsString (mode : Quoting) : List Char → Prop
  | mk {s : List Char} : IsQuoted mode s → IsString mode ('"' :: (s ++ ['"']))

mutual

inductive IsValue (mode : Quoting) : List Char → Prop
  | null : IsValue mode ['n', 'u', 'l', 'l']
  | true : IsValue mode ['t', 'r', 'u', 'e']
  | false : IsValue mode ['f', 'a', 'l', 's', 'e']
  | number {s : List Char} : IsNumber s → IsValue mode s
  | string {s : List Char} : IsString mode s → IsValue mode s
  | emptyArray {b : List Char} : IsBlank b → IsValue mode ('[' :: (b ++ [']']))
  | array {s : List Char} : IsItems mode s → IsValue mode ('[' :: (s ++ [']']))
  | emptyObject {b : List Char} : IsBlank b → IsValue mode ('{' :: (b ++ ['}']))
  | object {s : List Char} : IsEntries mode s → IsValue mode ('{' :: (s ++ ['}']))

inductive IsElement (mode : Quoting) : List Char → Prop
  | mk {b v b' : List Char} : IsBlank b → IsValue mode v → IsBlank b' →
      IsElement mode (b ++ (v ++ b'))

inductive IsItems (mode : Quoting) : List Char → Prop
  | one {s : List Char} : IsElement mode s → IsItems mode s
  | more {s t : List Char} : IsElement mode s → IsItems mode t → IsItems mode (s ++ ',' :: t)

inductive IsEntry (mode : Quoting) : List Char → Prop
  | mk {b k b' s : List Char} : IsBlank b → IsString mode k → IsBlank b' → IsElement mode s →
      IsEntry mode (b ++ (k ++ (b' ++ ':' :: s)))

inductive IsEntries (mode : Quoting) : List Char → Prop
  | one {s : List Char} : IsEntry mode s → IsEntries mode s
  | more {s t : List Char} : IsEntry mode s → IsEntries mode t → IsEntries mode (s ++ ',' :: t)

end

end SigilCall.Json
