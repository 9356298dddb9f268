import SigilCall.Call.Basic
import SigilCall.Cursor.Raw
import SigilCall.Json.Decode
import SigilCall.Literal.Balance

namespace SigilCall

open Text Literal

def IsSpaces (s : List Char) : Prop := ∀ c ∈ s, isSpace c = true

def IsName (s : List Char) : Prop := ∀ c ∈ s, isNameChar c = true

def IsSigil (c : Char) : Prop := c = '$' ∨ (Kind.ofOpening? c).isSome = true

def IsRaw (s : List Char) : Prop :=
  (∀ c ∈ s, Cursor.isRawChar c = true) ∧ ∀ c, (s.dropWhile isSpace).head? = some c → ¬ IsSigil c

mutual

inductive Derives (mode : Quoting) : List Char → Call → Prop
  | call {name u body : List Char} {args : List Argument} : IsName name → IsSpaces u →
      DerivesList mode body args →
      Derives mode ('$' :: (name ++ (u ++ '(' :: (body ++ [')'])))) ⟨String.ofList name, args⟩

inductive DerivesList (mode : Quoting) : List Char → List Argument → Prop
  | one {s : List Char} {a : Argument} : DerivesArgument mode s a → DerivesList mode s [a]
  | more {s t : List Char} {a : Argument} {args : List Argument} : DerivesArgument mode s a →
      DerivesList mode t args → DerivesList mode (s ++ ',' :: t) (a :: args)

/-- The texts of an argument, with the blanks around it. -/
inductive DerivesArgument (mode : Quoting) : List Char → Argument → Prop
  | call {u t v : List Char} {c : Call} : IsSpaces u → Derives mode t c → IsSpaces v →
      DerivesArgument mode (u ++ (t ++ v)) c.toArgument
  | literal {u t v : List Char} {k : Kind} {j : Json} {a : Argument} : IsSpaces u →
      IsLiteral k mode t → Json.decode t = .ok j → Argument.ofJson? j = some a → IsSpaces v →
      DerivesArgument mode (u ++ (t ++ v)) a
  | raw {s : List Char} : IsRaw s → DerivesArgument mode s (.raw (String.ofList (trim s)))

end

end SigilCall
