import SigilCall.Json.Number
import SigilCall.Json.Reader

namespace SigilCall.Json

def digitValue (c : Char) : Nat := c.toNat - '0'.toNat

structure Exponent where
  negative : Bool
  digits : List Char
  deriving DecidableEq, Repr

def Exponent.value (e : Exponent) : Int :=
  let n := e.digits.foldl (fun n d => 10 * n + digitValue d) 0
  if e.negative then -n else n

/-- The parts of a number as it is written. There is a point if there are digits after it. -/
structure Numeral where
  negative : Bool
  whole : List Char
  fraction : List Char
  exponent : Option Exponent
  deriving DecidableEq, Repr

namespace Numeral

/-- Reads digits onto a number, up to one that would bring it to the bound. That digit and those
after it are left. -/
def accumulate (bound n : Nat) : List Char → Nat × List Char
  | [] => (n, [])
  | d :: ds =>
      if 10 * n + digitValue d < bound then accumulate bound (10 * n + digitValue d) ds
      else (n, d :: ds)

def integral (x : Numeral) : Nat × List Char := accumulate 0x10000000000000000 0 x.whole

def significand (x : Numeral) : Nat × List Char := accumulate 0x10000000000000000 x.integral.1 x.fraction

def power (x : Numeral) : Int :=
  x.integral.2.length - (x.fraction.length - x.significand.2.length : Nat) +
    x.exponent.elim 0 Exponent.value

def tenPow (n : Nat) : Float := .ofScientific 1 false n

def scaleDown (f : Float) (n : Nat) : Float :=
  if n ≤ 308 then f / tenPow n
  else if f == 0 then f
  else scaleDown (f / tenPow 308) (n - 308)
termination_by n

/-- One rounding for the significand and one for each scaling. The result may be infinite. There is
none where the power alone is too large. -/
def scale (f : Float) : Int → Option Float
  | .ofNat n => if n ≤ 308 then some (f * tenPow n) else if f == 0 then some f else none
  | .negSucc n => some (scaleDown f (n + 1))

def float? (x : Numeral) : Option Number :=
  (scale (.ofNat x.significand.1) x.power).bind fun f =>
    Number.ofFloat? (if x.negative then -f else f)

def isInteger (x : Numeral) : Bool :=
  x.fraction.isEmpty && x.exponent.isNone && x.integral.2.isEmpty

/-- An integer that 64 bits hold stands for itself, but `-0` is a float. -/
def number? (x : Numeral) : Option Number :=
  if x.isInteger then
    if x.negative then
      if x.integral.1 = 0 then x.float? else (Number.ofInt? (-x.integral.1)).or x.float?
    else Number.ofInt? x.integral.1
  else x.float?

/-- The number of exponent digits after the one that makes the exponent too large for 31 bits. -/
def unread (x : Numeral) : Nat :=
  x.exponent.elim 0 fun e => (accumulate 0x80000000 0 e.digits).2.length - 1

end Numeral

namespace Read

def digits (c : Cursor) : Outcome (List Char) c :=
  if (c.rest.takeWhile Char.isDigit).isEmpty then
    fail (if c.isAtEnd then .eofValue else .invalidNumber) c
  else .ok ⟨c.rest.takeWhile Char.isDigit, c.skipWhile Char.isDigit, c.le_skipWhile _⟩

def wholeDigits (c : Cursor) : Outcome (List Char) c :=
  match c.rest with
  | '0' :: d :: _ => if d.isDigit then .error ⟨.invalidNumber, c.pos + 2⟩ else digits c
  | _ => digits c

def fractionDigits (c : Cursor) : Outcome (List Char) c :=
  match h : c.accept? '.' with
  | none => .ok ⟨[], c, c.le_refl⟩
  | some d => (digits d).map (.since (Cursor.le_of_accept? h))

def minus (c : Cursor) : Reading Bool c :=
  match h : c.accept? '-' with
  | none => ⟨false, c, c.le_refl⟩
  | some d => ⟨true, d, Cursor.le_of_accept? h⟩

def sign (c : Cursor) : Reading Bool c :=
  match h : c.accept? '+' with
  | none => minus c
  | some d => ⟨false, d, Cursor.le_of_accept? h⟩

def exponent (c : Cursor) : Outcome (Option Exponent) c :=
  match h : c.next? with
  | none => .ok ⟨none, c, c.le_refl⟩
  | some (x, d) =>
      if x = 'e' ∨ x = 'E' then do
        let s := sign d
        let ds ← digits s.stop
        return ⟨some ⟨s.value, ds.value⟩, ds.stop,
          Cursor.le_trans (Cursor.le_of_next? h) (Cursor.le_trans s.ahead ds.ahead)⟩
      else .ok ⟨none, c, c.le_refl⟩

def numeral (c : Cursor) : Outcome Numeral c := do
  let s := minus c
  let w ← wholeDigits s.stop
  let f ← fractionDigits w.stop
  let e ← exponent f.stop
  return ⟨⟨s.value, w.value, f.value, e.value⟩, e.stop,
    Cursor.le_trans (Cursor.le_trans s.ahead w.ahead) (Cursor.le_trans f.ahead e.ahead)⟩

def number (c : Cursor) : Outcome Number c := do
  let r ← numeral c
  match r.value.number? with
  | some n => return ⟨n, r.stop, r.ahead⟩
  | none => .error ⟨.numberOutOfRange, r.stop.pos - r.value.unread⟩

end Read

end SigilCall.Json
