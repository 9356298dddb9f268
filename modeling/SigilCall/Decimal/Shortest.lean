import SigilCall.Decimal.Basic

namespace SigilCall.Decimal

structure Binary where
  mantissa : Nat
  exponent : Int
  deriving DecidableEq, Repr

/-- A number, the ends of the interval of reals that round to it, and the step of a decimal grid,
all four in one unit. The ends belong to the interval if `closed`. -/
structure Neighbourhood where
  low : Nat
  value : Nat
  high : Nat
  step : Nat
  closed : Bool
  deriving DecidableEq, Repr

namespace Neighbourhood

def Contains (i : Neighbourhood) (n : Nat) : Prop :=
  if i.closed then i.low ≤ n * i.step ∧ n * i.step ≤ i.high
  else i.low < n * i.step ∧ n * i.step < i.high

instance (i : Neighbourhood) (n : Nat) : Decidable (i.Contains n) := by
  unfold Contains; infer_instance

/-- The point of the grid in the interval that is nearest to the number. Of two equally near the
even one is taken. -/
def nearest? (i : Neighbourhood) : Option Nat :=
  let below := i.value / i.step
  let gap := i.value - below * i.step
  let takeBelow := 2 * gap < i.step ∨ 2 * gap = i.step ∧ below % 2 = 0
  if i.Contains below ∧ (takeBelow ∨ ¬ i.Contains (below + 1)) then some below
  else if i.Contains (below + 1) then some (below + 1)
  else none

end Neighbourhood

namespace Binary

def ofFloat (x : Float) : Binary :=
  let mantissa : Nat := x.toBits.toNat % 0x10000000000000
  let exponent : Nat := x.toBits.toNat / 0x10000000000000 % 0x800
  if exponent = 0 then ⟨mantissa, -1074⟩ else ⟨mantissa + 0x10000000000000, exponent - 1075⟩

/-- The floats next to a float lie one unit of its mantissa away, but below a power of two half as
far. The interval ends half way to them. The grid has the step `10 ^ g`. -/
def neighbourhood (b : Binary) (g : Int) : Neighbourhood :=
  let scale := Nat.pow 2 (b.exponent - 2).toNat * Nat.pow 10 (-g).toNat
  let below := if b.mantissa = 0x10000000000000 ∧ b.exponent ≠ -1074 then 1 else 2
  { low := (4 * b.mantissa - below) * scale
    value := 4 * b.mantissa * scale
    high := (4 * b.mantissa + 2) * scale
    step := Nat.pow 2 (2 - b.exponent).toNat * Nat.pow 10 g.toNat
    closed := b.mantissa % 2 = 0 }

def magnitude (b : Binary) : Int :=
  let numerator := b.mantissa * Nat.pow 2 b.exponent.toNat
  let denominator := Nat.pow 2 (-b.exponent).toNat
  if denominator ≤ numerator then digitCount (numerator / denominator)
  else 1 - digitCount ((denominator - 1) / numerator)

def exact (b : Binary) : Decimal :=
  if b.exponent < 0 then ⟨b.mantissa * Nat.pow 5 b.exponent.natAbs, b.exponent⟩
  else ⟨b.mantissa * Nat.pow 2 b.exponent.natAbs, 0⟩

def shortest (b : Binary) : Decimal :=
  if b.mantissa = 0 then ⟨0, 0⟩
  else
    let grids := (List.range 18).map fun n : Nat => b.magnitude - n
    (grids.findSome? fun g => (b.neighbourhood g).nearest?.map (⟨·, g⟩)).getD b.exact

end Binary

def ofFloat (style : Style) (x : Float) : List Char :=
  let magnitude := (Binary.ofFloat x).shortest.render style
  if x.toBits.toNat < 0x8000000000000000 then magnitude else '-' :: magnitude

end SigilCall.Decimal
