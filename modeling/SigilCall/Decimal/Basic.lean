namespace SigilCall

structure Decimal where
  coefficient : Nat
  exponent : Int
  deriving DecidableEq, Repr

namespace Decimal

def digits (n : Nat) : List Char := Nat.toDigits 10 n

def digitCount (n : Nat) : Nat := (digits n).length

/-- All digits with a point among them, and at least one on each side of it. The first digit counts
for the power `lead` of ten. -/
def positional (ds : List Char) (lead : Int) : List Char :=
  if lead < 0 then '0' :: '.' :: (List.replicate (-lead - 1).toNat '0' ++ ds)
  else
    let n := lead.toNat + 1
    let fraction := if ds.length ≤ n then ['0'] else ds.drop n
    ds.take n ++ List.replicate (n - ds.length) '0' ++ '.' :: fraction

def scientific (ds : List Char) (lead : Int) : List Char :=
  let fraction := if ds.length ≤ 1 then [] else '.' :: ds.tail
  let sign := if lead < 0 then '-' else '+'
  ds.take 1 ++ fraction ++ 'e' :: sign :: digits lead.natAbs

/-- The powers of ten for which a first digit at that power is written in its place. -/
structure Style where
  least : Int
  greatest : Int
  deriving DecidableEq, Repr

def render (style : Style) (d : Decimal) : List Char :=
  let ds := digits d.coefficient
  let lead := d.exponent + ds.length - 1
  if style.least ≤ lead ∧ lead ≤ style.greatest then positional ds lead else scientific ds lead

end Decimal

end SigilCall
