namespace SigilCall.Json

inductive Number
  | integer (i : Int) (bounds : -0x8000000000000000 ≤ i ∧ i < 0x10000000000000000)
  | float (x : Float) (finite : x.isFinite = true)
  deriving DecidableEq

namespace Number

def ofInt? (i : Int) : Option Number :=
  if h : -0x8000000000000000 ≤ i ∧ i < 0x10000000000000000 then some (.integer i h) else none

def ofFloat? (x : Float) : Option Number :=
  if h : x.isFinite = true then some (.float x h) else none

protected def beq : Number → Number → Bool
  | .integer i _, .integer j _ => i == j
  | .float x _, .float y _ => x == y
  | _, _ => false

instance : BEq Number := ⟨Number.beq⟩

end Number

end SigilCall.Json
