import SigilCall.Literal.Span

namespace SigilCall

/-- The settings of a parser. A call that stands in no other has depth 1. -/
structure Config where
  maxDepth : Nat := 100
  quoting : Literal.Quoting := .naive
  deriving DecidableEq, Repr

end SigilCall
