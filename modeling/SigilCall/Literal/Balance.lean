import SigilCall.Literal.Span

namespace SigilCall.Literal

def afterQuoted : List Char → List Char
  | [] => []
  | '"' :: s => s
  | '\\' :: _ :: s => afterQuoted s
  | _ :: s => afterQuoted s

theorem length_afterQuoted_le (s : List Char) : (afterQuoted s).length ≤ s.length := by
  fun_induction afterQuoted s with
  | case1 => exact Nat.le_refl _
  | case2 s => exact Nat.le_succ _
  | case3 s _ ih => simp only [List.length_cons]; omega
  | case4 s _ _ _ ih => simp only [List.length_cons]; omega

def outsideRegions : List Char → List Char
  | [] => []
  | c :: s =>
      if c = '"' then
        have : (afterQuoted s).length ≤ s.length := length_afterQuoted_le s
        outsideRegions (afterQuoted s)
      else c :: outsideRegions s
termination_by s => s.length

def atEvenMarks (s : List Char) : List Char :=
  (s.zipIdx.filter fun x => (s.take x.2).count '"' % 2 == 0).map Prod.fst

/-- The characters of a text outside quotes, found without a look at brackets. A quotation mark may
be among them. -/
def outside : Quoting → List Char → List Char
  | .naive => atEvenMarks
  | .escaped => outsideRegions

def balance (k : Kind) (mode : Quoting) (s : List Char) : Int :=
  (outside mode s).count k.opening - (outside mode s).count k.closing

/-- A text is one literal of a kind if it starts with the opening bracket and the brackets first
balance at its end. -/
def IsLiteral (k : Kind) (mode : Quoting) (s : List Char) : Prop :=
  s.head? = some k.opening ∧ balance k mode s = 0 ∧
    ∀ t, t <+: s → t ≠ [] → t ≠ s → balance k mode t ≠ 0

end SigilCall.Literal
