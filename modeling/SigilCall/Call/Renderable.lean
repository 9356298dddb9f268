import SigilCall.Call.Grammar
import SigilCall.Json.Parts

namespace SigilCall

open Text

namespace Argument

mutual

def preorder (level : Nat) : Argument → List (Nat × Argument)
  | .call name args => (level, .call name args) :: preorderList (level + 1) args
  | a => [(level, a)]

def preorderList (level : Nat) : List Argument → List (Nat × Argument)
  | [] => []
  | a :: args => a.preorder level ++ preorderList level args

end

def parts : Argument → List Json
  | .object es => (Json.object es).parts
  | .array vs => (Json.array vs).parts
  | _ => []

def HasDistinctKeys : Argument → Prop
  | .object es => (Json.object es).KeysDistinct
  | .array vs => (Json.array vs).KeysDistinct
  | _ => True

/-- What a node has to be like for its text to be read as that node. -/
def IsPlain : Argument → Prop
  | .call name args => IsName name.toList ∧ args ≠ []
  | .object es => (Json.object es).levels ≤ Json.maxLevels
  | .array vs => (Json.array vs).levels ≤ Json.maxLevels
  | .raw s => IsRaw s.toList ∧ trim s.toList = s.toList

end Argument

namespace Call

def preorder (c : Call) : List (Nat × Argument) := c.toArgument.preorder 1

def Renderable (c : Call) : Prop := ∀ x ∈ c.preorder, x.2.IsPlain

end Call

end SigilCall
