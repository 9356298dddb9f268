import SigilCall.Json.Number

namespace SigilCall

/-- A JSON value. The entries of an object stand in the order of their keys' first appearance. -/
inductive Json
  | null
  | bool (b : Bool)
  | number (x : Json.Number)
  | string (s : String)
  | array (items : List Json)
  | object (entries : List (String × Json))

namespace Json

/-- Sets the value of a key. A key that is there keeps its place, a new one comes last. -/
def insert (key : String) (v : Json) : List (String × Json) → List (String × Json)
  | [] => [(key, v)]
  | (k, w) :: es => if k = key then (k, v) :: es else (k, w) :: insert key v es

def collect (es : List (String × Json)) : List (String × Json) :=
  es.foldl (fun done e => insert e.1 e.2 done) []

def ofFloat (x : Float) : Json := (Number.ofFloat? x).elim null number

mutual

protected def beq : Json → Json → Bool
  | .null, .null => true
  | .bool a, .bool b => a == b
  | .number x, .number y => x == y
  | .string s, .string t => s == t
  | .array vs, .array ws => beqItems vs ws
  | .object es, .object fs => es.length == fs.length && beqEntries es fs
  | _, _ => false

def beqItems : List Json → List Json → Bool
  | [], [] => true
  | v :: vs, w :: ws => v.beq w && beqItems vs ws
  | _, _ => false

def beqEntries : List (String × Json) → List (String × Json) → Bool
  | [], _ => true
  | (k, v) :: es, fs => ((fs.lookup k).elim false fun w => v.beq w) && beqEntries es fs

end

instance : BEq Json := ⟨Json.beq⟩

mutual

def levels : Json → Nat
  | .array vs => levelsItems vs + 1
  | .object es => levelsEntries es + 1
  | _ => 0

def levelsItems : List Json → Nat
  | [] => 0
  | v :: vs => max v.levels (levelsItems vs)

def levelsEntries : List (String × Json) → Nat
  | [] => 0
  | (_, v) :: es => max v.levels (levelsEntries es)

end

@[simp] theorem levels_array (vs : List Json) : (array vs).levels = levelsItems vs + 1 := rfl

@[simp] theorem levels_object (es : List (String × Json)) :
    (object es).levels = levelsEntries es + 1 := rfl

@[simp] theorem levelsEntries_nil : levelsEntries [] = 0 := rfl

@[simp] theorem levelsEntries_cons (e : String × Json) (es : List (String × Json)) :
    levelsEntries (e :: es) = max e.2.levels (levelsEntries es) := rfl

end Json

end SigilCall
