import SigilCall.Json.Render

namespace SigilCall

inductive Argument
  | call (name : String) (args : List Argument)
  | object (entries : List (String × Json))
  | array (items : List Json)
  | raw (text : String)

structure Call where
  name : String
  args : List Argument

namespace Argument

def toCall? : Argument → Option Call
  | .call name args => some ⟨name, args⟩
  | _ => none

def toObject? : Argument → Option (List (String × Json))
  | .object es => some es
  | _ => none

def toArray? : Argument → Option (List Json)
  | .array vs => some vs
  | _ => none

def toRaw? : Argument → Option String
  | .raw s => some s
  | _ => none

def ofJson? : Json → Option Argument
  | .object es => some (.object es)
  | .array vs => some (.array vs)
  | _ => none

mutual

def depth : Argument → Nat
  | .call _ args => depthList args + 1
  | _ => 0

def depthList : List Argument → Nat
  | [] => 0
  | a :: args => max a.depth (depthList args)

end

@[simp] theorem depth_call (name : String) (args : List Argument) :
    (call name args).depth = depthList args + 1 := rfl

@[simp] theorem depth_raw (s : String) : (raw s).depth = 0 := rfl

@[simp] theorem depthList_nil : depthList [] = 0 := rfl

@[simp] theorem depthList_cons (a : Argument) (args : List Argument) :
    depthList (a :: args) = max a.depth (depthList args) := rfl

mutual

protected def beq : Argument → Argument → Bool
  | .call n args, .call m args' => n == m && beqList args args'
  | .object es, .object fs => Json.object es == Json.object fs
  | .array vs, .array ws => Json.array vs == Json.array ws
  | .raw s, .raw t => s == t
  | _, _ => false

def beqList : List Argument → List Argument → Bool
  | [], [] => true
  | a :: args, b :: args' => a.beq b && beqList args args'
  | _, _ => false

end

instance : BEq Argument := ⟨Argument.beq⟩

mutual

def render : Argument → List Char
  | .call name args => '$' :: (name.toList ++ '(' :: (renderList args ++ [')']))
  | .object es => (Json.object es).render
  | .array vs => (Json.array vs).render
  | .raw s => s.toList

def renderList : List Argument → List Char
  | [] => []
  | [a] => a.render
  | a :: b :: args => a.render ++ ',' :: ' ' :: renderList (b :: args)

end

instance : ToString Argument := ⟨fun a => String.ofList a.render⟩

end Argument

namespace Call

def toArgument (c : Call) : Argument := .call c.name c.args

def depth (c : Call) : Nat := c.toArgument.depth

@[simp] theorem depth_toArgument (c : Call) : c.toArgument.depth = c.depth := rfl

@[simp] theorem depth_mk (name : String) (args : List Argument) :
    (⟨name, args⟩ : Call).depth = Argument.depthList args + 1 := rfl

theorem depth_eq (c : Call) : c.depth = Argument.depthList c.args + 1 := rfl

instance : BEq Call := ⟨fun c d => c.toArgument == d.toArgument⟩

def render (c : Call) : List Char := c.toArgument.render

instance : ToString Call := ⟨fun c => String.ofList c.render⟩

end Call

end SigilCall
