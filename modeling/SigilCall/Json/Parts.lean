import SigilCall.Json.Basic

namespace SigilCall.Json

mutual

def parts : Json → List Json
  | .array vs => .array vs :: partsItems vs
  | .object es => .object es :: partsEntries es
  | v => [v]

def partsItems : List Json → List Json
  | [] => []
  | v :: vs => v.parts ++ partsItems vs

def partsEntries : List (String × Json) → List Json
  | [] => []
  | (_, v) :: es => v.parts ++ partsEntries es

end

@[simp] theorem parts_array (vs : List Json) : (array vs).parts = .array vs :: partsItems vs := rfl

@[simp] theorem parts_object (es : List (String × Json)) :
    (object es).parts = .object es :: partsEntries es := rfl

@[simp] theorem partsItems_cons (v : Json) (vs : List Json) :
    partsItems (v :: vs) = v.parts ++ partsItems vs := rfl

@[simp] theorem partsEntries_cons (e : String × Json) (es : List (String × Json)) :
    partsEntries (e :: es) = e.2.parts ++ partsEntries es := rfl

def KeysDistinct (v : Json) : Prop := ∀ es, .object es ∈ v.parts → (es.map Prod.fst).Nodup

end SigilCall.Json
