import ScriptEngine.Action
import ScriptEngine.Json

/-!
Values made from JSON data. Arrays become objects with numbered properties and a length.
-/

namespace ScriptEngine.Json

variable {σ : Type}

def addFields (fields : List (String × Value)) : Table Property :=
  fields.foldl (fun t field => t.insert field.1 (.data field.2)) .empty

def arrayProperties (items : List Value) : Table Property :=
  (addFields (items.mapIdx fun index v => (toString index, v))).insert "length"
    (.hidden (.number (Float.ofNat items.length)))

def objectProperties (fields : List (String × Value)) : Table Property :=
  addFields (fields.mergeSort fun a b => !(b.1 < a.1))

def allocate (properties : Table Property) : Eval σ Value := do
  let prototype ← Eval.ask (·.realm.objectPrototype)
  let o ← Eval.perform (.allocate { prototype := some prototype, properties })
  pure (.object o)

mutual

def value : Json Float → Eval σ Value
  | .null => pure .null
  | .bool b => pure (.boolean b)
  | .number x => pure (.number x)
  | .string s => pure (.string s)
  | .array items => do
    let items ← valueList items
    allocate (arrayProperties items)
  | .object fields => do
    let fields ← valueFields fields
    allocate (objectProperties fields)

def valueList : List (Json Float) → Eval σ (List Value)
  | [] => pure []
  | item :: rest => do
    let v ← item.value
    let vs ← valueList rest
    pure (v :: vs)

def valueFields : List (String × Json Float) → Eval σ (List (String × Value))
  | [] => pure []
  | (key, item) :: rest => do
    let v ← item.value
    let vs ← valueFields rest
    pure ((key, v) :: vs)

end

end ScriptEngine.Json
