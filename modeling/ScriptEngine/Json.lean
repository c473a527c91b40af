import ScriptEngine.Json.Numeral

/-!
JSON data. The type of the numbers is left open: a document holds them as they are written, and
a value of the engine is made from doubles.
-/

namespace ScriptEngine

inductive Json (ν : Type) where
  | null
  | bool (b : Bool)
  | number (x : ν)
  | string (s : String)
  | array (items : List (Json ν))
  | object (fields : List (String × Json ν))
deriving Inhabited

namespace Json

abbrev Document := Json Numeral

variable {ν : Type}

def get? (j : Json ν) (key : String) : Option (Json ν) :=
  match j with
  | .object fields => fields.lookup key
  | _ => none

def field? (j : Json ν) (key : String) : Option (Json ν) :=
  match j.get? key with
  | some .null => none
  | found => found

def string? : Json ν → Option String
  | .string s => some s
  | _ => none

def items? : Json ν → Option (List (Json ν))
  | .array items => some items
  | _ => none

def nat? : Document → Option Nat
  | .number n => n.nat?
  | _ => none

def text? (j : Json ν) (key : String) : Option String := (j.field? key).bind string?

def flag (j : Json ν) (key : String) : Bool :=
  match j.field? key with
  | some (.bool b) => b
  | _ => false

def list? (j : Json ν) (key : String) : Option (List (Json ν)) :=
  match j.field? key with
  | none => some []
  | some items => items.items?

mutual

def depth : Json ν → Nat
  | .array items => listDepth items + 1
  | .object fields => fieldsDepth fields + 1
  | _ => 0

def listDepth : List (Json ν) → Nat
  | [] => 0
  | item :: rest => max item.depth (listDepth rest)

def fieldsDepth : List (String × Json ν) → Nat
  | [] => 0
  | (_, item) :: rest => max item.depth (fieldsDepth rest)

end

mutual

def map {μ : Type} (f : ν → μ) : Json ν → Json μ
  | .null => .null
  | .bool b => .bool b
  | .number x => .number (f x)
  | .string s => .string s
  | .array items => .array (mapList f items)
  | .object fields => .object (mapFields f fields)

def mapList {μ : Type} (f : ν → μ) : List (Json ν) → List (Json μ)
  | [] => []
  | item :: rest => item.map f :: mapList f rest

def mapFields {μ : Type} (f : ν → μ) : List (String × Json ν) → List (String × Json μ)
  | [] => []
  | (key, item) :: rest => (key, item.map f) :: mapFields f rest

end

end Json

end ScriptEngine
