import ScriptEngine.Number.Text
import ScriptEngine.Number.Reader
import ScriptEngine.Object

/-!
Conversions between values. Objects convert only as far as they wrap a primitive; the other objects
have a fixed text and are no numbers.
-/

namespace ScriptEngine.Heap

def unwrap (h : Heap) : Value → Value
  | .object o => match (h.get o).kind with
    | .wrapper primitive => primitive
    | _ => .object o
  | v => v

def typeOf (h : Heap) : Value → String
  | .undefined => "undefined"
  | .null => "object"
  | .boolean _ => "boolean"
  | .number _ => "number"
  | .string _ => "string"
  | .object o => if (h.get o).callable?.isSome then "function" else "object"

def toNumber (h : Heap) (v : Value) : Float :=
  match h.unwrap v with
  | .undefined => 0.0 / 0.0
  | .null => 0.0
  | .boolean b => if b then 1.0 else 0.0
  | .number x => x
  | .string s => Number.ofText s
  | .object _ => 0.0 / 0.0

def toText (h : Heap) (v : Value) : String :=
  match h.unwrap v with
  | .undefined => "undefined"
  | .null => "null"
  | .boolean b => if b then "true" else "false"
  | .number x => Number.render Number.scripted x
  | .string s => s
  | .object o => match (h.get o).callable? with
    | some callable => "function " ++ callable.name ++ "() \x7b [code] \x7d"
    | none => "[object Object]"

def describePrimitive : Value → String
  | .undefined => "undefined"
  | .null => "null"
  | .boolean b => if b then "true" else "false"
  | .number x => Number.render Number.diagnostic x
  | .string s => "\"" ++ s ++ "\""
  | .object _ => "\x7b...\x7d"

def describe (h : Heap) (v : Value) : String :=
  match v with
  | .object o => match (h.get o).kind with
    | .ordinary => "\x7b...\x7d"
    | .function callable => "[Function: " ++ callable.name ++ "]"
    | .generator _ => "[object Generator]"
    | .wrapper primitive => "[Object: " ++ describePrimitive primitive ++ "]"
  | primitive => describePrimitive primitive

/-- Equality with conversion. `null` and `undefined` equal only each other, two objects compare by
identity, an object and a string by their texts, and everything else as numbers. -/
def looseEquals (h : Heap) (a b : Value) : Bool :=
  match a, b with
  | .undefined, .undefined | .undefined, .null | .null, .undefined | .null, .null => true
  | .undefined, _ | .null, _ | _, .undefined | _, .null => false
  | .object x, .object y => x == y
  | .string x, .string y => x == y
  | .object _, .string _ | .string _, .object _ => h.toText a == h.toText b
  | _, _ => h.toNumber a == h.toNumber b

def toPrimitive (h : Heap) (v : Value) : Value :=
  match h.unwrap v with
  | .object o => .string (h.toText (.object o))
  | primitive => primitive

def add (h : Heap) (a b : Value) : Value :=
  match h.toPrimitive a, h.toPrimitive b with
  | .string s, y => .string (s ++ h.toText y)
  | x, .string s => .string (h.toText x ++ s)
  | x, y => .number (h.toNumber x + h.toNumber y)

def compare (h : Heap) (texts : String → String → Bool) (numbers : Float → Float → Bool)
    (a b : Value) : Bool :=
  match h.toPrimitive a, h.toPrimitive b with
  | .string s, .string t => texts s t
  | x, y => numbers (h.toNumber x) (h.toNumber y)

end ScriptEngine.Heap
