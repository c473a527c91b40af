import ScriptEngine.Tree

/-!
Values of the language. Objects are values by reference: a value holds only the identity of an
object, and the heap holds its contents.
-/

namespace ScriptEngine

structure ObjectId where
  index : Nat
deriving DecidableEq, Inhabited

structure EnvironmentId where
  index : Nat
deriving DecidableEq, Inhabited

structure GeneratorId where
  index : Nat
deriving DecidableEq, Inhabited

inductive Value where
  | undefined
  | null
  | boolean (b : Bool)
  | number (x : Float)
  | string (s : String)
  | object (o : ObjectId)
deriving Inhabited

namespace Value

def isUndefined : Value → Bool
  | .undefined => true
  | _ => false

def isNullish : Value → Bool
  | .undefined | .null => true
  | _ => false

def asObject? : Value → Option ObjectId
  | .object o => some o
  | _ => none

def ofObject? : Option ObjectId → Value
  | some o => .object o
  | none => .null

def toBoolean : Value → Bool
  | .undefined | .null => false
  | .boolean b => b
  | .number x => x != 0.0 && !x.isNaN
  | .string s => s ≠ ""
  | .object _ => true

def strictEquals : Value → Value → Bool
  | .undefined, .undefined => true
  | .null, .null => true
  | .boolean a, .boolean b => a == b
  | .number a, .number b => a == b
  | .string a, .string b => a == b
  | .object a, .object b => a == b
  | _, _ => false

/-- Identity of values: a not-a-number is the same as itself, and the two zeros differ. -/
def same : Value → Value → Bool
  | .number a, .number b =>
    if a.isNaN && b.isNaN then true
    else a == b && (a.toBits >>> 63) == (b.toBits >>> 63)
  | a, b => strictEquals a b

end Value

def Literal.value : Literal → Value
  | .undefined => .undefined
  | .null => .null
  | .boolean b => .boolean b
  | .number x => .number x
  | .string s => .string s

end ScriptEngine
