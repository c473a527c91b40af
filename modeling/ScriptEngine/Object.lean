import ScriptEngine.Table
import ScriptEngine.Value

/-!
Objects and the heap. Looking a property up walks the prototypes; on a heap of `n` objects a chain
without a cycle has at most `n` of them, so the walks are bounded by the size of the heap.
-/

namespace ScriptEngine

/-! ## Properties -/

structure Property where
  value : Value
  writable : Bool
  enumerable : Bool
  configurable : Bool
deriving Inhabited

namespace Property

def data (value : Value) : Property := ⟨value, true, true, true⟩

def hidden (value : Value) : Property := ⟨value, true, false, true⟩

def readonlyHidden (value : Value) : Property := ⟨value, false, false, true⟩

def locked (value : Value) : Property := ⟨value, false, false, false⟩

end Property

/-! ## Functions -/

inductive ErrorClass where
  | error
  | typeError
  | referenceError
  | rangeError
  | syntaxError
deriving DecidableEq, Inhabited

def ErrorClass.all : List ErrorClass :=
  [.error, .typeError, .referenceError, .rangeError, .syntaxError]

def ErrorClass.name : ErrorClass → String
  | .error => "Error"
  | .typeError => "TypeError"
  | .referenceError => "ReferenceError"
  | .rangeError => "RangeError"
  | .syntaxError => "SyntaxError"

inductive Builtin where
  | hasOwnProperty
  | isPrototypeOf
  | object
  | getPrototypeOf
  | functionCall
  | functionApply
  | functionBind
  | generatorNext
  | generatorReturn
  | generatorThrow
  | error (kind : ErrorClass)
  | errorToString
deriving DecidableEq

inductive NativeCode where
  | builtin (b : Builtin)
  | host (index : Nat)
deriving DecidableEq

structure Native where
  name : String
  arity : Nat
  code : NativeCode

def Native.isConstructor (native : Native) : Bool :=
  match native.code with
  | .builtin .object | .builtin (.error _) => true
  | _ => false

inductive ThisMode where
  | lexical
  | strict
  | global
deriving DecidableEq

inductive ConstructorKind where
  | base
  | derived
deriving DecidableEq

structure Closure where
  name : Option String
  node : FunctionNode
  environment : EnvironmentId
  thisMode : ThisMode
  constructorKind : ConstructorKind
  homeObject : Option ObjectId
  isClass : Bool
  constructable : Bool
  isDefault : Bool
  strict : Bool

structure Bound where
  target : ObjectId
  thisArgument : Value
  arguments : List Value

inductive Callable where
  | script (closure : Closure)
  | generator (closure : Closure)
  | native (native : Native)
  | bound (bound : Bound)

def Callable.name : Callable → String
  | .script closure | .generator closure => closure.name.getD "anonymous"
  | .native f => f.name
  | .bound _ => "bound"

/-! ## Objects -/

inductive ObjectKind where
  | ordinary
  | function (callable : Callable)
  | generator (generator : GeneratorId)
  | wrapper (primitive : Value)

structure Object where
  prototype : Option ObjectId := none
  extensible : Bool := true
  properties : Table Property := .empty
  kind : ObjectKind := .ordinary

instance : Inhabited Object := ⟨{}⟩

namespace Object

def callable? (object : Object) : Option Callable :=
  match object.kind with
  | .function callable => some callable
  | _ => none

def generator? (object : Object) : Option GeneratorId :=
  match object.kind with
  | .generator g => some g
  | _ => none

def define (object : Object) (key : String) (property : Property) : Object :=
  { object with properties := object.properties.insert key property }

def ownKeys (object : Object) : List String :=
  (object.properties.entries.filter (·.2.enumerable)).map (·.1)

end Object

/-! ## The heap -/

structure Heap where
  objects : Array Object
deriving Inhabited

namespace Heap

def get (h : Heap) (o : ObjectId) : Object := h.objects.getD o.index {}

def modify (h : Heap) (o : ObjectId) (change : Object → Object) : Heap :=
  ⟨h.objects.modify o.index change⟩

def allocate (h : Heap) (object : Object) : ObjectId × Heap :=
  (⟨h.objects.size⟩, ⟨h.objects.push object⟩)

def bound (h : Heap) : Nat := h.objects.size + 1

def getOwn? (h : Heap) (o : ObjectId) (key : String) : Option Property :=
  (h.get o).properties.find? key

def hasOwn (h : Heap) (o : ObjectId) (key : String) : Bool := (h.getOwn? o key).isSome

def lookupWithin (h : Heap) : Nat → ObjectId → String → Option Property
  | 0, _, _ => none
  | n + 1, o, key =>
    match h.getOwn? o key with
    | some property => some property
    | none => (h.get o).prototype.bind fun parent => lookupWithin h n parent key

def lookup (h : Heap) (o : ObjectId) (key : String) : Option Property :=
  h.lookupWithin h.bound o key

def getProperty? (h : Heap) (o : ObjectId) (key : String) : Option Value :=
  (h.lookup o key).map (·.value)

def getProperty (h : Heap) (o : ObjectId) (key : String) : Value :=
  (h.getProperty? o key).getD .undefined

def hasProperty (h : Heap) (o : ObjectId) (key : String) : Bool := (h.lookup o key).isSome

def define (h : Heap) (o : ObjectId) (key : String) (property : Property) : Heap :=
  h.modify o fun object => object.define key property

def erase (h : Heap) (o : ObjectId) (key : String) : Heap :=
  h.modify o fun object => { object with properties := object.properties.erase key }

/-- Whether an assignment to the key is allowed: not when the nearest property is read-only, and a
new property needs an extensible object. -/
def canWrite (h : Heap) (o : ObjectId) (key : String) : Bool :=
  match h.getOwn? o key with
  | some property => property.writable
  | none =>
    let inherited := (h.get o).prototype.bind fun parent => h.lookup parent key
    inherited.all (·.writable) && (h.get o).extensible

def assigned? (h : Heap) (o : ObjectId) (key : String) (value : Value) : Option Property :=
  if h.canWrite o key then
    some (match h.getOwn? o key with
      | some property => { property with value }
      | none => .data value)
  else none

/-- Assigns to a property; a new one is appended. The answer says whether the assignment was
allowed; if not, nothing changes. -/
def write (h : Heap) (o : ObjectId) (key : String) (value : Value) : Bool × Heap :=
  match h.assigned? o key value with
  | some property => (true, h.define o key property)
  | none => (false, h)

def remove (h : Heap) (o : ObjectId) (key : String) : Bool × Heap :=
  match h.getOwn? o key with
  | none => (true, h)
  | some property => if property.configurable then (true, h.erase o key) else (false, h)

def inheritsWithin (h : Heap) : Nat → ObjectId → ObjectId → Bool
  | 0, _, _ => false
  | n + 1, o, target =>
    match (h.get o).prototype with
    | none => false
    | some parent => parent = target || inheritsWithin h n parent target

def inherits (h : Heap) (o target : ObjectId) : Bool := h.inheritsWithin h.bound o target

def callable? (h : Heap) : Value → Option Callable
  | .object o => (h.get o).callable?
  | _ => none

def isCallable (h : Heap) (v : Value) : Bool := (h.callable? v).isSome

def isConstructorWithin (h : Heap) : Nat → ObjectId → Bool
  | 0, _ => false
  | n + 1, o =>
    match (h.get o).callable? with
    | some (.script closure) => closure.constructable
    | some (.native f) => f.isConstructor
    | some (.bound f) => isConstructorWithin h n f.target
    | some (.generator _) | none => false

def isConstructor (h : Heap) : Value → Bool
  | .object o => h.isConstructorWithin h.bound o
  | _ => false

end Heap

end ScriptEngine
