import ScriptEngine.Action

/-!
The state an engine starts in: the prototypes, the constructors, the global object with its
properties, and the functions of the host.
-/

namespace ScriptEngine

abbrev Setup := StateM Heap

namespace Setup

def allocate (object : Object) : Setup ObjectId := fun h => h.allocate object

def define (o : ObjectId) (key : String) (property : Property) : Setup Unit :=
  modify fun h => h.define o key property

def native (prototype : ObjectId) (f : Native) : Setup ObjectId :=
  allocate
    { prototype := some prototype
      properties := Table.empty
        |>.insert "length" (.readonlyHidden (.number (Float.ofNat f.arity)))
        |>.insert "name" (.readonlyHidden (.string f.name))
      kind := .function (.native f) }

def method (functionPrototype o : ObjectId) (name : String) (arity : Nat) (code : NativeCode) :
    Setup Unit := do
  let f ← native functionPrototype { name, arity, code }
  define o name (.hidden (.object f))

def publish (global constructor prototype : ObjectId) (name : String) : Setup Unit := do
  define constructor "prototype" (.locked (.object prototype))
  define prototype "constructor" (.hidden (.object constructor))
  define global name (.hidden (.object constructor))

def objects (realm : Realm) : Setup Unit := do
  let method := method realm.functionPrototype
  method realm.objectPrototype "hasOwnProperty" 1 (.builtin .hasOwnProperty)
  method realm.objectPrototype "isPrototypeOf" 1 (.builtin .isPrototypeOf)
  let constructor ← native realm.functionPrototype
    { name := "Object", arity := 1, code := .builtin .object }
  method constructor "getPrototypeOf" 1 (.builtin .getPrototypeOf)
  publish realm.global constructor realm.objectPrototype "Object"

def functions (realm : Realm) : Setup Unit := do
  let method := method realm.functionPrototype realm.functionPrototype
  method "call" 1 (.builtin .functionCall)
  method "apply" 2 (.builtin .functionApply)
  method "bind" 1 (.builtin .functionBind)

def generators (realm : Realm) : Setup Unit := do
  define realm.generatorPrototype "@@toStringTag" (.readonlyHidden (.string "Generator"))
  let method := method realm.functionPrototype realm.generatorPrototype
  method "next" 1 (.builtin .generatorNext)
  method "return" 1 (.builtin .generatorReturn)
  method "throw" 1 (.builtin .generatorThrow)

def errorClass (realm : Realm) (parent : ObjectId) (kind : ErrorClass) : Setup ObjectId := do
  let prototype := realm.errorPrototype kind
  define prototype "name" (.hidden (.string kind.name))
  define prototype "message" (.hidden (.string ""))
  let constructor ← native parent
    { name := kind.name, arity := 1, code := .builtin (.error kind) }
  publish realm.global constructor prototype kind.name
  pure constructor

def errors (realm : Realm) : Setup Unit := do
  let general ← errorClass realm realm.functionPrototype .error
  for kind in ErrorClass.all do
    if kind ≠ .error then
      let _ ← errorClass realm general kind
  method realm.functionPrototype (realm.errorPrototype .error) "toString" 0
    (.builtin .errorToString)

def globals (realm : Realm) : Setup Unit := do
  define realm.global "globalThis" (.hidden (.object realm.global))
  define realm.global "undefined" (.locked .undefined)
  define realm.global "NaN" (.locked (.number (0.0 / 0.0)))
  define realm.global "Infinity" (.locked (.number (1.0 / 0.0)))

def hostFunctions {σ : Type} (realm : Realm) : (index : Nat) → List (HostFunction σ) → Setup Unit
  | _, [] => pure ()
  | index, f :: rest => do
    method realm.functionPrototype realm.global f.name f.arity (.host index)
    hostFunctions realm (index + 1) rest

def realm : Setup Realm := do
  let objectPrototype ← allocate {}
  let plain : Object := { prototype := some objectPrototype }
  let functionPrototype ← allocate plain
  let generatorPrototype ← allocate plain
  let error ← allocate plain
  let typeError ← allocate { prototype := some error }
  let referenceError ← allocate { prototype := some error }
  let rangeError ← allocate { prototype := some error }
  let syntaxError ← allocate { prototype := some error }
  let global ← allocate plain
  pure
    { objectPrototype
      functionPrototype
      generatorPrototype
      errorPrototype := fun
        | .error => error
        | .typeError => typeError
        | .referenceError => referenceError
        | .rangeError => rangeError
        | .syntaxError => syntaxError
      global
      globalEnvironment := ⟨0⟩ }

def all {σ : Type} (host : List (HostFunction σ)) : Setup Realm := do
  let realm ← realm
  objects realm
  functions realm
  generators realm
  errors realm
  globals realm
  hostFunctions realm 0 host
  pure realm

end Setup

/-- The state that an engine starts in. The outermost frame belongs to no script. -/
def Engine.start {σ : Type} (engine : Engine σ) (options : Options) (host : σ) : Machine σ :=
  let (realm, heap) := Setup.all engine.host { objects := #[] }
  let global : Environment := { record := .global { object := realm.global } }
  { store := { heap, environments := #[global] }
    stack := ⟨[{ lexical := realm.globalEnvironment
                 varScope := realm.globalEnvironment
                 strict := options.strict }]⟩
    options
    realm
    host }

end ScriptEngine
