import ScriptEngine.Fault

/-!
Environments: the scopes in which names are looked up, each a record of bindings with a link to the
enclosing scope. An operation on the `Store`, the heap together with the environments, finds the
change that it makes or fails without one, so a failure changes nothing.
-/

namespace ScriptEngine

/-! ## Binding tables -/

structure Binding where
  value : Value := .undefined
  mutable : Bool
  initialized : Bool := false
  deletable : Bool := false
  strict : Bool := false

abbrev Bindings := Table Binding

namespace Bindings

def create (b : Bindings) (name : String) (binding : Binding) : Except Fault Bindings :=
  if b.contains name then .error (.syntaxError (.alreadyDeclared name))
  else .ok (b.insert name binding)

def createMutable (b : Bindings) (name : String) (deletable : Bool) : Except Fault Bindings :=
  create b name { mutable := true, deletable }

def createImmutable (b : Bindings) (name : String) (strict : Bool) : Except Fault Bindings :=
  create b name { mutable := false, strict }

/-- Gives a binding its first value; this is the one write that an immutable binding accepts. -/
def initBinding (b : Bindings) (name : String) (value : Value) : Except Fault Bindings :=
  match b.find? name with
  | none => .error (.internal (.missingBinding name))
  | some binding => .ok (b.insert name { binding with value, initialized := true })

/-- Assigns to a name. Sloppy code creates a missing binding, and its writes to an immutable one
are dropped unless the binding is strict itself. -/
def assign (b : Bindings) (name : String) (value : Value) (strict : Bool) : Except Fault Bindings :=
  match b.find? name with
  | none =>
    if strict then .error (.referenceError (.notDefined name))
    else .ok (b.insert name { value, mutable := true, initialized := true, deletable := true })
  | some binding =>
    if !binding.initialized then .error (.referenceError (.uninitialized name))
    else if binding.mutable then .ok (b.insert name { binding with value })
    else if binding.strict || strict then .error (.typeError .constantAssignment)
    else .ok b

def get (b : Bindings) (name : String) : Except Fault Value :=
  match b.find? name with
  | none => .error (.referenceError (.notDefined name))
  | some binding =>
    if binding.initialized then .ok binding.value
    else .error (.referenceError (.uninitialized name))

def delete (b : Bindings) (name : String) : Option Bindings :=
  match b.find? name with
  | none => some b
  | some binding => if binding.deletable then some (b.erase name) else none

end Bindings

/-! ## Records -/

inductive ThisBinding where
  | lexical
  | uninitialized
  | bound (value : Value)

structure FunctionRecord where
  bindings : Bindings := .empty
  this : ThisBinding
  function : ObjectId
  newTarget : Value
  homeObject : Option ObjectId

structure GlobalRecord where
  object : ObjectId
  bindings : Bindings := .empty
  varNames : List String := []

def GlobalRecord.noteVar (r : GlobalRecord) (name : String) : GlobalRecord :=
  if r.varNames.contains name then r else { r with varNames := r.varNames ++ [name] }

inductive Record where
  | declarative (bindings : Bindings)
  | function (record : FunctionRecord)
  | global (record : GlobalRecord)
  | object (object : ObjectId) (isWith : Bool)

structure Environment where
  outer : Option EnvironmentId := none
  record : Record := .declarative .empty

namespace Environment

def block (outer : Option EnvironmentId) : Environment := { outer }

def functionRecord? (env : Environment) : Option FunctionRecord :=
  match env.record with
  | .function r => some r
  | _ => none

def globalRecord? (env : Environment) : Option GlobalRecord :=
  match env.record with
  | .global r => some r
  | _ => none

def hasThis (env : Environment) : Bool :=
  match env.record with
  | .global _ => true
  | .function r => match r.this with
    | .lexical => false
    | _ => true
  | _ => false

def getThis (env : Environment) : Except Fault Value :=
  match env.record with
  | .global r => .ok (.object r.object)
  | .function r => match r.this with
    | .bound value => .ok value
    | .uninitialized => .error (.referenceError .superNotCalled)
    | .lexical => .error (.internal .arrowThis)
  | _ => .error (.internal .noThis)

def withObject? (env : Environment) : Option ObjectId :=
  match env.record with
  | .object o true => some o
  | _ => none

end Environment

/-! ## The store -/

structure Change where
  record : Option (EnvironmentId × Record) := none
  property : Option (ObjectId × String × Option Property) := none

namespace Change

def ofRecord (e : EnvironmentId) (record : Record) : Change := { record := some (e, record) }

def ofProperty (o : ObjectId) (key : String) (property : Property) : Change :=
  { property := some (o, key, some property) }

end Change

structure Store where
  heap : Heap := default
  environments : Array Environment := #[]
deriving Inhabited

namespace Store

def environment (s : Store) (e : EnvironmentId) : Environment := s.environments.getD e.index {}

def enclose (s : Store) (env : Environment) : EnvironmentId × Store :=
  (⟨s.environments.size⟩, { s with environments := s.environments.push env })

def bound (s : Store) : Nat := s.environments.size + 1

def setRecord (s : Store) (e : EnvironmentId) (record : Record) : Store :=
  { s with environments := s.environments.modify e.index fun env => { env with record } }

def setProperty (s : Store) (o : ObjectId) (key : String) (property : Option Property) : Store :=
  match property with
  | some property => { s with heap := s.heap.define o key property }
  | none => { s with heap := s.heap.erase o key }

def apply (s : Store) (change : Change) : Store :=
  let s := match change.property with
    | some (o, key, property) => s.setProperty o key property
    | none => s
  match change.record with
  | some (e, record) => s.setRecord e record
  | none => s

def commit (s : Store) (result : Except Fault Change) : Except Fault Unit × Store :=
  match result with
  | .ok change => (.ok (), s.apply change)
  | .error fault => (.error fault, s)

/-! ## Bindings -/

def hasBinding (s : Store) (e : EnvironmentId) (name : String) : Bool :=
  match (s.environment e).record with
  | .declarative b => b.contains name
  | .function r => r.bindings.contains name
  | .global r => r.bindings.contains name || s.heap.hasProperty r.object name
  | .object o _ => s.heap.hasProperty o name

def changeBindings (s : Store) (e : EnvironmentId)
    (change : Bindings → Except Fault Bindings) : Except Fault Change :=
  match (s.environment e).record with
  | .declarative b => (change b).map fun b => .ofRecord e (.declarative b)
  | .function r => (change r.bindings).map fun b => .ofRecord e (.function { r with bindings := b })
  | .global r => (change r.bindings).map fun b => .ofRecord e (.global { r with bindings := b })
  | .object .. => .ok {}

def createMutable (s : Store) (e : EnvironmentId) (name : String) (deletable : Bool) :
    Except Fault Change :=
  match (s.environment e).record with
  | .object o _ => .ok (.ofProperty o name ⟨.undefined, true, true, deletable⟩)
  | _ => s.changeBindings e fun b => Bindings.createMutable b name deletable

def createImmutable (s : Store) (e : EnvironmentId) (name : String) (strict : Bool) :
    Except Fault Change :=
  match (s.environment e).record with
  | .object .. => .error (.internal .immutableObjectBinding)
  | _ => s.changeBindings e fun b => Bindings.createImmutable b name strict

def assignProperty (s : Store) (o : ObjectId) (name : String) (value : Value) (strict : Bool) :
    Except Fault Change :=
  if !s.heap.hasProperty o name && strict then .error (.referenceError (.notDefined name))
  else match s.heap.assigned? o name value with
    | some property => .ok (.ofProperty o name property)
    | none => if strict then .error (.typeError (.readOnly name)) else .ok {}

def initBinding (s : Store) (e : EnvironmentId) (name : String) (value : Value) :
    Except Fault Change :=
  match (s.environment e).record with
  | .global r =>
    if r.bindings.contains name then s.changeBindings e fun b => Bindings.initBinding b name value
    else s.assignProperty r.object name value false
  | .object o _ => s.assignProperty o name value false
  | _ => s.changeBindings e fun b => Bindings.initBinding b name value

def assign (s : Store) (e : EnvironmentId) (name : String) (value : Value) (strict : Bool) :
    Except Fault Change :=
  match (s.environment e).record with
  | .global r =>
    if r.bindings.contains name then s.changeBindings e fun b => Bindings.assign b name value strict
    else s.assignProperty r.object name value strict
  | .object o _ => s.assignProperty o name value strict
  | _ => s.changeBindings e fun b => Bindings.assign b name value strict

def readProperty (s : Store) (o : ObjectId) (name : String) (strict : Bool) : Except Fault Value :=
  match s.heap.getProperty? o name with
  | some value => .ok value
  | none => if strict then .error (.referenceError (.notDefined name)) else .ok .undefined

def getBinding (s : Store) (e : EnvironmentId) (name : String) (strict : Bool) :
    Except Fault Value :=
  match (s.environment e).record with
  | .global r =>
    if r.bindings.contains name then Bindings.get r.bindings name
    else s.readProperty r.object name strict
  | .object o _ => s.readProperty o name strict
  | .declarative b => Bindings.get b name
  | .function r => Bindings.get r.bindings name

def deleteBinding (s : Store) (e : EnvironmentId) (name : String) : Option Change :=
  match (s.environment e).record with
  | .declarative b => (Bindings.delete b name).map fun b => .ofRecord e (.declarative b)
  | .function r =>
    (Bindings.delete r.bindings name).map fun b => .ofRecord e (.function { r with bindings := b })
  | .global r =>
    if r.bindings.contains name then
      (Bindings.delete r.bindings name).map fun b => .ofRecord e (.global { r with bindings := b })
    else match s.heap.getOwn? r.object name with
      | none => some {}
      | some property =>
        if property.configurable then some
          { record := some (e, .global { r with varNames := r.varNames.filter (· ≠ name) })
            property := some (r.object, name, none) }
        else none
  | .object o _ => match s.heap.getOwn? o name with
    | none => some {}
    | some property =>
      if property.configurable then some { property := some (o, name, none) } else none

def bindThis (s : Store) (e : EnvironmentId) (value : Value) : Except Fault Change :=
  match (s.environment e).record with
  | .function r => match r.this with
    | .lexical => .error (.internal .bindArrowThis)
    | .bound _ => .error (.referenceError .superCalledTwice)
    | .uninitialized => .ok (.ofRecord e (.function { r with this := .bound value }))
  | _ => .error (.internal .bindThisOutsideFunction)

/-! ## The global scope -/

def hasVar (s : Store) (e : EnvironmentId) (name : String) : Bool :=
  match (s.environment e).globalRecord? with
  | some r => r.varNames.contains name
  | none => false

def hasLexical (s : Store) (e : EnvironmentId) (name : String) : Bool :=
  match (s.environment e).globalRecord? with
  | some r => r.bindings.contains name
  | none => false

def hasRestricted (s : Store) (e : EnvironmentId) (name : String) : Bool :=
  match (s.environment e).globalRecord? with
  | some r => (s.heap.getOwn? r.object name).any fun p => !p.configurable
  | none => false

def declareVar (s : Store) (e : EnvironmentId) (name : String) (deletable : Bool) :
    Except Fault Change :=
  match (s.environment e).record with
  | .global r =>
    let missing := !s.heap.hasOwn r.object name && (s.heap.get r.object).extensible
    .ok
      { record := some (e, .global (r.noteVar name))
        property := if missing then
            some (r.object, name, some ⟨.undefined, true, true, deletable⟩)
          else none }
  | _ => .error (.internal .notGlobal)

/-- Declares a global function. A property that is locked in place is only written to. -/
def declareFunction (s : Store) (e : EnvironmentId) (name : String) (value : Value)
    (deletable : Bool) : Except Fault Change :=
  match (s.environment e).record with
  | .global r =>
    let property :=
      if (s.heap.getOwn? r.object name).all (·.configurable) then
        some ⟨value, true, true, deletable⟩
      else s.heap.assigned? r.object name value
    match property with
    | some property => .ok
        { record := some (e, .global (r.noteVar name))
          property := some (r.object, name, some property) }
    | none => .error (.typeError (.globalFunction name))
  | _ => .error (.internal .notGlobal)

/-! ## Scope chains -/

def resolveWithin (s : Store) : Nat → EnvironmentId → String → Option EnvironmentId
  | 0, _, _ => none
  | n + 1, e, name =>
    if s.hasBinding e name then some e
    else (s.environment e).outer.bind fun outer => resolveWithin s n outer name

def resolve (s : Store) (e : EnvironmentId) (name : String) : Option EnvironmentId :=
  s.resolveWithin s.bound e name

def thisScopeWithin (s : Store) : Nat → EnvironmentId → EnvironmentId
  | 0, e => e
  | n + 1, e =>
    if (s.environment e).hasThis then e
    else match (s.environment e).outer with
      | none => e
      | some outer => thisScopeWithin s n outer

def thisScope (s : Store) (e : EnvironmentId) : EnvironmentId := s.thisScopeWithin s.bound e

end Store

structure Reference where
  base : Option EnvironmentId
  name : String
  strict : Bool

def Store.reference (s : Store) (e : EnvironmentId) (name : String) (strict : Bool) : Reference :=
  ⟨s.resolve e name, name, strict⟩

end ScriptEngine
