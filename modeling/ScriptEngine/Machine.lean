import ScriptEngine.Environment
import ScriptEngine.Limit
import ScriptEngine.Options

/-!
The state of an engine: the store, the generators, the call stack and what the host has set. The
type `σ` is the state that the host keeps beside the engine for its own functions.
-/

namespace ScriptEngine

structure Realm where
  objectPrototype : ObjectId
  functionPrototype : ObjectId
  generatorPrototype : ObjectId
  errorPrototype : ErrorClass → ObjectId
  global : ObjectId
  globalEnvironment : EnvironmentId

structure Machine (σ : Type) where
  store : Store
  generators : Array Generator := #[]
  stack : CallStack := {}
  limits : List Limit := []
  cancelled : Bool := false
  options : Options
  realm : Realm
  host : σ

namespace Machine

variable {σ : Type}

def heap (m : Machine σ) : Heap := m.store.heap

def onStore {α : Type} (m : Machine σ) (change : Store → α × Store) : α × Machine σ :=
  match m with
  | { store, generators, stack, limits, cancelled, options, realm, host } =>
    let (a, store) := change store
    (a, { store, generators, stack, limits, cancelled, options, realm, host })

def onHeap {α : Type} (m : Machine σ) (change : Heap → α × Heap) : α × Machine σ :=
  m.onStore fun
    | { heap, environments } =>
      let (a, heap) := change heap
      (a, { heap, environments })

def mapHeap (m : Machine σ) (change : Heap → Heap) : Machine σ :=
  (m.onHeap fun h => ((), change h)).2

def generator? (m : Machine σ) (g : GeneratorId) : Option Generator := m.generators[g.index]?

def modifyGenerator (m : Machine σ) (g : GeneratorId) (change : Generator → Generator) :
    Machine σ :=
  { m with generators := m.generators.modify g.index change }

/-! ## The running frame -/

def lexical (m : Machine σ) : EnvironmentId :=
  match m.stack.running? with
  | some frame => frame.lexical
  | none => m.realm.globalEnvironment

def varScope (m : Machine σ) : EnvironmentId :=
  match m.stack.running? with
  | some frame => frame.varScope
  | none => m.realm.globalEnvironment

def strict (m : Machine σ) : Bool := m.stack.running?.any (·.strict)

def runningGenerator? (m : Machine σ) : Option GeneratorId := m.stack.running?.bind (·.generator)

def setScope (m : Machine σ) (lexical varScope : EnvironmentId) : Machine σ :=
  { m with stack := m.stack.setScope lexical varScope }

def push (m : Machine σ) (frame : Frame) : Machine σ := { m with stack := m.stack.push frame }

def pop (m : Machine σ) : Machine σ := { m with stack := m.stack.pop }

def isFull (m : Machine σ) : Bool :=
  match m.options.maxRecursionDepth with
  | some limit => limit ≤ m.stack.depth
  | none => false

/-! ## Names -/

def reference (m : Machine σ) (name : String) : Reference :=
  m.store.reference m.lexical name m.strict

def getReference (m : Machine σ) (r : Reference) : Except Fault Value :=
  match r.base with
  | none => .error (.referenceError (.notDefined r.name))
  | some e => m.store.getBinding e r.name r.strict

def thisScope (m : Machine σ) : EnvironmentId := m.store.thisScope m.lexical

def getThis (m : Machine σ) : Except Fault Value := (m.store.environment m.thisScope).getThis

/-! ## The global object -/

def getGlobal? (m : Machine σ) (name : String) : Option Value :=
  m.heap.getProperty? m.realm.global name

def setGlobal (m : Machine σ) (name : String) (value : Value) : Machine σ :=
  let global := m.realm.global
  m.mapHeap fun h => h.define global name (.hidden value)

def addLimit (m : Machine σ) (limit : Limit) : Machine σ :=
  { m with limits := m.limits ++ [limit] }

def trace (m : Machine σ) : List String := m.stack.names.map Frame.trace

end Machine

end ScriptEngine
