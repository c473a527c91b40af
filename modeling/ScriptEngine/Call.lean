import ScriptEngine.Statement

/-!
Calling functions of the script. A call opens a scope and a frame, binds `this`, binds the
parameters and the names that the body declares, and then runs the body.
-/

namespace ScriptEngine

variable {σ : Type}

def Closure.frame (closure : Closure) (scope : EnvironmentId) (named : Bool) : Frame :=
  { lexical := scope
    varScope := scope
    strict := closure.strict
    name := if named then some (closure.name.getD "<anonymous>") else none }

def Completion.result (c : Completion) : Except Fault Value :=
  match c.kind with
  | .return => .ok c.valueOrUndefined
  | .throw => .error (.thrown c.valueOrUndefined c.location)
  | _ => .ok .undefined

def FunctionNode.run (shortcuts : Bool) (node : FunctionNode) : Eval σ Completion :=
  match node.body with
  | .block statements => evalStatements shortcuts statements
  | .concise e => do
    let result ← Eval.outcome do
      let v ← e.eval none
      pure (Completion.returning v)
    Eval.settle e.span result

namespace Eval

/-! ## Frames -/

def checkDepth : Eval σ Unit :=
  askFor fun m => if m.isFull then .error (.stackOverflow m.stack.depth) else .ok ()

def enter {α : Type} (function : ObjectId) (closure : Closure) (newTarget : Value)
    (body : (scope : EnvironmentId) → Eval σ α) : Eval σ α := do
  checkDepth
  let this := if closure.thisMode = .lexical then .lexical else .uninitialized
  let scope ← perform (.enclose
    { outer := some closure.environment
      record := .function { this, function, newTarget, homeObject := closure.homeObject } })
  let named ← ask (·.options.debugNames)
  inFrame (closure.frame scope named) (body scope)

def enterNative {α : Type} (native : Native) (body : Eval σ α) : Eval σ α := do
  checkDepth
  let frame ← ask fun m =>
    { lexical := m.lexical
      varScope := m.varScope
      strict := m.strict
      name := if m.options.debugNames then some native.name else none : Frame }
  inFrame frame body

/-- Binds `this`. Sloppy functions see the global object in place of nothing and objects in place of
primitives. -/
def bindThis (closure : Closure) (scope : EnvironmentId) (this : Value) : Eval σ Unit :=
  match closure.thisMode with
  | .lexical => pure ()
  | .strict => attempt (.bindThis scope this)
  | .global =>
    if this.isNullish then do
      let global ← ask (·.realm.global)
      attempt (.bindThis scope (.object global))
    else do
      let o ← toObject this
      attempt (.bindThis scope (.object o))

/-! ## Declarations -/

def createMissing (scope : EnvironmentId) : List String → Eval σ Unit
  | [] => pure ()
  | name :: rest => do
    if !(← ask fun m => m.store.hasBinding scope name) then
      attempt (.createMutable scope name false)
    createMissing scope rest

def argumentFor (parameter : Parameter) (given : Value) : Eval σ Value :=
  match parameter.fallback with
  | some e => if given.isUndefined then e.eval (some parameter.name) else pure given
  | none => pure given

/-- Gives the parameters their values, from left to right. Of parameters with one name the last
wins. -/
def bindParameters (scope : EnvironmentId) (seen : List String) :
    List Parameter → List Value → Eval σ Unit
  | [], _ => pure ()
  | parameter :: rest, arguments => do
    let v ← argumentFor parameter (arguments.headD .undefined)
    if seen.contains parameter.name then attempt (.assign scope parameter.name v false)
    else attempt (.initBinding scope parameter.name v)
    bindParameters scope (parameter.name :: seen) rest arguments.tail

def declareVariables (scope : EnvironmentId) : List String → Eval σ Unit
  | [] => pure ()
  | name :: rest => do
    if !(← ask fun m => m.store.hasBinding scope name) then
      attempt (.createMutable scope name false)
      attempt (.initBinding scope name .undefined)
    declareVariables scope rest

/-- Declares the variables of a body in a scope of their own. One that has the name of a parameter
starts with its value. -/
def copyVariables (parameters scope : EnvironmentId) (parameterNames : List String) :
    List String → Eval σ Unit
  | [] => pure ()
  | name :: rest => do
    let v ←
      if parameterNames.contains name then
        askFor fun m => m.store.getBinding parameters name false
      else pure .undefined
    attempt (.createMutable scope name false)
    attempt (.initBinding scope name v)
    copyVariables parameters scope parameterNames rest

def declareFunctions (scope : EnvironmentId) : List FunctionNode → Eval σ Unit
  | [] => pure ()
  | f :: rest => do
    if let some name := f.name then
      let function ← createFunction f scope
      if ← ask fun m => m.store.hasBinding scope name then
        attempt (.assign scope name (.object function) false)
      else
        attempt (.createMutable scope name false)
        attempt (.initBinding scope name (.object function))
    declareFunctions scope rest

/-- The scope that the variables of a body belong to. With fallbacks among the parameters it is a
scope of its own, so that functions in them do not see the variables. -/
def openVariables (node : FunctionNode) (scope : EnvironmentId) : Eval σ EnvironmentId := do
  if node.hasParameterExpressions then
    let own ← perform (.enclose (.block scope))
    copyVariables scope own node.parameterNames node.scope.varNames
    pure own
  else
    declareVariables scope node.scope.varNames
    pure scope

def instantiate (node : FunctionNode) (scope : EnvironmentId) (arguments : List Value) :
    Eval σ EnvironmentId := do
  createMissing scope node.parameterNames
  bindParameters scope [] node.parameters arguments
  let own ← openVariables node scope
  createLexicals own node.scope.lexical
  declareFunctions own node.scope.functions
  pure own

/-! ## Calls and constructions -/

def runFunction (shortcuts : Bool) (node : FunctionNode) (scope : EnvironmentId)
    (arguments : List Value) : Eval σ Value := do
  let own ← instantiate node scope arguments
  let completion ← withinBody own (node.run shortcuts)
  ofExcept completion.result

def callClosure (shortcuts : Bool) (function : ObjectId) (closure : Closure) (this : Value)
    (arguments : List Value) : Eval σ Value :=
  enter function closure .undefined fun scope => do
    bindThis closure scope this
    runFunction shortcuts closure.node scope arguments

def instancePrototype (constructor fallback : ObjectId) : Eval σ ObjectId :=
  ask fun m => match m.heap.getProperty? constructor "prototype" with
    | some (.object prototype) => prototype
    | _ => fallback

/-- Constructs with a base constructor: a new object is bound before the body runs, and is the
result unless the body returns another one. -/
def constructBase (shortcuts : Bool) (function : ObjectId) (closure : Closure)
    (arguments : List Value) (newTarget : ObjectId) : Eval σ Value := do
  let fallback ← ask (·.realm.objectPrototype)
  let prototype ← instancePrototype newTarget fallback
  let this ← perform (.allocate { prototype := some prototype })
  enter function closure (.object newTarget) fun scope => do
    bindThis closure scope (.object this)
    match ← runFunction shortcuts closure.node scope arguments with
    | .object returned => pure (.object returned)
    | _ => pure (.object this)

def constructParent (function : ObjectId) (scope : EnvironmentId) (arguments : List Value)
    (newTarget : ObjectId) : Eval σ Value := do
  let parent ← ask fun m => match (m.heap.get function).prototype with
    | some parent => Value.object parent
    | none => .undefined
  if !(← ask fun m => m.heap.isConstructor parent) then typeError .superNotConstructor
  let this ← construct parent arguments (some (.object newTarget))
  attempt (.bindThis scope this)
  pure .undefined

def constructDerived (shortcuts : Bool) (function : ObjectId) (closure : Closure)
    (arguments : List Value) (newTarget : ObjectId) : Eval σ Value :=
  enter function closure (.object newTarget) fun scope => do
    let result ←
      if closure.isDefault then constructParent function scope arguments newTarget
      else runFunction shortcuts closure.node scope arguments
    match result with
    | .object returned => pure (.object returned)
    | .undefined => do
      match ← askFor fun m => (m.store.environment scope).getThis with
      | .object this => pure (.object this)
      | _ => throw (.internal .primitiveThis)
    | _ => typeError .derivedReturn

def constructClosure (shortcuts : Bool) (function : ObjectId) (closure : Closure)
    (arguments : List Value) (newTarget : ObjectId) : Eval σ Value :=
  match closure.constructorKind with
  | .base => constructBase shortcuts function closure arguments newTarget
  | .derived => constructDerived shortcuts function closure arguments newTarget

end Eval

end ScriptEngine
