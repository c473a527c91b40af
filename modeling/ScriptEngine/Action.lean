import ScriptEngine.Machine

/-!
Actions: what an evaluation does to a machine, as a tree of effects. What cannot be unfolded from
the program text alone, calls and the rounds of loops, stands in the tree as a request.
-/

namespace ScriptEngine

/-- A primitive change of the machine that answers with an `α`. -/
inductive Effect (σ : Type) : Type → Type where
  | allocate (object : Object) : Effect σ ObjectId
  | define (object : ObjectId) (key : String) (property : Property) : Effect σ Unit
  | write (object : ObjectId) (key : String) (value : Value) : Effect σ Bool
  | remove (object : ObjectId) (key : String) : Effect σ Bool
  | preventExtensions (object : ObjectId) : Effect σ Unit
  | enclose (environment : Environment) : Effect σ EnvironmentId
  | createMutable (environment : EnvironmentId) (name : String) (deletable : Bool) :
      Effect σ (Except Fault Unit)
  | createImmutable (environment : EnvironmentId) (name : String) (strict : Bool) :
      Effect σ (Except Fault Unit)
  | initBinding (environment : EnvironmentId) (name : String) (value : Value) :
      Effect σ (Except Fault Unit)
  | assign (environment : EnvironmentId) (name : String) (value : Value) (strict : Bool) :
      Effect σ (Except Fault Unit)
  | deleteBinding (environment : EnvironmentId) (name : String) : Effect σ Bool
  | bindThis (environment : EnvironmentId) (value : Value) : Effect σ (Except Fault Unit)
  | declareVar (environment : EnvironmentId) (name : String) (deletable : Bool) :
      Effect σ (Except Fault Unit)
  | declareFunction (environment : EnvironmentId) (name : String) (value : Value)
      (deletable : Bool) : Effect σ (Except Fault Unit)
  | createGenerator (function : ObjectId) (closure : Closure) (frame : Frame) :
      Effect σ GeneratorId
  | startRun (generator : GeneratorId) (resumption : Option Resumption) :
      Effect σ (Except Fault (Frame × Closure))
  | suspend (generator : GeneratorId) (frame : Frame) : Effect σ Unit
  | complete (generator : GeneratorId) : Effect σ Unit
  | takeResumePoint : Effect σ (Option ResumePoint)
  | pushResumePoint (point : ResumePoint) : Effect σ Unit
  | takeResumption : Effect σ (Option Resumption)
  | checkLimits : Effect σ (Except Fault Unit)
  | resetLimits : Effect σ Unit
  | cancel : Effect σ Unit
  | changeHost (change : σ → σ) : Effect σ Unit

namespace Effect

variable {σ : Type}

def apply {α : Type} : Effect σ α → Machine σ → α × Machine σ
  | .allocate object, m => m.onHeap (·.allocate object)
  | .define o key property, m => m.onHeap fun h => ((), h.define o key property)
  | .write o key value, m => m.onHeap (·.write o key value)
  | .remove o key, m => m.onHeap (·.remove o key)
  | .preventExtensions o, m =>
    m.onHeap fun h => ((), h.modify o fun object => { object with extensible := false })
  | .enclose environment, m => m.onStore (·.enclose environment)
  | .createMutable e name deletable, m =>
    m.onStore fun s => s.commit (s.createMutable e name deletable)
  | .createImmutable e name strict, m =>
    m.onStore fun s => s.commit (s.createImmutable e name strict)
  | .initBinding e name value, m => m.onStore fun s => s.commit (s.initBinding e name value)
  | .assign e name value strict, m => m.onStore fun s => s.commit (s.assign e name value strict)
  | .deleteBinding e name, m => m.onStore fun s =>
    match s.deleteBinding e name with
    | some change => (true, s.apply change)
    | none => (false, s)
  | .bindThis e value, m => m.onStore fun s => s.commit (s.bindThis e value)
  | .declareVar e name deletable, m => m.onStore fun s => s.commit (s.declareVar e name deletable)
  | .declareFunction e name value deletable, m =>
    m.onStore fun s => s.commit (s.declareFunction e name value deletable)
  | .createGenerator function closure frame, m =>
    let g : GeneratorId := ⟨m.generators.size⟩
    let parked := { frame with generator := some g }
    (g, { m with generators := m.generators.push { frame := some parked, function, closure } })
  | .startRun g resumption, m =>
    match m.generator? g with
    | none => (.error (.internal .noParkedFrame), m)
    | some generator => match generator.frame with
      | none => (.error (.internal .noParkedFrame), m)
      | some frame =>
        if m.isFull then (.error (.stackOverflow m.stack.depth), m)
        else (.ok (frame, generator.closure), m.modifyGenerator g (·.run resumption))
  | .suspend g frame, m => ((), m.modifyGenerator g (·.suspend frame))
  | .complete g, m => ((), m.modifyGenerator g (·.complete))
  | .takeResumePoint, m =>
    match m.runningGenerator? with
    | none => (none, m)
    | some g =>
      (((m.generator? g).bind fun generator => generator.resumePoints.head?),
        m.modifyGenerator g fun generator =>
          { generator with resumePoints := generator.resumePoints.tail })
  | .pushResumePoint point, m =>
    match m.runningGenerator? with
    | none => ((), m)
    | some g => ((), m.modifyGenerator g fun generator =>
      { generator with resumePoints := point :: generator.resumePoints })
  | .takeResumption, m =>
    match m.runningGenerator? with
    | none => (none, m)
    | some g =>
      ((m.generator? g).bind (·.resumption),
        m.modifyGenerator g fun generator => { generator with resumption := none })
  | .checkLimits, m =>
    let (result, limits) := Limit.checkAll m.cancelled m.limits
    (result, { m with limits })
  | .resetLimits, m => ((), { m with limits := m.limits.map Limit.reset })
  | .cancel, m => ((), { m with cancelled := true })
  | .changeHost change, m => ((), { m with host := change m.host })

end Effect

/-! ## Requests -/

inductive Invocation where
  | call (callee this : Value) (arguments : List Value)
  | construct (callee : Value) (arguments : List Value) (newTarget : Option Value)

structure ForRound where
  test : Option Expr
  update : Option Expr
  body : Stmt
  copied : List String
  labels : List String
  outer : EnvironmentId
  environment : EnvironmentId
  value : Value
  resuming : Bool

inductive Loop where
  | whileLoop (test : Expr) (body : Stmt) (labels : List String) (value : Value) (resuming : Bool)
  | doWhile (body : Stmt) (test : Expr) (labels : List String) (value : Value)
  | forLoop (round : ForRound)

/-! ## Actions -/

/-- A tree of effects that ends with an `α`. -/
inductive Action (σ : Type) : Type → Type 1 where
  | pure {α : Type} (a : α) : Action σ α
  | read {α β : Type} (view : Machine σ → β) (next : β → Action σ α) : Action σ α
  | perform {α β : Type} (effect : Effect σ β) (next : β → Action σ α) : Action σ α
  | inScope {α β : Type} (lexical : EnvironmentId) (varScope : Option EnvironmentId)
      (body : Action σ β) (next : β → Action σ α) : Action σ α
  | inFrame {α β : Type} (frame : Frame) (body : Action σ β) (next : β → Action σ α) : Action σ α
  | invoke {α : Type} (invocation : Invocation) (next : Except Fault Value → Action σ α) :
      Action σ α
  | loop {α : Type} (loop : Loop) (next : Except Fault Completion → Action σ α) : Action σ α

namespace Action

variable {σ : Type}

def bind {α β : Type} : Action σ α → (α → Action σ β) → Action σ β
  | .pure a, f => f a
  | .read view next, f => .read view fun b => bind (next b) f
  | .perform effect next, f => .perform effect fun b => bind (next b) f
  | .inScope lexical varScope body next, f =>
    .inScope lexical varScope body fun b => bind (next b) f
  | .inFrame frame body next, f => .inFrame frame body fun b => bind (next b) f
  | .invoke invocation next, f => .invoke invocation fun b => bind (next b) f
  | .loop l next, f => .loop l fun b => bind (next b) f

instance : Monad (Action σ) where
  pure := .pure
  bind := .bind

end Action

abbrev Eval (σ : Type) := ExceptT Fault (Action σ)

namespace Eval

variable {σ α : Type}

def ask (view : Machine σ → α) : Eval σ α := ExceptT.mk (.read view fun a => .pure (.ok a))

def askFor (view : Machine σ → Except Fault α) : Eval σ α := ExceptT.mk (.read view .pure)

def perform (effect : Effect σ α) : Eval σ α :=
  ExceptT.mk (.perform effect fun a => .pure (.ok a))

def attempt (effect : Effect σ (Except Fault α)) : Eval σ α := ExceptT.mk (.perform effect .pure)

def outcome (x : Eval σ α) : Eval σ (Except Fault α) :=
  ExceptT.mk (Action.bind x.run fun r => .pure (.ok r))

def ofExcept : Except Fault α → Eval σ α := fun r => ExceptT.mk (.pure r)

def within (lexical : EnvironmentId) (x : Eval σ α) : Eval σ α :=
  ExceptT.mk (.inScope lexical none x.run .pure)

def withinBody (scope : EnvironmentId) (x : Eval σ α) : Eval σ α :=
  ExceptT.mk (.inScope scope (some scope) x.run .pure)

def inFrame (frame : Frame) (x : Eval σ α) : Eval σ α := ExceptT.mk (.inFrame frame x.run .pure)

def call (callee this : Value) (arguments : List Value) : Eval σ Value :=
  ExceptT.mk (.invoke (.call callee this arguments) .pure)

def construct (callee : Value) (arguments : List Value) (newTarget : Option Value) :
    Eval σ Value :=
  ExceptT.mk (.invoke (.construct callee arguments newTarget) .pure)

def loop (l : Loop) : Eval σ Completion := ExceptT.mk (.loop l .pure)

def typeError (issue : TypeIssue) : Eval σ α := throw (.typeError issue)

end Eval

/-! ## Engines -/

structure HostFunction (σ : Type) where
  name : String
  arity : Nat
  run : (this : Value) → (arguments : List Value) → Eval σ Value

structure Engine (σ : Type) where
  host : List (HostFunction σ) := []
  /-- Whether statements with a known completion are passed over without evaluating them. -/
  shortcuts : Bool := true

end ScriptEngine
