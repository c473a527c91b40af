import ScriptEngine.Call

/-!
Driving generators. Each drive takes the parked frame, runs the body to its next `yield` or to its
end, and answers with an object that tells the value and whether the body is done.
-/

namespace ScriptEngine

variable {σ : Type}

def Machine.drivable (m : Machine σ) (receiver : Value) (brand : Option String) :
    Except Fault (GeneratorId × Generator) :=
  match receiver.asObject?.bind fun o => (m.heap.get o).generator? with
  | none => .error (.typeError .notGenerator)
  | some g => match m.generator? g with
    | none => .error (.typeError .notGenerator)
    | some generator =>
      if generator.brand ≠ brand then .error (.typeError .brandMismatch)
      else if generator.state = .executing then .error (.typeError .alreadyRunning)
      else .ok (g, generator)

namespace Eval

def iterationResult (value : Value) (done : Bool) : Eval σ Value := do
  let prototype ← ask (·.realm.objectPrototype)
  let properties := Table.empty
    |>.insert "value" (.data value)
    |>.insert "done" (.data (.boolean done))
  let o ← perform (.allocate { prototype := some prototype, properties })
  pure (.object o)

def startGenerator (function : ObjectId) (closure : Closure) (this : Value)
    (arguments : List Value) : Eval σ Value :=
  enter function closure .undefined fun scope => do
    bindThis closure scope this
    let own ← instantiate closure.node scope arguments
    let fallback ← ask (·.realm.generatorPrototype)
    let prototype ← instancePrototype function fallback
    let named ← ask (·.options.debugNames)
    let g ← perform (.createGenerator function closure (closure.frame own named))
    let o ← perform (.allocate { prototype := some prototype, kind := .generator g })
    pure (.object o)

def finishRun (g : GeneratorId) (frame : Frame) : Except Fault Completion → Eval σ Value
  | .error (.suspended v) => do
    perform (.suspend g frame)
    iterationResult v false
  | result => do
    perform (.complete g)
    let completion ← ofExcept result
    let v ← ofExcept completion.result
    iterationResult v true

def runGenerator (shortcuts : Bool) (g : GeneratorId) (resumption : Option Resumption) :
    Eval σ Value := do
  let (frame, closure) ← attempt (.startRun g resumption)
  let result ← outcome (inFrame frame (closure.node.run shortcuts))
  finishRun g frame result

def driveDone : Resumption → Eval σ Value
  | .next _ => iterationResult .undefined true
  | .return v => iterationResult v true
  | .throw v => throw (.thrown v none)

/-- Drives a generator. Before the first `yield` there is nothing that takes a value: `next` starts
the body, and the other drives end the generator. -/
def drive (shortcuts : Bool) (receiver : Value) (resumption : Resumption)
    (brand : Option String := none) : Eval σ Value := do
  let (g, generator) ← askFor fun m => m.drivable receiver brand
  match generator.state, resumption with
  | .completed, _ => driveDone resumption
  | .suspendedStart, .next _ => runGenerator shortcuts g none
  | .suspendedStart, _ => do
    perform (.complete g)
    driveDone resumption
  | _, _ => runGenerator shortcuts g (some resumption)

end Eval

end ScriptEngine
