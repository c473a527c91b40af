import ScriptEngine.Action

/-!
Error objects: what a fault looks like to the script that catches it.
-/

namespace ScriptEngine

variable {σ : Type}

/-- The text of the `stack` property: the error, then one line for each named call except the `skip`
innermost ones. -/
def Machine.stackText (m : Machine σ) (error : ObjectId) (skip : Nat) : String :=
  let name := match m.heap.getProperty? error "name" with
    | some v => m.heap.toText v
    | none => "Error"
  let message := match m.heap.getProperty? error "message" with
    | some v => m.heap.toText v
    | none => ""
  let header := if message = "" then name else name ++ ": " ++ message
  let calls := (m.stack.names.drop skip).filter (·.isSome)
  header ++ String.join (calls.map fun call => "\n" ++ Frame.trace call)

namespace Eval

def newError (prototype : ObjectId) (message : Option String) (skip : Nat) : Eval σ ObjectId := do
  let properties := match message with
    | some text => Table.empty.insert "message" (.hidden (.string text))
    | none => .empty
  let error ← perform (.allocate { prototype := some prototype, properties })
  let stack ← ask fun m => m.stackText error skip
  perform (.define error "stack" (.hidden (.string stack)))
  pure error

def createError (kind : ErrorClass) (message : String) : Eval σ Value := do
  let prototype ← ask fun m => m.realm.errorPrototype kind
  let error ← newError prototype (some message) 0
  pure (.object error)

def faultValue (fault : Fault) : Eval σ Value :=
  match fault with
  | .thrown value _ => pure value
  | .typeError issue _ => createError .typeError issue.message
  | .referenceError issue => createError .referenceError issue.message
  | .rangeError message => createError .rangeError message
  | .syntaxError issue _ => createError .syntaxError issue.message
  | other => do
    let text ← ask fun m => other.text m.heap
    createError .error text

/-- Turns a fault that scripts can catch into a throw completion. Its location is that of the fault
if it has one. -/
def settle (location : Span) (result : Except Fault Completion) : Eval σ Completion :=
  match result with
  | .ok completion => pure completion
  | .error fault =>
    if fault.isSuspension || fault.isHostAbort then throw fault
    else do
      let value ← faultValue fault
      pure (.throwing value (fault.location.getD location))

end Eval

end ScriptEngine
