import ScriptEngine.Builtin

/-!
What calling and constructing a value mean, for every kind of callable.
-/

namespace ScriptEngine

variable {σ : Type}

open Eval

def Native.call (engine : Engine σ) (native : Native) (this : Value) (arguments : List Value) :
    Eval σ Value :=
  enterNative native <| match native.code with
    | .builtin builtin => builtin.call engine.shortcuts this arguments
    | .host index => match engine.host[index]? with
      | some function => function.run this arguments
      | none => throw (.internal .unknownHostFunction)

def callObject (engine : Engine σ) (o : ObjectId) (this : Value) (arguments : List Value) :
    Eval σ Value := do
  match ← ask fun m => (m.heap.get o).callable? with
  | none => typeError .plainObjectCalled
  | some (.script closure) =>
    if closure.isClass then typeError (.classCalled (closure.name.getD ""))
    else callClosure engine.shortcuts o closure this arguments
  | some (.generator closure) => startGenerator o closure this arguments
  | some (.native f) => f.call engine this arguments
  | some (.bound f) => Eval.call (.object f.target) f.thisArgument (f.arguments ++ arguments)

def constructObject (engine : Engine σ) (o : ObjectId) (arguments : List Value)
    (newTarget : ObjectId) : Eval σ Value := do
  let refuse : Eval σ Value := do
    let text ← ask fun m => m.heap.toText (.object o)
    typeError (.notConstructor text)
  match ← ask fun m => (m.heap.get o).callable? with
  | some (.script closure) =>
    if closure.constructable then
      constructClosure engine.shortcuts o closure arguments newTarget
    else refuse
  | some (.native f) => match f.code with
    | .builtin builtin => match builtin.construct? arguments newTarget with
      | some x => enterNative f x
      | none => refuse
    | .host _ => refuse
  | some (.bound f) =>
    let target := if newTarget = o then f.target else newTarget
    Eval.construct (.object f.target) (f.arguments ++ arguments) (some (.object target))
  | _ => refuse

def Invocation.eval (engine : Engine σ) : Invocation → Eval σ Value
  | .call callee this arguments => match callee with
    | .object o => callObject engine o this arguments
    | _ => do
      let text ← ask fun m => m.heap.toText callee
      typeError (.notFunction text)
  | .construct callee arguments newTarget => match callee with
    | .object o => constructObject engine o arguments ((newTarget.bind Value.asObject?).getD o)
    | _ => do
      let text ← ask fun m => m.heap.toText callee
      typeError (.notConstructor text)

end ScriptEngine
