import ScriptEngine.Proofs.Composed.Statement
import ScriptEngine.Proofs.Operation

/-!
# How calls and operations are put together

A call opens a frame that belongs to no generator, and so does a script. So of all that can be asked
of an engine, statements alone may be suspended in the frame that they start in.
-/

namespace ScriptEngine

open Eval

variable {σ α : Type}

theorem Machine.drivable_eq_ok {m : Machine σ} {receiver : Value} {brand : Option String}
    {g : GeneratorId} {generator : Generator} :
    m.drivable receiver brand = .ok (g, generator) ↔
      (receiver.asObject?.bind fun o => (m.heap.get o).generator?) = some g ∧
        m.generator? g = some generator ∧ generator.brand = brand ∧
          generator.state ≠ .executing := by
  unfold Machine.drivable
  grind

theorem Machine.drivable_unsuspended (m : Machine σ) (receiver : Value) (brand : Option String) :
    Unsuspended (m.drivable receiver brand) := by
  intro v
  unfold Machine.drivable
  grind

namespace Eval

variable {engine : Engine σ} {leaf : (α : Type) → Eval σ α → Prop} {yields shortcuts : Bool}
  (function : ObjectId) (closure : Closure) (arguments : List Value) (newTarget : ObjectId)

theorem composed_enter (newTarget : Value) {body : EnvironmentId → Eval σ α}
    (h : ∀ scope, Composed engine leaf true (body scope)) :
    Composed engine leaf yields (enter function closure newTarget body) :=
  .bind .checkDepth fun _ => .bind (.perform trivial) fun scope =>
    .bind (.ask fun _ _ _ => rfl) fun _ => .inFrame rfl (h scope)

theorem composed_enterNative (native : Native) {body : Eval σ α}
    (h : Composed engine leaf true body) :
    Composed engine leaf yields (enterNative native body) :=
  .bind .checkDepth fun _ => .look (fun _ _ _ => rfl) fun _ => .inFrame rfl h

theorem simple_instancePrototype (constructor fallback : ObjectId) :
    Simple (instancePrototype constructor fallback : Eval σ ObjectId) :=
  .ask fun _ _ _ => rfl

theorem composed_runFunction (node : FunctionNode) (scope : EnvironmentId)
    (arguments : List Value) :
    Composed engine leaf true (runFunction shortcuts node scope arguments) :=
  .bind (simple_instantiate node scope arguments).composed fun own =>
    .bind (.withinBody own node.composed) fun completion =>
      .simple (.ofExcept (Completion.result_unsuspended completion))

theorem composed_callClosure (this : Value) (arguments : List Value) :
    Composed engine leaf yields (callClosure shortcuts function closure this arguments) :=
  composed_enter function closure .undefined fun scope =>
    .bind (simple_bindThis closure scope this).composed fun _ =>
      composed_runFunction closure.node scope arguments

theorem composed_constructBase :
    Composed engine leaf yields
      (constructBase shortcuts function closure arguments newTarget) := by
  refine .bind (.ask fun _ _ _ => rfl) fun _ =>
    .bind (simple_instancePrototype _ _).composed fun _ => .bind (.perform trivial) fun _ =>
    composed_enter function closure _ fun scope =>
      .bind (simple_bindThis closure scope _).composed fun _ =>
      .bind (composed_runFunction closure.node scope arguments) fun result => ?_
  cases result <;> exact (simple_pure _).composed

theorem composed_constructDerived :
    Composed engine leaf yields
      (constructDerived shortcuts function closure arguments newTarget) := by
  refine composed_enter function closure _ fun scope => ?_
  have parent : Composed engine leaf true
      (constructParent function scope arguments newTarget : Eval σ Value) :=
    (simple_constructParent function scope arguments newTarget).composed
  have own : Composed engine leaf true
      (runFunction shortcuts closure.node scope arguments : Eval σ Value) :=
    composed_runFunction closure.node scope arguments
  grind [simple_throw]

theorem composed_constructClosure :
    Composed engine leaf yields
      (constructClosure shortcuts function closure arguments newTarget) := by
  unfold constructClosure
  split
  · exact composed_constructBase ..
  · exact composed_constructDerived ..

theorem composed_startGenerator (this : Value) (arguments : List Value) :
    Composed engine leaf yields (startGenerator function closure this arguments) :=
  composed_enter function closure .undefined fun scope =>
    .bind (simple_bindThis closure scope this).composed fun _ =>
    .bind (simple_instantiate closure.node scope arguments).composed fun _ =>
    .bind (.ask fun _ _ _ => rfl) fun _ => .bind (simple_instancePrototype _ _).composed fun _ =>
    .bind (.ask fun _ _ _ => rfl) fun _ => .bind (.perform trivial) fun _ =>
    .bind (.perform trivial) fun _ => (simple_pure _).composed

theorem composed_drive (receiver : Value) (resumption : Resumption) (brand : Option String) :
    Composed engine leaf yields (drive engine.shortcuts receiver resumption brand) :=
  .driven receiver resumption brand fun closure => closure.node.composed

theorem composed_bindFunction (target thisArgument : Value) (arguments : List Value) :
    Composed engine leaf yields (bindFunction target thisArgument arguments) := by
  unfold bindFunction
  split
  · rename_i o
    refine .bind (.ask fun _ _ _ => rfl) fun h => ?_
    cases h.isCallable (.object o) with
    | false => exact (simple_typeError .bindReceiver).composed
    | true => exact .bind (.perform (by trivial)) fun _ => (simple_pure _).composed
  · exact (simple_typeError _).composed

end Eval

def Operation.yields : Operation α → Bool
  | .statement .. => true
  | _ => false

variable {engine : Engine σ} {leaf : (α : Type) → Eval σ α → Prop} {yields : Bool}

theorem Builtin.composed_call (builtin : Builtin) (this : Value) (arguments : List Value) :
    Composed engine leaf yields (builtin.call engine.shortcuts this arguments) := by
  cases builtin with
  | functionBind => exact composed_bindFunction ..
  | generatorNext | generatorReturn | generatorThrow => exact composed_drive ..
  | _ => exact Simple.composed (simple_builtinCall _ _ _ nofun nofun nofun nofun)

section

variable (host : ∀ f ∈ engine.host, ∀ this arguments,
  Composed engine leaf true (f.run this arguments))

include host

theorem Native.composed_call (native : Native) (this : Value) (arguments : List Value) :
    Composed engine leaf yields (native.call engine this arguments) := by
  refine composed_enterNative native ?_
  cases native.code with
  | builtin builtin => exact builtin.composed_call this arguments
  | host index =>
    dsimp only
    split
    · exact host _ (List.mem_of_getElem? ‹_›) this arguments
    · exact Simple.composed (simple_throw nofun)

theorem composed_callObject (o : ObjectId) (this : Value) (arguments : List Value) :
    Composed engine leaf yields (callObject engine o this arguments) := by
  refine .bind (.ask fun _ _ _ => rfl) fun callable => ?_
  split
  · exact (simple_typeError _).composed
  · split
    · exact (simple_typeError _).composed
    · exact composed_callClosure ..
  · exact composed_startGenerator ..
  · exact Native.composed_call host ..
  · exact .simple (.call ..)

omit host in
theorem composed_constructObject (o : ObjectId) (arguments : List Value) (newTarget : ObjectId) :
    Composed engine leaf yields (constructObject engine o arguments newTarget) := by
  have refused : Composed engine leaf yields (do
      let text ← ask fun m => m.heap.toText (.object o)
      typeError (.notConstructor text) : Eval σ Value) :=
    .bind (.ask fun _ _ _ => rfl) fun _ => (simple_typeError _).composed
  refine .bind (.ask fun _ _ _ => rfl) fun callable => ?_
  dsimp only
  split
  · split
    · exact composed_constructClosure ..
    · exact refused
  · split
    · split
      · exact composed_enterNative _ (simple_builtinConstruct ‹_›).composed
      · exact refused
    · exact refused
  · exact .simple (.construct ..)
  · exact refused

theorem Invocation.composed (invocation : Invocation) :
    Composed engine leaf yields (invocation.eval engine) := by
  cases invocation with
  | call callee this arguments =>
    cases callee with
    | object o => exact composed_callObject host o this arguments
    | _ => exact .bind (.ask fun _ _ _ => rfl) fun _ => (simple_typeError _).composed
  | construct callee arguments newTarget =>
    cases callee with
    | object o => exact composed_constructObject o arguments _
    | _ => exact .bind (.ask fun _ _ _ => rfl) fun _ => (simple_typeError _).composed

end

theorem Program.composed_run (program : Program) :
    Composed engine leaf yields (program.run engine.shortcuts) :=
  .bind (.perform trivial) fun _ => .bind (.ask fun _ _ _ => rfl) fun scope =>
    .bind (.ask fun _ _ _ => rfl) fun _ => .script rfl
      (.bind (simple_declareGlobals scope program.scope).composed fun _ =>
        composed_evalStatements program.body)

theorem Operation.composed (operation : Operation α) :
    Composed engine leaf operation.yields (operation.evaluate engine) := by
  cases operation with
  | statement s labels => exact s.composed labels
  | expression e hint => exact (Expr.simple e hint).composed
  | call callee this arguments => exact .simple (.call ..)
  | construct callee arguments newTarget => exact .simple (.construct ..)
  | drive receiver resumption brand => exact composed_drive ..
  | run program => exact program.composed_run
  | eval program =>
    refine .bind program.composed_run fun completion => ?_
    grind [simple_throw]

end ScriptEngine
