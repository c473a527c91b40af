import ScriptEngine.Proofs.Limits.Statements

/-!
# Calls are measured

Each call of a closure, each native function and each drive of a generator opens its frame after a
check that the stack is not full. A bound function hands the call on without a frame, to a function
that was there before it.
-/

namespace ScriptEngine

open Eval

variable {σ α : Type} {full : Bool} {size known : Nat} {engine : Engine σ}

namespace Eval

variable (shortcuts : Bool) (function : ObjectId) (closure : Closure) (arguments : List Value)
  (newTarget : ObjectId)

theorem measured_enter {function : ObjectId} {closure : Closure} {newTarget : Value}
    {body : EnvironmentId → Eval σ α}
    (h : ∀ scope, ∃ large, ∀ inner, Measured inner large known (body scope)) :
    Measured full size known (enter function closure newTarget body) := by
  refine measured_checkDepth fun room =>
    measured_bind (measured_perform (fun _ _ => trivial) fun _ => rfl) fun scope =>
    measured_bind (measured_ask _) fun named => measured_inFrame room fun inner => ?_
  obtain ⟨large, measured⟩ := h scope
  exact ⟨large, measured inner⟩

theorem measured_enterNative {native : Native} {body : Eval σ α}
    (h : ∃ large, ∀ inner, Measured inner large known body) :
    Measured full size known (enterNative native body) := by
  obtain ⟨large, measured⟩ := h
  exact measured_checkDepth fun room => measured_bind (measured_ask _) fun frame =>
    measured_inFrame room fun inner => ⟨large, measured inner⟩

theorem measured_allocate {object : Object} (h : ∀ f, object.kind ≠ .function (.bound f)) :
    Measured full size known (perform (.allocate object) : Eval σ ObjectId) :=
  measured_perform (fun _ _ f bound => absurd bound (h f)) fun _ => rfl

theorem measured_runFunction (node : FunctionNode) :
    ∃ large, 0 < large ∧ ∀ inner known scope arguments,
      Measured inner large known (runFunction shortcuts node scope arguments : Eval σ Value) := by
  obtain ⟨large, pos, body⟩ := FunctionNode.measured (σ := σ) shortcuts node
  refine ⟨large, pos, fun inner known scope arguments => ?_⟩
  exact (simple_instantiate node scope arguments).plain.measured_bind pos fun own =>
    measured_bind (measured_withinBody own (body inner known)) fun _ => measured_ofExcept _

theorem measured_callClosure (this : Value) (arguments : List Value) :
    Measured full size known
      (callClosure shortcuts function closure this arguments : Eval σ Value) := by
  obtain ⟨large, pos, body⟩ := measured_runFunction (σ := σ) shortcuts closure.node
  exact measured_enter fun scope => ⟨large, fun inner =>
    (simple_bindThis closure scope this).plain.measured_bind pos fun _ => body inner _ scope arguments⟩

theorem measured_constructBase :
    Measured full size known
      (constructBase shortcuts function closure arguments newTarget : Eval σ Value) := by
  obtain ⟨large, pos, body⟩ := measured_runFunction (σ := σ) shortcuts closure.node
  refine measured_bind (measured_ask _) fun fallback =>
    measured_bind (measured_ask _) fun prototype =>
    measured_bind (measured_allocate nofun) fun this =>
    measured_enter fun scope => ⟨large, fun inner =>
      (simple_bindThis closure scope (.object this)).plain.measured_bind pos fun _ =>
      measured_bind (body inner _ scope arguments) fun result => ?_⟩
  cases result <;> exact measured_pure _

theorem measured_constructDerived :
    Measured full size known
      (constructDerived shortcuts function closure arguments newTarget : Eval σ Value) := by
  obtain ⟨large, pos, body⟩ := measured_runFunction (σ := σ) shortcuts closure.node
  refine measured_enter fun scope => ⟨large, fun inner => ?_⟩
  have parent : Measured inner large known
      (constructParent function scope arguments newTarget : Eval σ Value) :=
    (simple_constructParent function scope arguments newTarget).plain.measured pos
  have own := body inner known scope arguments
  grind

theorem measured_constructClosure :
    Measured full size known
      (constructClosure shortcuts function closure arguments newTarget : Eval σ Value) := by
  unfold constructClosure
  split
  · exact measured_constructBase ..
  · exact measured_constructDerived ..

theorem measured_startGenerator (this : Value) (arguments : List Value) :
    Measured full size known (startGenerator function closure this arguments : Eval σ Value) := by
  refine measured_enter fun scope => ⟨1, fun inner =>
    (simple_bindThis closure scope this).plain.measured_bind Nat.one_pos fun _ =>
    (simple_instantiate closure.node scope arguments).plain.measured_bind Nat.one_pos fun own =>
    measured_bind (measured_ask _) fun fallback =>
    measured_bind (measured_ask _) fun prototype =>
    measured_bind (measured_ask _) fun named =>
    measured_bind (measured_perform (fun _ _ => trivial) fun _ => rfl) fun g =>
    measured_bind (measured_allocate nofun) fun o => measured_pure _⟩

theorem measured_iterationResult (value : Value) (done : Bool) :
    Measured full size known (iterationResult value done : Eval σ Value) :=
  measured_bind (measured_ask _) fun _ => measured_bind (measured_allocate nofun) fun _ =>
    measured_pure _

theorem measured_finishRun (g : GeneratorId) (frame : Frame) (r : Except Fault Completion) :
    Measured full size known (finishRun g frame r : Eval σ Value) := by
  unfold finishRun
  split
  · exact measured_bind (measured_perform (fun _ _ => trivial) fun _ => rfl) fun _ =>
      measured_iterationResult ..
  · exact measured_bind (measured_perform (fun _ _ => trivial) fun _ => rfl) fun _ =>
      measured_bind (measured_ofExcept _) fun completion =>
      measured_bind (measured_ofExcept _) fun v => measured_iterationResult v true

theorem measured_runGenerator (g : GeneratorId) (resumption : Option Resumption) :
    Measured full size known (runGenerator shortcuts g resumption : Eval σ Value) := by
  refine measured_startRun fun room ⟨frame, closure⟩ => ?_
  obtain ⟨large, -, body⟩ := FunctionNode.measured (σ := σ) shortcuts closure.node
  refine measured_handle (measured_inFrame room fun inner => ⟨large, body inner _⟩)
    (fun r _ => measured_finishRun g frame r) fun fault aborted host => ?_
  cases fault with
  | suspended v => cases host
  | _ => exact fun _ _ _ => ⟨trivial, fun _ => host⟩

theorem measured_driveDone (resumption : Resumption) :
    Measured full size known (driveDone resumption : Eval σ Value) := by
  unfold driveDone
  split
  · exact measured_iterationResult ..
  · exact measured_iterationResult ..
  · exact measured_throw _

theorem measured_drive (receiver : Value) (resumption : Resumption) (brand : Option String) :
    Measured full size known (drive shortcuts receiver resumption brand : Eval σ Value) := by
  refine measured_bind (measured_askFor _) fun ⟨g, generator⟩ => ?_
  dsimp only
  split
  · exact measured_driveDone _
  · exact measured_runGenerator ..
  · exact measured_bind (measured_perform (fun _ _ => trivial) fun _ => rfl) fun _ =>
      measured_driveDone _
  · exact measured_runGenerator ..

theorem measured_bindFunction (target thisArgument : Value) (arguments : List Value) :
    Measured full size known (bindFunction target thisArgument arguments : Eval σ Value) := by
  unfold bindFunction
  split
  · rename_i o
    refine measured_ask_bind fun m _ => ?_
    cases callable : m.heap.isCallable (.object o) with
    | false => exact measured_typeError _
    | true =>
      have allocated : o.index < m.heap.objects.size := by
        refine Nat.lt_of_not_le fun beyond => ?_
        simp only [Heap.isCallable, Heap.callable?, Heap.get_of_size_le beyond] at callable
        cases callable
      refine measured_bind (measured_perform (fun m' le f bound => ?_) fun _ => rfl) fun _ =>
        measured_pure _
      cases bound
      exact Nat.lt_of_lt_of_le allocated le
  · exact measured_typeError _

end Eval

theorem Builtin.measured_call (shortcuts : Bool) (builtin : Builtin) (this : Value)
    (arguments : List Value) (pos : 0 < size) :
    Measured full size known (builtin.call shortcuts this arguments : Eval σ Value) := by
  cases builtin with
  | functionBind => exact measured_bindFunction ..
  | generatorNext | generatorReturn | generatorThrow => exact measured_drive ..
  | _ => exact Plain.measured (Simple.plain (simple_builtinCall _ _ _ nofun nofun nofun nofun)) pos

theorem Builtin.measured_construct {builtin : Builtin} {arguments : List Value}
    {newTarget : ObjectId} {x : Eval σ Value} (h : builtin.construct? arguments newTarget = some x)
    (pos : 0 < size) : Measured full size known x :=
  (simple_builtinConstruct h).plain.measured pos

variable (builtins : engine.host = [])

include builtins

theorem Native.measured_call (native : Native) (this : Value) (arguments : List Value) :
    Measured full size known (native.call engine this arguments) := by
  refine measured_enterNative ⟨1, fun inner => ?_⟩
  cases native.code with
  | builtin builtin => exact builtin.measured_call _ this arguments Nat.one_pos
  | host index =>
    simp only [builtins]
    exact measured_throw _

def Invocation.callee : Invocation → Value
  | .call callee _ _ | .construct callee _ _ => callee

/-- What an invocation does once its callee is looked up: a bound function hands it on, and all else
is measured, without requests outside of frames. -/
inductive Invocation.Enters (invocation : Invocation) (m : Machine σ) :
    Action σ (Except Fault Value) → Prop where
  | handsOn {o : ObjectId} {f : Bound} {next : Invocation}
      (callee : invocation.callee = .object o) (bound : (m.heap.get o).callable? = some (.bound f))
      (target : next.callee = .object f.target) : invocation.Enters m (.invoke next .pure)
  | frames {x : Eval σ Value} (h : ∀ full size known, Measured full size known x) :
      invocation.Enters m x.run

theorem Invocation.enters (invocation : Invocation) :
    ∃ (β : Type) (view : Machine σ → β) (next : β → Action σ (Except Fault Value)),
      (invocation.eval engine).run = .read view next ∧
        ∀ m, invocation.Enters m (next (view m)) := by
  cases invocation with
  | call callee this arguments =>
    cases callee with
    | object o =>
      refine ⟨_, fun m => (m.heap.get o).callable?, _, rfl, fun m => ?_⟩
      dsimp only
      cases callable : (m.heap.get o).callable? with
      | none => exact .frames fun _ _ _ => measured_typeError _
      | some f =>
        cases f with
        | script closure =>
          simp only [Action.bind, ExceptT.bindCont]
          split
          · exact .frames fun _ _ _ => measured_typeError _
          · exact .frames fun _ _ _ => measured_callClosure ..
        | generator closure => exact .frames fun _ _ _ => measured_startGenerator ..
        | native f => exact .frames fun _ _ _ => f.measured_call builtins this arguments
        | bound f => exact .handsOn rfl callable rfl
    | _ => exact ⟨_, _, _, rfl, fun m => .frames fun _ _ _ => measured_typeError _⟩
  | construct callee arguments newTarget =>
    have refused {o : ObjectId} : ∀ full size known, Measured full size known (do
        let text ← ask fun m => m.heap.toText (.object o)
        typeError (.notConstructor text) : Eval σ Value) :=
      fun _ _ _ => measured_bind (measured_ask _) fun _ => measured_typeError _
    cases callee with
    | object o =>
      refine ⟨_, fun m => (m.heap.get o).callable?, _, rfl, fun m => ?_⟩
      dsimp only
      cases callable : (m.heap.get o).callable? with
      | none => exact .frames refused
      | some f =>
        cases f with
        | script closure =>
          simp only [Action.bind, ExceptT.bindCont]
          split
          · exact .frames fun _ _ _ => measured_constructClosure ..
          · exact .frames refused
        | generator closure => exact .frames refused
        | native f =>
          simp only [Action.bind, ExceptT.bindCont]
          cases f.code with
          | host index => exact .frames refused
          | builtin builtin =>
            dsimp only
            split
            · rename_i x found
              exact .frames fun _ _ _ => measured_enterNative ⟨1, fun _ =>
                builtin.measured_construct found Nat.one_pos⟩
            · exact .frames refused
        | bound f => exact .handsOn rfl callable rfl
    | _ => exact ⟨_, _, _, rfl, fun m => .frames fun _ _ _ => measured_typeError _⟩

theorem Invocation.measured (invocation : Invocation) (pos : 0 < size) :
    Measured full size known (invocation.eval engine) := by
  obtain ⟨β, view, next, run, enters⟩ := invocation.enters builtins
  unfold Measured
  rw [run]
  intro m _ _
  have enters := enters m
  generalize next (view m) = x at enters
  cases enters with
  | handsOn => exact ⟨rfl, pos, fun _ => id⟩
  | frames h => exact h ..

end ScriptEngine
