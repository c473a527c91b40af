import ScriptEngine.Proofs.Simple.Declaration

/-!
# How evaluations are put together

All of the evaluator is put together from looks, effects, requests and frames, and it looks at the
fault that an evaluation ends with in four places only (`Eval.Composed`).
-/

namespace ScriptEngine

variable {σ α β : Type}

def Effect.Free : Effect σ β → Prop
  | .checkLimits | .startRun .. => False
  | _ => True

theorem Effect.Plain.free {effect : Effect σ β} (h : effect.Plain) : effect.Free := by
  cases effect <;> trivial

namespace Eval

inductive Composed (engine : Engine σ) (leaf : (α : Type) → Eval σ α → Prop) :
    (yields : Bool) → {α : Type} → Eval σ α → Prop where
  | leaf {yields : Bool} {α : Type} {x : Eval σ α} (h : leaf α x) : Composed engine leaf yields x
  | simple {yields : Bool} {α : Type} {x : Eval σ α} (h : Simple x) :
      Composed engine leaf yields x
  | checkDepth {yields : Bool} : Composed engine leaf yields checkDepth
  | perform {yields : Bool} {α : Type} {effect : Effect σ α} (free : effect.Free) :
      Composed engine leaf yields (perform effect)
  | checkLimits {yields : Bool} : Composed engine leaf yields (attempt .checkLimits)
  | bind {yields : Bool} {α β : Type} {x : Eval σ α} {f : α → Eval σ β}
      (hx : Composed engine leaf yields x) (hf : ∀ a, Composed engine leaf yields (f a)) :
      Composed engine leaf yields (x >>= f)
  | look {yields : Bool} {α β : Type} {view : Machine σ → α} {f : α → Eval σ β}
      (blind : Blind view) (h : ∀ m, Composed engine leaf yields (f (view m))) :
      Composed engine leaf yields (ask view >>= f)
  | within {yields : Bool} {α : Type} (scope : EnvironmentId) {x : Eval σ α}
      (h : Composed engine leaf yields x) : Composed engine leaf yields (within scope x)
  | withinBody {yields : Bool} {α : Type} (scope : EnvironmentId) {x : Eval σ α}
      (h : Composed engine leaf yields x) : Composed engine leaf yields (withinBody scope x)
  | inFrame {yields : Bool} {α : Type} {frame : Frame} (unlinked : frame.generator = none)
      {x : Eval σ α} (h : Composed engine leaf true x) :
      Composed engine leaf yields (inFrame frame x)
  | loop (l : Loop) : Composed engine leaf true (loop l)
  | recorded {yields : Bool} {α : Type} (point : ResumePoint) {x : Eval σ α}
      (h : Composed engine leaf yields x) : Composed engine leaf yields (recording point x)
  | settled {yields : Bool} (location : Span) {x : Eval σ Completion}
      (h : Composed engine leaf yields x) :
      Composed engine leaf yields (outcome x >>= settle location)
  | suspendAt {operand : Eval σ Value} (h : Composed engine leaf true operand) (slot : Nat)
      (span : Span) : Composed engine leaf true (suspendAt operand slot span)
  | script {yields : Bool} {program : Program} {frame : Frame} {scope : EnvironmentId}
      (unlinked : frame.generator = none)
      (h : Composed engine leaf true (do
        declareGlobals scope program.scope
        evalStatements engine.shortcuts program.body)) :
      Composed engine leaf yields (inFrame frame (program.runBody engine.shortcuts scope))
  | driven {yields : Bool} (receiver : Value) (resumption : Resumption) (brand : Option String)
      (h : ∀ closure : Closure, Composed engine leaf true (closure.node.run engine.shortcuts)) :
      Composed engine leaf yields (drive engine.shortcuts receiver resumption brand)

variable {engine : Engine σ} {leaf : (α : Type) → Eval σ α → Prop} {yields : Bool}

theorem Simple.composed {x : Eval σ α} (h : Simple x) : Composed engine leaf yields x := .simple h

theorem Composed.ask {view : Machine σ → α} (blind : Blind view) :
    Composed engine leaf yields (ask view) := .simple (.ask blind)

attribute [grind ←] Simple.composed Composed.bind Composed.within Composed.withinBody
  Composed.recorded

end Eval

end ScriptEngine
