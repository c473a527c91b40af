import ScriptEngine.Proofs.Exceptions
import ScriptEngine.Proofs.Parts

/-!
# Uncaught throws

A throw is a completion in statements and a fault in expressions. `Engine.Throws` says which
evaluations the throw of a value leaves, from the statement outwards, where no catch clause takes it
and the finalizers on its way end normally.
-/

namespace ScriptEngine

open Eval

variable {σ α β : Type}

def thrownAs (v : Value) (s : Span) : Option α → Except Fault α
  | none => .error (.thrown v s)
  | some a => .ok a

inductive Completion.Continues (c : Completion) :
    {β : Type} → (Completion → Eval σ β) → Option β → Prop where
  | list (last : Option Value) (rest : Option Value → Eval σ Completion) :
      c.Continues (fun c => andThen last c rest) (some c)
  | label (label : String) : c.Continues (fun c => pure (c.exitLabel label)) (some c)
  | clause (value : Value) (rest : Completion → Eval σ Completion) :
      c.Continues (fun c => if c.isAbrupt then
        pure (c.updateEmpty (some (c.value.getD value))).exitBreakable else rest c) (some c)
  | round (labels : List String) (value : Value) (next : Value → Eval σ Loop.Step) :
      c.Continues (fun c => Loop.afterBody c labels value next) (some (.done c))
  | replace (pending : Completion) :
      c.Continues (fun c => pure (if c.kind = .normal then pending else c)) (some c)
  | body : c.Continues (fun c => Eval.ofExcept c.result) none

theorem Completion.Continues.eq {v : Value} {s : Span} {f : Completion → Eval σ β} {left : Option β}
    (h : (throwing v s).Continues f left) : f (throwing v s) = Eval.ofExcept (thrownAs v s left) := by
  cases h <;> rfl

/-- The throw of `v` at `s` leaves an evaluation: as a fault, or in the value that it ends with. -/
inductive Engine.Throws (engine : Engine σ) (v : Value) (s : Span) :
    {α : Type} → Eval σ α → Machine σ → (left : Option α) → Machine σ → Prop where
  | raised {e : Expr} {labels : List String} {m m' : Machine σ} {trace : List (Moment σ)}
      (operand : engine.Passes (e.eval none).run m trace (.ok v) m') :
      engine.Throws v s ((Stmt.throw e s).eval engine.shortcuts labels) m (some (.throwing v s)) m'
  | fault {α β : Type} {x : Eval σ α} {f : α → Eval σ β} {m m' : Machine σ}
      (h : engine.Throws v s x m none m') : engine.Throws v s (x >>= f) m none m'
  | next {α β : Type} {x : Eval σ α} {f : α → Eval σ β} {a : α} {left : Option β}
      {m m₁ m' : Machine σ} {trace : List (Moment σ)}
      (run : engine.Passes x.run m trace (.ok a) m₁) (h : engine.Throws v s (f a) m₁ left m') :
      engine.Throws v s (x >>= f) m left m'
  | scope {α : Type} {x : Eval σ α} {left : Option α} {m m' : Machine σ} {lexical : EnvironmentId}
      {varScope : Option EnvironmentId}
      (h : engine.Throws v s x (m.setScope lexical (varScope.getD m.varScope)) left m') :
      engine.Throws v s (ExceptT.mk (.inScope lexical varScope x.run .pure)) m left
        (m'.setScope m.lexical m.varScope)
  | frame {α : Type} {x : Eval σ α} {left : Option α} {m m' : Machine σ} {frame : Frame}
      (h : engine.Throws v s x (m.push frame) left m') :
      engine.Throws v s (inFrame frame x) m left m'.pop
  | invoked {invocation : Invocation} {left : Option Value} {m m' : Machine σ}
      (h : engine.Throws v s (invocation.eval engine) m left m') :
      engine.Throws v s (ExceptT.mk (.invoke invocation .pure)) m left m'
  | head {l : Loop} {m m' : Machine σ} (h : engine.Throws v s (l.round engine.shortcuts) m none m') :
      engine.Throws v s (loop l) m none m'
  | iteration {l : Loop} {c : Completion} {m m' : Machine σ}
      (h : engine.Throws v s (l.round engine.shortcuts) m (some (.done c)) m') :
      engine.Throws v s (loop l) m (some c) m'
  | again {l l' : Loop} {left : Option Completion} {m m₁ m' : Machine σ}
      {trace : List (Moment σ)}
      (run : engine.Passes (l.round engine.shortcuts).run m trace (.ok (.again l')) m₁)
      (h : engine.Throws v s (loop l') m₁ left m') : engine.Throws v s (loop l) m left m'
  | recorded {α : Type} {x : Eval σ α} {left : Option α} {point : ResumePoint} {m m' : Machine σ}
      (h : engine.Throws v s x m left m') : engine.Throws v s (recording point x) m left m'
  | settled {x : Eval σ Completion} {location : Span} {m m' : Machine σ}
      (h : engine.Throws v s x m none m') :
      engine.Throws v s (outcome x >>= settle location) m (some (.throwing v s)) m'
  | stated {x : Eval σ Completion} {c : Completion} {location : Span} {m m' : Machine σ}
      (h : engine.Throws v s x m (some c) m') :
      engine.Throws v s (outcome x >>= settle location) m (some c) m'
  | continued {β : Type} {x : Eval σ Completion} {f : Completion → Eval σ β} {left : Option β}
      {m m' : Machine σ} (h : engine.Throws v s x m (some (.throwing v s)) m')
      (continues : (Completion.throwing v s).Continues f left) :
      engine.Throws v s (x >>= f) m left m'
  | guarded {body : Eval σ Completion} {m m' : Machine σ}
      (h : engine.Throws v s body m (some (.throwing v s)) m') :
      engine.Throws v s (runGuarded body none) m (some (.throwing v s)) m'
  /-- A finalizer that the throw waits for, which may have been suspended before, ends normally. -/
  | finalized {finalizer : Eval σ Completion} {c : Completion} {m m' : Machine σ}
      {trace : List (Moment σ)} (normal : c.kind = .normal)
      (run : engine.Passes (recording (.tryCatch (.finalizer (.throwing v s))) finalizer).run m trace
        (.ok c) m') :
      engine.Throws v s (runFinalizer (some finalizer) (.throwing v s)) m (some (.throwing v s)) m'
  | unfinalized {m : Machine σ} :
      engine.Throws v s (runFinalizer none (.throwing v s)) m (some (.throwing v s)) m
  | waits {x : Eval σ Completion} {finalizer : Option (Eval σ Completion)} {left : Option Completion}
      {m m₁ m' : Machine σ} (h : engine.Throws v s x m (some (.throwing v s)) m₁)
      (final : engine.Throws v s (runFinalizer finalizer (.throwing v s)) m₁ left m') :
      engine.Throws v s (x >>= runFinalizer finalizer) m left m'
  | driven {receiver : Value} {resumption : Resumption} {brand : Option String} {g : GeneratorId}
      {resumed : Option Resumption} {frame : Frame} {closure : Closure} {m m₁ m' : Machine σ}
      (start : m.Starts receiver resumption brand g resumed frame closure m₁)
      (h : engine.Throws v s (closure.node.run engine.shortcuts) (m₁.push frame)
        (some (.throwing v s)) m') :
      engine.Throws v s (drive engine.shortcuts receiver resumption brand) m none
        (m'.pop.modifyGenerator g (·.complete))
  | script {program : Program} {scope : EnvironmentId} {m m' : Machine σ}
      (h : engine.Throws v s (do
        declareGlobals scope program.scope
        evalStatements engine.shortcuts program.body) m (some (.throwing v s)) m') :
      engine.Throws v s (program.runBody engine.shortcuts scope) m (some (.throwing v s)) m'

namespace Engine

variable {engine : Engine σ} {v : Value} {s : Span} {x : Eval σ α} {left : Option α}
  {m m' : Machine σ}

theorem Throws.passes (h : engine.Throws v s x m left m') :
    ∃ trace, engine.Passes x.run m trace (thrownAs v s left) m' := by
  induction h with
  | raised operand => exact ⟨_, operand.proceed .pure⟩
  | fault _ ih => exact ih.imp fun _ => .fault
  | next run _ ih => exact ih.imp' _ fun _ => run.proceed
  | scope _ ih => exact ih.imp' _ fun _ inner => .inScope inner .pure
  | frame _ ih => exact ih.imp' _ fun _ inner => .inFrame inner .pure
  | invoked _ ih => exact ih.imp' _ fun _ called => .invoke called .pure
  | head _ ih => exact ih.imp' _ fun _ round => .failed round .pure
  | iteration _ ih => exact ih.imp' _ fun _ round => .done round .pure
  | again run _ ih => exact ih.imp' _ fun _ => .again run
  | @recorded _ _ left _ _ _ _ ih =>
    cases left <;> exact ih.imp' _ fun _ inner => .handle inner .pure
  | settled _ ih | stated _ ih | script _ ih => exact ih.imp' _ fun _ inner => .handle inner .pure
  | continued _ continues ih =>
    refine ih.imp' _ fun _ inner => inner.proceed (?_ : engine.Passes _ _ [] _ _)
    rw [continues.eq]
    exact .pure
  | guarded _ ih => exact ih.imp' _ fun _ inner => .proceed (.handle inner .pure) .pure
  | finalized normal run =>
    refine ⟨_, run.proceed (?_ : engine.Passes _ _ [] _ _)⟩
    rw [if_pos normal]
    exact .pure
  | unfinalized => exact ⟨_, .pure⟩
  | waits _ _ ih ihFinal =>
    obtain ⟨_, inner⟩ := ih
    exact ihFinal.imp' _ fun _ => inner.proceed
  | @driven _ _ _ g _ frame _ _ _ m' start _ ih =>
    have ended : engine.Passes (finishRun g frame (.ok (.throwing v s))).run m'.pop
        [.change m'.pop (m'.pop.modifyGenerator g (·.complete))] (.error (.thrown v s))
        (m'.pop.modifyGenerator g (·.complete)) := .perform .pure
    exact ih.imp' _ fun _ body => start.passes body ended

end Engine

end ScriptEngine
