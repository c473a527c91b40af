import ScriptEngine.Realm
import ScriptEngine.Proofs.Interpretation

/-!
# What can be asked of an engine

`Operation` lists the ways into the evaluator. The states that an engine can be in between two
operations are `Engine.Reachable`.
-/

namespace ScriptEngine

variable {σ α β : Type}

inductive Operation : Type → Type where
  | statement (s : Stmt) (labels : List String) : Operation Completion
  | expression (e : Expr) (hint : Option String) : Operation Value
  | call (callee this : Value) (arguments : List Value) : Operation Value
  | construct (callee : Value) (arguments : List Value) (newTarget : Option Value) :
      Operation Value
  | drive (receiver : Value) (resumption : Resumption) (brand : Option String) : Operation Value
  | run (program : Program) : Operation Completion
  | eval (program : Program) : Operation Value

def Operation.evaluate (engine : Engine σ) : Operation α → Eval σ α
  | .statement s labels => s.eval engine.shortcuts labels
  | .expression e hint => e.eval hint
  | .call callee this arguments => Eval.call callee this arguments
  | .construct callee arguments newTarget => Eval.construct callee arguments newTarget
  | .drive receiver resumption brand => Eval.drive engine.shortcuts receiver resumption brand
  | .run program => program.run engine.shortcuts
  | .eval program => program.eval engine.shortcuts

def Program.entered (program : Program) (m : Machine σ) : Machine σ :=
  { m with limits := m.limits.map Limit.reset }.push
    { lexical := m.realm.globalEnvironment, varScope := m.realm.globalEnvironment
      strict := program.strict || m.options.strict }

theorem Answers.eval_run (A : Answers σ) (shortcuts : Bool) (program : Program) (m : Machine σ) :
    A.eval (program.run shortcuts) m =
      (A.eval (program.runBody shortcuts m.realm.globalEnvironment) (program.entered m)).andThen
        fun r m' => .finished r m'.pop :=
  A.eval_inFrame _ _ _

inductive Engine.Reachable (engine : Engine σ) (change : Machine σ → Machine σ → Prop) :
    Machine σ → Prop where
  | start (options : Options) (host : σ) : engine.Reachable change (engine.start options host)
  | operate {α : Type} {m m' : Machine σ} (operation : Operation α) {fuel : Nat}
      {r : Except Fault α} (before : engine.Reachable change m)
      (run : engine.run fuel (operation.evaluate engine) m = .finished r m') :
      engine.Reachable change m'
  | change {m m' : Machine σ} (before : engine.Reachable change m) (h : change m m') :
      engine.Reachable change m'

theorem Setup.bind_apply (x : Setup α) (f : α → Setup β) (h : Heap) :
    (x >>= f) h = f (x h).1 (x h).2 := rfl

theorem Setup.pure_apply (a : α) (h : Heap) : (pure a : Setup α) h = (a, h) := rfl

theorem Setup.all_globalEnvironment (host : List (HostFunction σ)) (h : Heap) :
    (Setup.all host h).1.globalEnvironment = ⟨0⟩ := by
  simp only [Setup.all, Setup.realm, Setup.bind_apply, Setup.pure_apply]

namespace Engine

variable (engine : Engine σ) (options : Options) (host : σ)

-- The heap that the engine starts with is never computed here.

theorem start_generators : (engine.start options host).generators = #[] := by
  unfold Engine.start
  generalize Setup.all engine.host { objects := #[] } = setup
  rfl

theorem start_stack : (engine.start options host).stack =
    ⟨[{ lexical := ⟨0⟩, varScope := ⟨0⟩, strict := options.strict }]⟩ := by
  have global := Setup.all_globalEnvironment engine.host { objects := #[] }
  unfold Engine.start
  generalize Setup.all engine.host { objects := #[] } = setup at global
  change CallStack.mk [{ lexical := setup.1.globalEnvironment
                         varScope := setup.1.globalEnvironment
                         strict := options.strict }] = _
  rw [global]

end Engine

end ScriptEngine
