import ScriptEngine.Invocation
import ScriptEngine.Script

/-!
Running actions. Calls and rounds of loops, which stand in the tree as requests, are answered with
one unit of fuel less than the action that makes them, so a run is total; with enough fuel its
outcome does not depend on the amount.
-/

namespace ScriptEngine

inductive Outcome (σ α : Type) where
  | finished (result : α) (machine : Machine σ)
  | exhausted

variable {σ : Type}

/-- Interprets an action, given how requests are answered. The scopes and frames that it changes for
its parts are as before when it goes on. -/
def Action.interpret (invoke : Invocation → Machine σ → Outcome σ (Except Fault Value))
    (loop : Loop → Machine σ → Outcome σ (Except Fault Completion)) {α : Type} :
    Action σ α → Machine σ → Outcome σ α
  | .pure a, m => .finished a m
  | .read view next, m => interpret invoke loop (next (view m)) m
  | .perform effect next, m =>
    let (b, m) := effect.apply m
    interpret invoke loop (next b) m
  | .inScope lexical varScope body next, m =>
    let outerLexical := m.lexical
    let outerVarScope := m.varScope
    match interpret invoke loop body (m.setScope lexical (varScope.getD outerVarScope)) with
    | .finished b m => interpret invoke loop (next b) (m.setScope outerLexical outerVarScope)
    | .exhausted => .exhausted
  | .inFrame frame body next, m =>
    match interpret invoke loop body (m.push frame) with
    | .finished b m => interpret invoke loop (next b) m.pop
    | .exhausted => .exhausted
  | .invoke invocation next, m =>
    match invoke invocation m with
    | .finished b m => interpret invoke loop (next b) m
    | .exhausted => .exhausted
  | .loop l next, m =>
    match loop l m with
    | .finished b m => interpret invoke loop (next b) m
    | .exhausted => .exhausted

mutual

def Engine.invoke (engine : Engine σ) :
    Nat → Invocation → Machine σ → Outcome σ (Except Fault Value)
  | 0, _, _ => .exhausted
  | fuel + 1, invocation, m =>
    Action.interpret (engine.invoke fuel) (engine.repeat fuel) (invocation.eval engine).run m

def Engine.repeat (engine : Engine σ) :
    Nat → Loop → Machine σ → Outcome σ (Except Fault Completion)
  | 0, _, _ => .exhausted
  | fuel + 1, l, m =>
    let round := (l.round engine.shortcuts).run
    match Action.interpret (engine.invoke fuel) (engine.repeat fuel) round m with
    | .finished (.ok (.done completion)) m => .finished (.ok completion) m
    | .finished (.ok (.again next)) m => engine.repeat fuel next m
    | .finished (.error fault) m => .finished (.error fault) m
    | .exhausted => .exhausted

end

def Engine.run (engine : Engine σ) {α : Type} (fuel : Nat) (x : Eval σ α) (m : Machine σ) :
    Outcome σ (Except Fault α) :=
  Action.interpret (engine.invoke fuel) (engine.repeat fuel) x.run m

end ScriptEngine
