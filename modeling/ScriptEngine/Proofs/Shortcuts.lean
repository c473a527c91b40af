import ScriptEngine.Proofs.Operation

/-!
# Shortcuts change nothing

An engine may answer a statement of a list with a completion that is known from the tree alone
(`Stmt.shortcut?`), or evaluate every statement. A statement that has a shortcut evaluates to `pure`
of its completion (`Stmt.eval_of_shortcut`).
-/

namespace ScriptEngine

variable {σ α : Type}

open Eval

/-! ## Statements -/

theorem Stmt.eval_of_shortcut {s : Stmt} {shortcut : Shortcut} (known : s.shortcut? = some shortcut)
    (shortcuts : Bool) (labels : List String) :
    s.eval shortcuts labels = (pure shortcut.completion : Eval σ Completion) := by
  unfold Stmt.shortcut? at known
  split at known <;> cases known <;> rfl

variable (shortcuts : Bool)

mutual

theorem Stmt.eval_direct : (s : Stmt) → (labels : List String) →
    (s.eval shortcuts labels : Eval σ Completion) = s.eval false labels
  | .declare _, _ | .functionDecl _, _ | .empty _, _ | .debugger _, _ | .classDecl _, _
  | .forLoop _ _ _ _ _, _ | .whileLoop _ _ _, _ | .doWhile _ _ _, _ | .return _ _, _
  | .break _ _, _ | .continue _ _, _ | .throw _ _, _ | .expression _ _, _ => rfl
  | .block body _, labels => by
    rw [Stmt.eval, Stmt.eval, evalFrom_direct body 0]
  | .branch test consequent alternate _, labels => by
    rw [Stmt.eval, Stmt.eval, consequent.eval_direct [], evalOption_direct alternate]
  | .switch discriminant cases _, labels => by
    rw [Stmt.eval, Stmt.eval, evalCases_direct cases 0]
  | .tryCatch body handler finalizer _, labels => by
    rw [Stmt.eval, Stmt.eval, evalFrom_direct body 0, evalHandler_direct handler,
      evalFinalizer_direct finalizer]
  | .withObject e body span, labels => by
    rw [Stmt.eval, Stmt.eval, body.eval_direct []]
  | .labelled label body _, labels => by
    rw [Stmt.eval, Stmt.eval, body.eval_direct (labels ++ [label])]

theorem evalFrom_direct : (statements : List Stmt) → (index : Nat) →
    (evalFrom shortcuts statements index : Nat → Option Value → Eval σ Completion) =
      evalFrom false statements index
  | [], _ => rfl
  | s :: rest, index => by
    funext skip last
    cases skip with
    | succ skip => exact congrFun (congrFun (evalFrom_direct rest (index + 1)) skip) last
    | zero =>
      rw [evalFrom, evalFrom, evalFrom_direct rest (index + 1)]
      -- The one place where the choice matters.
      cases known : s.knownCompletion? shortcuts with
      | none => rw [s.eval_direct []]; rfl
      | some completion =>
        obtain ⟨-, shortcut, found, rfl⟩ := by simpa [Stmt.knownCompletion?] using known
        have evaluated : (s.eval false [] : Eval σ Completion) = pure shortcut.completion :=
          Stmt.eval_of_shortcut found false []
        simp only [Stmt.knownCompletion?, evaluated]
        rfl

theorem evalOption_direct : (s : Option Stmt) →
    (evalOption shortcuts s : Option (Eval σ Completion)) = evalOption false s
  | none => rfl
  | some s => by rw [evalOption, evalOption, s.eval_direct []]

theorem evalHandler_direct : (handler : Option CatchClause) →
    (evalHandler shortcuts handler : Option (Handler σ)) = evalHandler false handler
  | none => rfl
  | some ⟨_, body⟩ => by rw [evalHandler, evalHandler, evalFrom_direct body 0]

theorem evalFinalizer_direct : (finalizer : Option (List Stmt)) →
    (evalFinalizer shortcuts finalizer : Option (Eval σ Completion)) = evalFinalizer false finalizer
  | none => rfl
  | some body => by rw [evalFinalizer, evalFinalizer, evalFrom_direct body 0]

theorem evalCases_direct : (cases : List SwitchCase) → (index : Nat) →
    (evalCases shortcuts cases index :
        Nat → Value → Option EnvironmentId → Eval σ Completion) = evalCases false cases index
  | [], _ => rfl
  | ⟨_, body⟩ :: rest, index => by
    funext skip value scope
    cases skip with
    | succ skip => exact congrFun (congrFun (congrFun (evalCases_direct rest (index + 1)) skip) value) scope
    | zero => rw [evalCases, evalCases, evalFrom_direct body 0, evalCases_direct rest (index + 1)]

end

theorem Loop.round_direct (l : Loop) : (l.round shortcuts : Eval σ Loop.Step) = l.round false := by
  cases l with
  | whileLoop test body labels value resuming | doWhile body test labels value =>
    rw [Loop.round, Loop.round, body.eval_direct shortcuts []]
  | forLoop r => rw [Loop.round, Loop.round, r.body.eval_direct shortcuts []]

/-! ## Functions, generators and scripts -/

theorem FunctionNode.run_direct (node : FunctionNode) :
    (node.run shortcuts : Eval σ Completion) = node.run false := by
  unfold FunctionNode.run
  cases node.body with
  | concise e => rfl
  | block statements =>
    exact congrArg list (evalFrom_direct shortcuts statements 0)

namespace Eval

theorem runFunction_direct (node : FunctionNode) (scope : EnvironmentId) (arguments : List Value) :
    (runFunction shortcuts node scope arguments : Eval σ Value) =
      runFunction false node scope arguments := by
  unfold runFunction
  rw [node.run_direct]

theorem callClosure_direct (function : ObjectId) (closure : Closure) (this : Value)
    (arguments : List Value) :
    (callClosure shortcuts function closure this arguments : Eval σ Value) =
      callClosure false function closure this arguments := by
  unfold callClosure
  simp only [runFunction_direct shortcuts]

theorem constructClosure_direct (function : ObjectId) (closure : Closure) (arguments : List Value)
    (newTarget : ObjectId) :
    (constructClosure shortcuts function closure arguments newTarget : Eval σ Value) =
      constructClosure false function closure arguments newTarget := by
  unfold constructClosure constructBase constructDerived
  simp only [runFunction_direct shortcuts]

theorem drive_direct (receiver : Value) (resumption : Resumption) (brand : Option String) :
    (drive shortcuts receiver resumption brand : Eval σ Value) =
      drive false receiver resumption brand := by
  unfold drive runGenerator
  simp only [FunctionNode.run_direct shortcuts]

end Eval

theorem Builtin.call_direct (builtin : Builtin) (this : Value) (arguments : List Value) :
    (builtin.call shortcuts this arguments : Eval σ Value) = builtin.call false this arguments := by
  cases builtin <;> simp only [Builtin.call, drive_direct shortcuts]

theorem Program.run_direct (program : Program) :
    (program.run shortcuts : Eval σ Completion) = program.run false := by
  have body (scope : EnvironmentId) :
      (program.runBody shortcuts scope : Eval σ Completion) = program.runBody false scope := by
    unfold Program.runBody evalStatements
    rw [evalFrom_direct]
  unfold Program.run
  simp only [body]

theorem Program.eval_direct (program : Program) :
    (program.eval shortcuts : Eval σ Value) = program.eval false := by
  unfold Program.eval
  rw [program.run_direct]

def Engine.direct (engine : Engine σ) : Engine σ := { engine with shortcuts := false }

variable (engine : Engine σ)

theorem Invocation.eval_engine_direct (invocation : Invocation) :
    invocation.eval engine = invocation.eval engine.direct := by
  unfold Invocation.eval callObject constructObject Native.call Engine.direct
  simp only [Builtin.call_direct engine.shortcuts, callClosure_direct engine.shortcuts,
    constructClosure_direct engine.shortcuts]

theorem Operation.evaluate_direct (operation : Operation α) :
    operation.evaluate engine = operation.evaluate engine.direct := by
  cases operation with
  | statement s labels => exact s.eval_direct engine.shortcuts labels
  | drive receiver resumption brand => exact drive_direct engine.shortcuts receiver resumption brand
  | run program => exact program.run_direct engine.shortcuts
  | eval program => exact program.eval_direct engine.shortcuts
  | expression e hint => rfl
  | call callee this arguments => rfl
  | construct callee arguments newTarget => rfl

namespace Engine

theorem answers_direct (fuel : Nat) : engine.answers fuel = engine.direct.answers fuel := by
  induction fuel with
  | zero => rfl
  | succ fuel ih =>
    have invoke : (engine.answers (fuel + 1)).invoke = (engine.direct.answers (fuel + 1)).invoke := by
      funext invocation m
      rw [answers_succ_invoke, answers_succ_invoke, ih, invocation.eval_engine_direct]
    have loop : (engine.answers (fuel + 1)).loop = (engine.direct.answers (fuel + 1)).loop := by
      funext l m
      rw [answers_succ_loop, answers_succ_loop, ih, l.round_direct engine.shortcuts]
      rfl
    unfold answers
    rw [Answers.mk.injEq]
    exact ⟨invoke, loop⟩

/-- Taking shortcuts changes neither how a run ends nor the machine that it leaves. -/
theorem run_without_shortcuts (operation : Operation α) (fuel : Nat) (m : Machine σ) :
    engine.run fuel (operation.evaluate engine) m =
      engine.direct.run fuel (operation.evaluate engine.direct) m := by
  rw [run_eq, run_eq, answers_direct, operation.evaluate_direct]

end Engine

end ScriptEngine
