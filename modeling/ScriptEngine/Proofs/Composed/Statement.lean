import ScriptEngine.Proofs.Composed

/-!
# How statements are put together

`Eval.Built` lists what the evaluation of a statement is made of, with a bound on the loops in it.
Whatever holds of these parts and is kept by putting them together holds of statements.
-/

namespace ScriptEngine

variable {σ α : Type}

def Loop.body : Loop → Stmt
  | .whileLoop _ body _ _ _ | .doWhile body _ _ _ => body
  | .forLoop r => r.body

namespace Eval

inductive Built (σ : Type) (size : Nat) : {α : Type} → Eval σ α → Prop where
  | simple {α : Type} {x : Eval σ α} (h : Simple x) : Built σ size x
  | bind {α β : Type} {x : Eval σ α} {f : α → Eval σ β} (hx : Built σ size x)
      (hf : ∀ a, Built σ size (f a)) : Built σ size (x >>= f)
  | within {α : Type} (scope : EnvironmentId) {x : Eval σ α} (h : Built σ size x) :
      Built σ size (within scope x)
  | takePoint : Built σ size (perform .takeResumePoint)
  | takeResumption : Built σ size (perform .takeResumption)
  | recorded {α : Type} (point : ResumePoint) {x : Eval σ α} (h : Built σ size x) :
      Built σ size (recording point x)
  | checkLimits : Built σ size (attempt .checkLimits)
  | settled (location : Span) {x : Eval σ Completion} (h : Built σ size x) :
      Built σ size (outcome x >>= settle location)
  | suspendAt {operand : Eval σ Value} (h : Built σ size operand) (slot : Nat) (span : Span) :
      Built σ size (suspendAt operand slot span)
  | loop {l : Loop} (smaller : sizeOf l.body < size) : Built σ size (loop l)

attribute [grind ←] Built.simple Built.bind Built.within Built.recorded Built.loop
attribute [grind .] Built.takePoint Built.takeResumption

theorem Built.composed {engine : Engine σ} {leaf : (α : Type) → Eval σ α → Prop} {x : Eval σ α}
    (h : Built σ size x) : Composed engine leaf true x := by
  induction h with
  | simple h => exact .simple h
  | bind _ _ hx hf => exact .bind hx hf
  | within scope _ h => exact .within scope h
  | takePoint | takeResumption => exact .perform trivial
  | recorded point _ h => exact .recorded point h
  | checkLimits => exact .checkLimits
  | settled location _ h => exact .settled location h
  | suspendAt _ slot span h => exact .suspendAt h slot span
  | loop => exact .loop _

variable {size : Nat} {body : Eval σ Completion}

@[grind .]
theorem built_takeRecord (reading : ResumePoint → Option α) :
    Built σ size (takeRecord reading : Eval σ (Option α)) := by
  refine .bind .takePoint fun point => ?_
  grind [simple_throw]

@[grind .]
theorem built_yieldAt (operand : Option Expr) (slot : Nat) (span : Span)
    (resumed : Option Nat) :
    Built σ size (yieldAt (yieldOperand operand) slot span resumed) := by
  unfold yieldAt
  split
  · exact .bind .takeResumption fun resumption => by grind [simple_throw]
  · exact .suspendAt (.simple (simple_yieldOperand operand)) slot span

@[grind .]
theorem built_singleYield (operand : Option Expr) (span : Span) :
    Built σ size (singleYield operand span) := by
  unfold singleYield takeYield
  grind

theorem built_expressionStatement (e : Expr) :
    Built σ size (expressionStatement e) := by
  fun_cases expressionStatement (σ := σ) e <;> grind

theorem built_returnStatement (argument : Option Expr) :
    Built σ size (returnStatement argument) := by
  fun_cases returnStatement (σ := σ) argument <;> grind

@[grind .]
theorem built_declarators (kind : VariableKind) (resumed : Option Nat) (slot : Nat)
    (ds : List Declarator) :
    Built σ size (declarators kind true resumed slot ds) := by
  induction ds generalizing slot with
  | nil => exact .simple (simple_pure _)
  | cons d rest ih =>
    obtain ⟨name, init⟩ := d
    unfold declarators
    grind

theorem built_declare (declaration : Declaration) :
    Built σ size (declare declaration true) := by
  unfold declare takeYield
  grind

@[grind ←]
theorem built_withinSome (scope : Option EnvironmentId) {x : Eval σ α}
    (h : Built σ size x) : Built σ size (withinSome scope x) := by
  cases scope with
  | none => exact h
  | some e => exact .within e h

@[grind ←]
theorem built_block (scope : BlockScope) (h : Built σ size body) :
    Built σ size (block scope body) := by
  unfold block takeScope
  grind

theorem built_withStatement {object : Eval σ Value} (simple : Simple object) (h : Built σ size body)
    (span : Span) : Built σ size (withStatement object body span) := by
  refine .bind (.simple (.ask fun _ _ _ => rfl)) fun strict => ?_
  cases strict with
  | true => exact .simple (simple_throw_syntaxError ..)
  | false =>
    refine .bind (built_takeRecord _) fun record => ?_
    cases record with
    | none => exact .bind (.simple simple) fun _ => by grind
    | some environment => exact .recorded _ (built_withinSome environment h)

theorem built_branch {test : Eval σ Value} (simple : Simple test)
    {consequent : Eval σ Completion} {alternate : Option (Eval σ Completion)}
    (h : Built σ size consequent)
    (h' : ∀ x, alternate = some x → Built σ size x) :
    Built σ size (branch test consequent alternate) := by
  unfold branch takeBranch
  grind

theorem built_switch {discriminant : Eval σ Value} (simple : Simple discriminant)
    (cases : List SwitchCase) {run : Nat → Value → Option EnvironmentId → Eval σ Completion}
    (h : ∀ start value scope, Built σ size (run start value scope)) :
    Built σ size (switch discriminant cases run) := by
  refine .bind (built_takeRecord _) fun record => ?_
  rcases record with _ | ⟨start, value, environment⟩
  · refine .bind (.simple simple) fun v => .bind (.simple (.ask fun _ _ _ => rfl)) fun outer =>
      .bind (.simple (simple_openBlock _ outer)) fun environment =>
      built_withinSome environment (.bind (.simple (simple_selectCase v cases)) fun start => ?_)
    cases start with
    | none => exact .simple (simple_pure _)
    | some start => exact h start .undefined environment
  · exact built_withinSome environment (h start value environment)

theorem built_forStatement (init : ForInit) (test update : Option Expr) {body : Stmt}
    (smaller : sizeOf body < size) (labels : List String) :
    Built σ size (forStatement init test update body labels) := by
  unfold forStatement takeLoop
  grind [Loop.body]

theorem built_whileStatement (test : Expr) {body : Stmt} (smaller : sizeOf body < size)
    (labels : List String) : Built σ size (whileStatement test body labels) := by
  unfold whileStatement takeLoop
  grind [Loop.body]

theorem built_doWhileStatement {body : Stmt} (smaller : sizeOf body < size) (test : Expr)
    (labels : List String) : Built σ size (doWhileStatement body test labels) := by
  unfold doWhileStatement takeLoop
  grind [Loop.body]

@[grind ←]
theorem built_runHandler {handler : Handler σ} (h : Built σ size handler.body)
    (environment : Option EnvironmentId) :
    Built σ size (runHandler handler environment) :=
  .recorded _ (built_withinSome environment h)

@[grind ←]
theorem built_runFinalizer {finalizer : Option (Eval σ Completion)}
    (h : ∀ x, finalizer = some x → Built σ size x) (pending : Completion) :
    Built σ size (runFinalizer finalizer pending) := by
  unfold runFinalizer
  grind

@[grind ←]
theorem built_runGuarded {handler : Option (Handler σ)} (h : Built σ size body)
    (hh : ∀ h, handler = some h → Built σ size h.body) :
    Built σ size (runGuarded body handler) := by
  unfold runGuarded
  grind

theorem built_tryStatement {handler : Option (Handler σ)} {finalizer : Option (Eval σ Completion)}
    (h : Built σ size body) (hh : ∀ h, handler = some h → Built σ size h.body)
    (hf : ∀ x, finalizer = some x → Built σ size x) :
    Built σ size (tryStatement body handler finalizer) := by
  unfold tryStatement takeTry
  grind [simple_throw]

theorem built_list {run : Nat → Option Value → Eval σ Completion}
    (h : ∀ start last, Built σ size (run start last)) :
    Built σ size (list run) := by
  unfold list takeList
  grind

end Eval

open Eval

section

variable {size : Nat} {shortcuts : Bool}

mutual

theorem Stmt.built (s : Stmt) (labels : List String) (fits : sizeOf s ≤ size) :
    Built σ size (s.eval shortcuts labels) := by
  cases s with simp only [Stmt.eval]
  | declare declaration =>
    exact built_declare declaration
  | expression e span =>
    exact built_expressionStatement e
  | «return» argument span =>
    exact built_returnStatement argument
  | block body span =>
    simp only [Stmt.block.sizeOf_spec] at fits
    exact built_block _ (built_list fun start last =>
      evalFrom_built body 0 start last (by omega))
  | branch test consequent alternate span =>
    simp only [Stmt.branch.sizeOf_spec] at fits
    refine built_branch (Expr.simple test none) (Stmt.built consequent [] (by omega))
      fun x hx => ?_
    cases alternate with
    | none => cases hx
    | some s =>
      simp only [Option.some.sizeOf_spec] at fits
      cases hx
      exact Stmt.built s [] (by omega)
  | switch discriminant cases span =>
    simp only [Stmt.switch.sizeOf_spec] at fits
    exact built_switch (Expr.simple discriminant none) cases fun start value scope =>
      evalCases_built cases 0 start value scope (by omega)
  | forLoop init test update body span =>
    simp only [Stmt.forLoop.sizeOf_spec] at fits
    exact built_forStatement init test update (by omega) labels
  | whileLoop test body span =>
    simp only [Stmt.whileLoop.sizeOf_spec] at fits
    exact built_whileStatement test (by omega) labels
  | doWhile body test span =>
    simp only [Stmt.doWhile.sizeOf_spec] at fits
    exact built_doWhileStatement (by omega) test labels
  | tryCatch body handler finalizer span =>
    simp only [Stmt.tryCatch.sizeOf_spec] at fits
    refine built_tryStatement (built_block _ (built_list fun start last =>
      evalFrom_built body 0 start last (by omega))) (fun h hh => ?_) fun x hx => ?_
    · cases handler with
      | none => cases hh
      | some handler =>
        obtain ⟨parameter, body⟩ := handler
        simp only [Option.some.sizeOf_spec, CatchClause.mk.sizeOf_spec] at fits
        cases hh
        exact built_block _ (built_list fun start last =>
          evalFrom_built body 0 start last (by omega))
    · cases finalizer with
      | none => cases hx
      | some body =>
        simp only [Option.some.sizeOf_spec] at fits
        cases hx
        exact built_block _ (built_list fun start last =>
          evalFrom_built body 0 start last (by omega))
  | withObject e body span =>
    simp only [Stmt.withObject.sizeOf_spec] at fits
    exact built_withStatement (Expr.simple e none) (Stmt.built body [] (by omega)) span
  | labelled label body span =>
    simp only [Stmt.labelled.sizeOf_spec] at fits
    exact .bind (Stmt.built body (labels ++ [label]) (by omega)) fun _ =>
      .simple (simple_pure _)
  | classDecl node =>
    exact .simple (simple_classDeclaration node)
  | throw argument span =>
    exact .bind (.simple (Expr.simple argument none)) fun _ => .simple (simple_pure _)
  | functionDecl | empty | debugger | «break» | «continue» =>
    exact .simple (simple_pure _)

theorem evalFrom_built (statements : List Stmt) (index skip : Nat) (last : Option Value)
    (fits : sizeOf statements ≤ size) :
    Built σ size (evalFrom shortcuts statements index skip last) := by
  match statements, skip with
  | [], _ =>
    simp only [evalFrom]
    exact .simple (simple_pure _)
  | _ :: rest, skip + 1 =>
    simp only [List.cons.sizeOf_spec] at fits
    simp only [evalFrom]
    exact evalFrom_built rest (index + 1) skip last (by omega)
  | s :: rest, 0 =>
    simp only [List.cons.sizeOf_spec] at fits
    simp only [evalFrom]
    refine .bind (.bind .checkLimits fun _ => .settled s.span (.recorded _ ?_)) fun completion => ?_
    · cases s.knownCompletion? shortcuts with
      | none => exact Stmt.built s [] (by omega)
      | some completion => exact .simple (simple_pure completion)
    · unfold Eval.andThen
      split
      · exact .simple (simple_pure _)
      · exact evalFrom_built rest (index + 1) 0 _ (by omega)

theorem evalCases_built (cases : List SwitchCase) (index skip : Nat) (value : Value)
    (scope : Option EnvironmentId) (fits : sizeOf cases ≤ size) :
    Built σ size (evalCases shortcuts cases index skip value scope) := by
  match cases, skip with
  | [], _ =>
    simp only [evalCases]
    exact .simple (simple_pure _)
  | _ :: rest, skip + 1 =>
    simp only [List.cons.sizeOf_spec] at fits
    simp only [evalCases]
    exact evalCases_built rest (index + 1) skip value scope (by omega)
  | ⟨test, body⟩ :: rest, 0 =>
    simp only [List.cons.sizeOf_spec, SwitchCase.mk.sizeOf_spec] at fits
    simp only [evalCases]
    refine .bind (.recorded _ (built_list fun start last =>
      evalFrom_built body 0 start last (by omega))) fun completion => ?_
    split
    · exact .simple (simple_pure _)
    · exact evalCases_built rest (index + 1) 0 _ scope (by omega)

end

theorem built_evalStatements {statements : List Stmt} (fits : sizeOf statements ≤ size) :
    Built σ size (evalStatements shortcuts statements) :=
  built_list fun start last => evalFrom_built statements 0 start last fits

@[grind ←]
theorem Loop.built_afterBody (completion : Completion) (labels : List String) (value : Value)
    {next : Value → Eval σ Step} (h : ∀ value, Built σ size (next value)) :
    Built σ size (afterBody completion labels value next) := by
  unfold afterBody
  grind

theorem Loop.built_round {l : Loop} (fits : sizeOf l.body ≤ size) :
    Built σ size (l.round shortcuts) := by
  have body : Built σ size (l.body.eval shortcuts []) := l.body.built [] fits
  cases l with
  | whileLoop test body labels value resuming =>
    unfold Loop.round
    grind [Loop.body]
  | doWhile body test labels value =>
    unfold Loop.round
    grind [Loop.body]
  | forLoop r =>
    rw [Loop.round_forLoop]
    refine .bind (by grind) fun enter => ?_
    cases enter with
    | false => exact .simple (simple_pure _)
    | true =>
      exact .bind (.recorded _ (.within r.environment body)) fun completion =>
        built_afterBody completion r.labels r.value fun value => .simple (simple_advance r value)

theorem FunctionNode.built (node : FunctionNode) :
    ∃ size, 0 < size ∧ Built σ size (node.run shortcuts) := by
  unfold FunctionNode.run
  cases node.body with
  | block statements => exact ⟨_, Nat.succ_pos _, built_evalStatements (Nat.le_succ _)⟩
  | concise e =>
    exact ⟨1, Nat.one_pos, .settled e.span (.bind (.simple (Expr.simple e none)) fun _ =>
      .simple (simple_pure _))⟩

variable {engine : Engine σ} {leaf : (α : Type) → Eval σ α → Prop}

theorem Stmt.composed (s : Stmt) (labels : List String) :
    Composed engine leaf true (s.eval shortcuts labels) := (s.built labels (Nat.le_refl _)).composed

theorem composed_evalStatements (statements : List Stmt) :
    Composed engine leaf true (evalStatements shortcuts statements) :=
  (built_evalStatements (Nat.le_refl _)).composed

theorem Loop.composed_round (l : Loop) : Composed engine leaf true (l.round shortcuts) :=
  (l.built_round (Nat.le_refl _)).composed

theorem FunctionNode.composed (node : FunctionNode) :
    Composed engine leaf true (node.run shortcuts) :=
  let ⟨_, _, built⟩ := node.built
  built.composed

end

end ScriptEngine
