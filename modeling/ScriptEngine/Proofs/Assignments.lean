import ScriptEngine.Proofs.Abort
import ScriptEngine.Proofs.Generator.Following

/-!
# When the target of an assignment is determined

An assignment determines the place that it stores to before it evaluates its right side. Two forms
determine it later: a `var` declaration after its initializer, and an assignment of a `yield` only
when its generator goes on.
-/

namespace ScriptEngine

variable {σ α : Type}

open Eval

inductive Place where
  | name (r : Reference)
  | member (base : Value) (key : String)

def Place.store (v : Value) : Place → Eval σ Unit
  | .name r => putReference r v
  | .member base key => setMember base key v

namespace Target

def place : Target → Eval σ Place
  | .identifier name => do
    let r ← ask (·.reference name)
    pure (.name r)
  | .member object key => do
    let base ← object.eval none
    let key ← key.eval
    pure (.member base key)

def hint : Target → Option String
  | .identifier name => some name
  | .member .. => none

end Target

def Outcome.faults (o : Outcome σ (Except Fault α)) : Outcome σ (Option Fault) :=
  o.andThen fun r m => .finished (Except.fault? r) m

theorem Outcome.faults_proceed {β : Type} (o : Outcome σ (Except Fault α))
    (next : α → Machine σ → Outcome σ (Except Fault β)) :
    (o.proceed next).faults = o.andThen fun r m => match r with
      | .ok a => (next a m).faults
      | .error fault => .finished (some fault) m := by
  refine (andThen_assoc ..).trans (congrArg _ (funext fun r => funext fun m => ?_))
  cases r <;> rfl

namespace Answers

variable (A : Answers σ)

theorem eval_assign (t : Target) (e : Expr) (span : Span) (hint : Option String) (m : Machine σ) :
    A.eval ((Expr.assign .plain t e span).eval hint) m =
      (A.eval t.place m).proceed fun p m₁ => (A.eval (e.eval t.hint) m₁).proceed fun v m₂ =>
        (A.eval (p.store v) m₂).proceed fun _ m₃ => .finished (.ok v) m₃ := by
  cases t with
  | identifier name => simp [Expr.eval, Target.place, Place.store, Target.hint]
  | member base key =>
    simp [Expr.eval, Target.place, proceed_assoc, Place.store, Target.hint]

theorem eval_assignTo (t : Target) (v : Value) (m : Machine σ) :
    A.eval (assignTo t v) m = (A.eval t.place m).proceed fun p m₁ => A.eval (p.store v) m₁ := by
  cases t with
  | identifier name => rfl
  | member base key => simp [assignTo, Target.place, proceed_assoc, Place.store]

variable {e : Expr} (plain : ∀ operand span, e ≠ .yield operand span)
include plain

theorem eval_assignStatement (t : Target) (span : Span) (m : Machine σ) :
    A.eval (expressionStatement (.assign .plain t e span)) m =
      (A.eval t.place m).proceed fun p m₁ => (A.eval (e.eval t.hint) m₁).proceed fun v m₂ =>
        (A.eval (p.store v) m₂).proceed fun _ m₃ => .finished (.ok (.normal (some v))) m₃ := by
  have unfolded : expressionStatement (σ := σ) (.assign .plain t e span) =
      ((Expr.assign .plain t e span).eval none >>= fun v => pure (.normal (some v))) := by
    rw [expressionStatement.eq_def]
    grind
  rw [unfolded, eval_bind, eval_assign]
  simp [proceed_assoc]

theorem eval_declareVar (name : String) (span : Span) (m : Machine σ) :
    A.eval (declare ⟨.var, [⟨name, some e⟩], span⟩ true) m =
      (A.eval (e.eval (some name)) m).proceed fun v m₁ =>
        (A.eval (putReference (m₁.reference name) v) m₁).proceed fun _ m₂ =>
          .finished (.ok .empty) m₂ := by
  have still : Declarator.yields ⟨name, some e⟩ = false := by
    grind [Declarator.yields]
  have unfolded : declarators (σ := σ) .var true none 0 [⟨name, some e⟩] =
      (e.eval (some name) >>= fun v =>
        storeDeclared .var name (some v) >>= fun _ => pure .empty) := by
    simp only [declarators]
    grind
  rw [declare]
  simp [still, unfolded, storeDeclared]

omit plain

theorem eval_yieldStatement (t : Target) (operand : Option Expr) (span : Span) {m : Machine σ}
    (records : m.records = some ([], none)) :
    A.eval (expressionStatement (.assign .plain t (.yield operand span) span)) m =
      (A.eval (yieldOperand operand) m).proceed fun v m₁ =>
        .finished (.error (.suspended v)) ((Effect.pushResumePoint (.yield 0)).apply m₁).2 := by
  obtain ⟨g, -, running, -⟩ := Machine.records_eq_some.1 records
  have taken : A.eval takeYield m = .finished (.ok none) m := by
    rw [takeYield, takeRecord, eval_bind, eval_perform, Machine.takeResumePoint_apply records]
    simp [Machine.setRecords_self records]
  have suspends : A.eval (singleYield operand span) m = (A.eval (yieldOperand operand) m).proceed
      fun v m₁ => .finished (.error (.suspended v))
        ((Effect.pushResumePoint (.yield 0)).apply m₁).2 := by
    rw [singleYield, eval_bind, taken]
    simp [yieldAt, suspendAt, running]
  rw [expressionStatement, eval_bind, suspends, proceed_assoc]
  rfl

theorem eval_yieldStatement_resumed (t : Target) (operand : Option Expr) (span : Span)
    {m : Machine σ} {w : Value} (records : m.records = some ([.yield 0], some (.next w))) :
    A.eval (expressionStatement (.assign .plain t (.yield operand span) span)) m =
      (A.eval t.place (m.setRecords [] none)).proceed fun p m₁ =>
        (A.eval (p.store w) m₁).proceed fun _ m₂ => .finished (.ok (.normal (some w))) m₂ := by
  have delivered : A.eval (singleYield operand span) m =
      .finished (.ok (.value w)) (m.setRecords [] none) := by
    rw [singleYield, takeYield, A.eval_takeRecord records]
    simp only [yieldAt, if_true]
    rw [A.eval_resumeAt (Machine.records_setRecords records), Machine.setRecords_setRecords]
    rfl
  rw [expressionStatement, eval_bind, delivered, proceed_ok]
  simp [eval_assignTo, proceed_assoc]

end Answers

/-- A plain assignment determines its place, evaluates its right side and stores. An assignment of a
`yield` evaluates the operand and suspends, with nothing of the target evaluated. Driven on with a
value, it determines the place then and stores, as a plain assignment of that value does at this
time. -/
theorem yielded_assignment (engine : Engine σ) (fuel : Nat) (t : Target) (operand : Option Expr)
    (span : Span) (labels : List String) :
    let assigns (e : Expr) : Eval σ Completion :=
      (Stmt.expression (.assign .plain t e span) span).eval engine.shortcuts labels
    (∀ e m, (∀ operand span, e ≠ .yield operand span) → engine.run fuel (assigns e) m =
      (engine.run fuel t.place m).proceed fun p m₁ =>
        (engine.run fuel (e.eval t.hint) m₁).proceed fun v m₂ =>
          (engine.run fuel (p.store v) m₂).proceed fun _ m₃ =>
            .finished (.ok (.normal (some v))) m₃) ∧
    (∀ m : Machine σ, m.records = some ([], none) →
      engine.run fuel (assigns (.yield operand span)) m =
        (engine.run fuel (yieldOperand operand) m).proceed fun v m₁ =>
          .finished (.error (.suspended v)) ((Effect.pushResumePoint (.yield 0)).apply m₁).2) ∧
    ∀ (m : Machine σ) w, m.records = some ([.yield 0], some (.next w)) →
      (engine.run fuel (assigns (.yield operand span)) m =
        (engine.run fuel t.place (m.setRecords [] none)).proceed fun p m₁ =>
          (engine.run fuel (p.store w) m₁).proceed fun _ m₂ =>
            .finished (.ok (.normal (some w))) m₂) ∧
      ∀ e, (∀ operand span, e ≠ .yield operand span) →
        (∀ m₁, engine.run fuel (e.eval t.hint) m₁ = .finished (.ok w) m₁) →
        engine.run fuel (assigns (.yield operand span)) m =
          engine.run fuel (assigns e) (m.setRecords [] none) := by
  intro assigns
  simp only [assigns, Stmt.eval, engine.run_eq]
  have assigned (e : Expr) (plain : ∀ operand span, e ≠ .yield operand span) :=
    (engine.answers fuel).eval_assignStatement plain t span
  refine ⟨fun e m plain => assigned e plain m, fun m records =>
    Answers.eval_yieldStatement _ t operand span records, fun m w records => ?_⟩
  have resumed := (engine.answers fuel).eval_yieldStatement_resumed t operand span records
  refine ⟨resumed, fun e plain value => ?_⟩
  rw [resumed, assigned e plain]
  simp only [value, Outcome.proceed_ok]

/-- The statement `x = yield` of a generator that is driven on with `true` stores it in a global. -/
theorem yielded_assignment_global :
    let engine : Engine Unit := {}
    let frame : Frame :=
      { lexical := ⟨0⟩, varScope := ⟨0⟩, generator := some ⟨0⟩, strict := false }
    let m := ((Machine.withParked []).push frame).setRecords [.yield 0]
      (some (.next (.boolean true)))
    ∃ m', engine.run 0 (Stmt.eval true []
        (.expression (.assign .plain (.identifier "x") (.yield none {}) {}) {})) m =
      .finished (.ok (.normal (some (.boolean true)))) m' ∧
        m'.heap.getProperty ⟨0⟩ "x" = .boolean true := by
  intro engine frame m
  have resumed := ((yielded_assignment engine 0 (.identifier "x") none {} []).2.2 m _ rfl).1
  let written : Effect Unit Bool := .write ⟨0⟩ "x" (.boolean true)
  exact ⟨(written.apply (m.setRecords [] none)).2, resumed.trans (by cbv), by cbv⟩

/-- In the statement `var x = e` the name is resolved after `e` is evaluated, and in `x = e` before
it. Both end with the same fault or none and the same machine if `e` leaves the name where it is. -/
theorem var_initializer_stores (engine : Engine σ) (fuel : Nat) (name : String) {e : Expr}
    (plain : ∀ operand span, e ≠ .yield operand span) (span : Span) (labels : List String)
    (m : Machine σ) :
    let initial := engine.run fuel (e.eval (some name)) m
    let declared := engine.run fuel
      ((Stmt.declare ⟨.var, [⟨name, some e⟩], span⟩).eval engine.shortcuts labels) m
    let assigned := engine.run fuel
      ((Stmt.expression (.assign .plain (.identifier name) e span) span).eval
        engine.shortcuts labels) m
    (declared = initial.proceed fun v m₁ =>
      (engine.run fuel (putReference (m₁.reference name) v) m₁).proceed fun _ m₂ =>
        .finished (.ok .empty) m₂) ∧
    (assigned = initial.proceed fun v m₁ =>
      (engine.run fuel (putReference (m.reference name) v) m₁).proceed fun _ m₂ =>
        .finished (.ok (.normal (some v))) m₂) ∧
    ((∀ v m₁, initial = .finished (.ok v) m₁ →
        m₁.store.resolve m.lexical name = m.store.resolve m.lexical name) →
      declared.faults = assigned.faults) := by
  intro initial declared assigned
  have late : declared = initial.proceed fun v m₁ =>
      (engine.run fuel (putReference (m₁.reference name) v) m₁).proceed fun _ m₂ =>
        .finished (.ok .empty) m₂ := by
    simp only [declared, Stmt.eval]
    exact (engine.answers fuel).eval_declareVar plain name span m
  have early : assigned = initial.proceed fun v m₁ =>
      (engine.run fuel (putReference (m.reference name) v) m₁).proceed fun _ m₂ =>
        .finished (.ok (.normal (some v))) m₂ := by
    simp only [assigned, Stmt.eval]
    exact (engine.answers fuel).eval_assignStatement plain (.identifier name) span m
  refine ⟨late, early, fun stays => ?_⟩
  rw [late, early]
  cases ended : initial with
  | exhausted => rfl
  | finished r m₁ =>
      cases r with
      | error fault => rfl
      | ok v =>
          have same : m₁.reference name = m.reference name := by
            simp only [Machine.reference, Store.reference, lexical_run ended, stays v m₁ ended,
              Machine.strict, stack_kept.run engine ended]
          simp only [Outcome.proceed_ok, same, Outcome.faults_proceed]
          rfl

/-- The initializer `true` leaves every name where it is. -/
theorem var_initializer_stores_literal :
    let engine : Engine Unit := {}
    let value : Expr := .literal (.boolean true) {}
    (engine.run 0 (Stmt.eval true [] (.declare ⟨.var, [⟨"x", some value⟩], {}⟩))
      (Machine.withParked [])).faults =
    (engine.run 0 (Stmt.eval true [] (.expression (.assign .plain (.identifier "x") value {}) {}))
      (Machine.withParked [])).faults := by
  intro engine value
  have plain (operand : Option Expr) (span : Span) : value ≠ .yield operand span := by
    simp [value]
  refine (var_initializer_stores engine 0 "x" plain {} [] (Machine.withParked [])).2.2 ?_
  intro v m₁ ended
  cases ended
  rfl

end ScriptEngine
