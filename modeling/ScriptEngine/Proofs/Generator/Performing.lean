import ScriptEngine.Proofs.Generator.Rounds

/-!
# Following statements in place

Each statement is followed by its evaluation in place (`Stmt.follows`): a construct finds its way
back, by its record, to the part that was suspended.
-/

namespace ScriptEngine

open Eval

variable {σ α : Type}

namespace Engine

variable {engine : Engine σ} {stack : CallStack} {again : Eval σ Completion} {m : Machine σ}

theorem eval_yieldAt {points : List ResumePoint} {w : Resumption}
    (records : m.records = some (points, some w)) (operand : Eval σ Value) (slot : Nat)
    (span : Span) (f : Yielded → Eval σ α) :
    engine.total.eval (yieldAt operand slot span (some slot) >>= f) m =
      engine.total.eval (Eval.ofExcept (Dialogue.deliver span w) >>= f)
        (m.setRecords points none) := by
  rw [yieldAt, if_pos rfl, eval_bind, Answers.eval_resumeAt _ records, eval_bind,
    eval_ofExcept]

theorem follows_singleYield (fair : engine.Fair) {operand : Option Expr} {span : Span}
    {f : Yielded → Eval σ α} {g : Yielded → Dialogue σ α}
    (rest : ∀ y, engine.Follows stack (singleYield operand span >>= f) (f y) (g y)) :
    engine.Follows stack (singleYield operand span >>= f) (singleYield operand span >>= f)
      (Dialogue.yield engine operand span >>= g) := by
  have taken (m : Machine σ) : engine.total.eval (singleYield operand span >>= f) m =
      engine.total.eval (takeYield >>= fun resumed =>
        yieldAt (yieldOperand operand) 0 span resumed >>= f) m := engine.total.eval_bind_assoc ..
  have fresh : engine.Follows stack (singleYield operand span >>= f)
      (suspendAt (yieldOperand operand) 0 span >>= f)
      (Dialogue.yield engine operand span >>= g) := by
    refine follows_yield (settled_of_plain fair (simple_yieldOperand operand).plain)
      (fun m w placed records => ?_) rest
    rw [taken, takeYield, Answers.eval_takeRecord _ records]
    exact (eval_yieldAt (Machine.records_setRecords records) _ 0 span f).trans
      (by rw [Machine.setRecords_setRecords])
  exact fun talk m calm => (follows_take fresh talk m calm).congr (taken m)

theorem follows_expressionStatement (fair : engine.Fair) (e : Expr) :
    engine.Follows stack (expressionStatement e) (expressionStatement e)
      (Dialogue.expressionStatement engine e) := by
  fun_cases expressionStatement (σ := σ) e with
  | case1 operand span =>
    refine follows_singleYield fair fun y => ?_
    cases y <;> exact fun _ _ _ => matches_pure _
  | case2 target operand span _ =>
    refine follows_singleYield fair fun y => ?_
    cases y with
    | value v =>
      exact follows_bind (settled_of_plain fair (simple_assignTo target v).plain)
        fun _ _ _ _ => matches_pure _
    | «return» v => exact fun _ _ _ => matches_pure _
  | case3 e notYield notAssigned =>
    have same : Dialogue.expressionStatement engine e = (do
        let v ← Dialogue.silent engine (e.eval none)
        pure (.normal (some v))) := by
      unfold Dialogue.expressionStatement
      split
      · exact absurd rfl (notYield _ _)
      · exact absurd rfl (notAssigned _ _ _ _)
      · rfl
    rw [same]
    exact follows_bind (settled_of_plain fair (Expr.plain e none)) fun _ _ _ _ => matches_pure _

theorem follows_returnStatement (fair : engine.Fair) (argument : Option Expr) :
    engine.Follows stack (returnStatement argument) (returnStatement argument)
      (Dialogue.returnStatement engine argument) := by
  fun_cases returnStatement (σ := σ) argument with
  | case1 => exact fun _ _ _ => matches_pure _
  | case2 operand span =>
    refine follows_singleYield fair fun y => ?_
    cases y <;> exact fun _ _ _ => matches_pure _
  | case3 e notYield =>
    have same : Dialogue.returnStatement engine (some e) = (do
        let v ← Dialogue.silent engine (e.eval none)
        pure (.returning v)) := by
      unfold Dialogue.returnStatement
      split
      · contradiction
      · rename_i same
        cases same
        exact absurd rfl (notYield _ _)
      · rename_i same
        cases same
        rfl
    rw [same]
    exact follows_bind (settled_of_plain fair (Expr.plain e none)) fun _ _ _ _ => matches_pure _

theorem declarators_skip (kind : VariableKind) {slot first : Nat} (later : first < slot)
    (d : Declarator) (rest : List Declarator) :
    (declarators kind true (some slot) first (d :: rest) : Eval σ Completion) =
      declarators kind true (some slot) (first + 1) rest := by
  have after : (some slot).any (first < ·) = true := by simpa using later
  obtain ⟨name, init⟩ := d
  simp only [declarators, if_pos after]

theorem declarators_passed (kind : VariableKind) {slot first : Nat} (passed : slot < first)
    (ds : List Declarator) :
    (declarators kind true (some slot) first ds : Eval σ Completion) =
      declarators kind true none first ds := by
  induction ds generalizing first with
  | nil => rfl
  | cons d rest ih =>
    obtain ⟨name, init⟩ := d
    have notAfter : ¬(some slot).any (first < ·) = true := by simpa using Nat.le_of_lt passed
    have notNone : ¬(none : Option Nat).any (first < ·) = true := by simp
    have notHere : some slot ≠ some first := by simpa using Nat.ne_of_lt passed
    unfold declarators
    rw [if_neg notAfter, if_neg notNone, ih (Nat.lt_succ_of_lt passed)]
    simp only [yieldAt, if_neg notHere, reduceCtorEq, if_false]

theorem follows_declarators (fair : engine.Fair) (kind : VariableKind) (first : Nat)
    (ds : List Declarator)
    (back : ∀ slot, YieldsAt first ds slot → ∀ m w, m.Placed stack →
      m.records = some ([.yield slot], some w) → engine.total.eval again m =
        engine.total.eval (declarators kind true (some slot) first ds)
          (m.setRecords [] (some w))) :
    engine.Follows stack again (declarators kind true none first ds)
      (Dialogue.declarators engine kind ds) := by
  induction ds generalizing first with
  | nil => exact fun _ _ _ => matches_pure _
  | cons d rest ih =>
    obtain ⟨name, init⟩ := d
    have notNone : ¬(none : Option Nat).any (first < ·) = true := by simp
    have later := ih (first + 1) fun slot yields m w placed records => by
      rw [back slot (.inr yields) m w placed records, declarators_skip kind yields.le]
    have store (v : Option Value) : engine.Follows stack again (do
          storeDeclared kind name v
          declarators kind true none (first + 1) rest)
        (do
          Dialogue.silent engine (storeDeclared kind name v)
          Dialogue.declarators engine kind rest) :=
      follows_bind (settled_of_plain fair (simple_storeDeclared kind name v).plain) fun _ => later
    unfold declarators Dialogue.declarators
    rw [if_neg notNone]
    split
    · rename_i operand span _
      refine follows_yield (settled_of_plain fair (simple_yieldOperand operand).plain)
        (fun m w placed records => ?_) fun y => ?_
      · have notAfter : ¬(some first).any (first < ·) = true := by simp
        rw [back first (.inl ⟨rfl, rfl⟩) m w placed records, declarators, if_neg notAfter,
          declarators_passed kind (Nat.lt_succ_self first)]
        exact (eval_yieldAt (Machine.records_setRecords records) _ first span _).trans
          (by rw [Machine.setRecords_setRecords])
      · cases y with
        | value v => exact store (some v)
        | «return» v => exact fun _ _ _ => matches_pure _
    · rename_i e notYield
      split
      · rename_i same
        cases same
        exact absurd rfl (notYield _ _ rfl)
      · rename_i same
        cases same
        exact follows_bind (settled_of_plain fair (Expr.plain e (some name))) fun v =>
          store (some v)
      · contradiction
    · exact store none

theorem follows_declare (fair : engine.Fair) (declaration : Declaration) :
    engine.Follows stack (declare declaration true) (declare declaration true)
      (Dialogue.declarators engine declaration.kind declaration.declarators) := by
  unfold declare
  by_cases any : declaration.declarators.any Declarator.yields
  · simp only [any, Bool.and_self, if_true]
    refine follows_take (follows_declarators fair _ 0 _ fun slot _ m w placed records => ?_)
    rw [takeYield, Answers.eval_takeRecord _ records]
  · simp only [any, Bool.and_false, Bool.false_eq_true, if_false]
    exact follows_declarators fair _ 0 _ fun slot yields => absurd yields.any any

section

variable {E : Bool → List ResumePoint → Prop} {body : Eval σ Completion}
  {d : Dialogue σ Completion}

theorem follows_block (fair : engine.Fair) (scope : BlockScope) (h : engine.Performs E body d) :
    engine.Follows stack (block scope body) (block scope body)
      (Dialogue.block engine scope d) := by
  refine follows_take (follows_bind (settled_of_plain fair (plain_ask (·.lexical))) fun outer =>
    follows_bind (settled_of_plain fair (simple_openBlock scope outer).plain) fun environment =>
      (h.withinSome environment).recorded fun m points w _ records => ?_)
  rw [block, takeScope, Answers.eval_takeRecord _ records]
  rfl

theorem follows_withStatement (fair : engine.Fair) {object : Expr} (h : engine.Performs E body d)
    (span : Span) :
    engine.Follows stack (withStatement (object.eval none) body span)
      (withStatement (object.eval none) body span)
      (Dialogue.withStatement engine object d span) := by
  intro talk m calm
  refine matches_bind (settled_of_plain fair (plain_ask (·.strict))) calm fun b m₁ run _ => ?_
  cases run
  cases strict : m.strict with
  | true =>
    simp only [strict, if_true]
    exact matches_ofExcept (r := .error (.syntaxError .strictWith (some span)))
      (unsuspended_error.2 fun _ => nofun)
  | false =>
    simp only [strict, Bool.false_eq_true, if_false]
    refine follows_take (follows_bind (settled_of_plain fair (Expr.plain object none)) fun v =>
      follows_bind (settled_of_plain fair (simple_toObject v).plain) fun o =>
        follows_bind (settled_of_plain fair (plain_ask (·.lexical))) fun outer =>
          follows_bind (settled_of_plain fair (plain_perform (Effect.plain_enclose _))) fun e =>
            (h.withinSome (some e)).recorded fun m₁ points w placed records => ?_) talk m calm
    have strict₁ : m₁.strict = false := by
      rw [← strict, Machine.strict, Machine.strict, placed.stack, calm.stack]
    rw [withStatement, eval_bind, eval_ask, proceed_ok, strict₁]
    rw [takeScope]
    exact Answers.eval_takeRecord _ records

theorem follows_branch (fair : engine.Fair) {test : Expr} {consequent : Eval σ Completion}
    {alternate : Option (Eval σ Completion)} {d' : Option (Dialogue σ Completion)}
    {E' : Bool → List ResumePoint → Prop}
    (hc : engine.Performs E consequent d) (ha : Option.Rel (engine.Performs E') alternate d') :
    engine.Follows stack (branch (test.eval none) consequent alternate)
      (branch (test.eval none) consequent alternate) (Dialogue.branch engine test d d') := by
  have back {taken : Bool} {x : Eval σ Completion} (m : Machine σ) (points : List ResumePoint)
      (w : Resumption) (records : m.records = some (.branch taken :: points, some w))
      (chosen : (if taken then some consequent else alternate) = some x) :
      engine.total.eval (branch (test.eval none) consequent alternate) m =
        engine.total.eval (recording (.branch taken) x) (m.setRecords points (some w)) := by
    rw [branch, takeBranch, Answers.eval_takeRecord _ records]
    change engine.total.eval (takenBranch taken consequent alternate) _ = _
    rw [takenBranch, chosen]
  refine follows_take (follows_bind (settled_of_plain fair (Expr.plain test none)) fun v => ?_)
  cases v.toBoolean with
  | true =>
    exact hc.recorded fun m points w _ records =>
      back m points w records rfl
  | false =>
    cases ha with
    | none => exact fun _ _ _ => matches_pure _
    | some hx =>
      exact hx.recorded fun m points w _ records =>
        back m points w records rfl

end

section

variable {B H L : Bool → List ResumePoint → Prop} {body : Eval σ Completion}
  {handler : Option (Handler σ)} {finalizer : Option (Eval σ Completion)}
  {d : Dialogue σ Completion} {catching : Option (Option String × Dialogue σ Completion)}
  {finalizing : Option (Dialogue σ Completion)}

theorem follows_runFinalizer (hf : Option.Rel (engine.Performs L) finalizer finalizing)
    (pending : Completion) :
    engine.Follows stack (tryStatement body handler finalizer) (runFinalizer finalizer pending)
      (Dialogue.finalizing finalizing pending) := by
  cases hf with
  | none => exact fun _ _ _ => matches_pure _
  | some hx =>
    refine hx.recording (fun m points w _ records => ?_)
      fun result _ _ _ => matches_pure _
    rw [tryStatement, takeTry, Answers.eval_takeRecord _ records]
    rfl

theorem follows_tryStatement (fair : engine.Fair) (hb : engine.Performs B body d)
    (hh : Option.Rel (fun h p => h.parameter = p.1 ∧ engine.Performs H h.body p.2) handler catching)
    (hf : Option.Rel (engine.Performs L) finalizer finalizing) :
    engine.Follows stack (tryStatement body handler finalizer) (tryStatement body handler finalizer)
      (Dialogue.tryStatement engine d catching finalizing) := by
  have final : ∀ pending, engine.Follows stack (tryStatement body handler finalizer)
      (runFinalizer finalizer pending) _ := follows_runFinalizer hf
  refine follows_take (Follows.congr (hb.recording (fun m points w _ records => ?_)
    fun completion => ?_) fun m => engine.total.eval_bind_assoc ..)
  · rw [tryStatement, takeTry, Answers.eval_takeRecord _ records]
    exact engine.total.eval_bind_assoc ..
  · unfold Dialogue.catching
    cases hh with
    | none => cases completion.kind <;> exact final completion
    | @some h p hx =>
      obtain ⟨parameter, body'⟩ := p
      obtain ⟨rfl, performs⟩ := hx
      cases completion.kind with
      | throw =>
        refine Follows.congr ?_ fun m => engine.total.eval_bind_assoc ..
        rw [Dialogue.bind_assoc]
        refine follows_bind (settled_of_plain fair (simple_openHandler _ _).plain) fun e =>
          (performs.within e).recording (fun m points w _ records => ?_) final
        rw [tryStatement, takeTry, Answers.eval_takeRecord _ records]
        rfl
      | _ => exact final completion

end

def reenterClauses (run : (start : Nat) → (value : Value) → Eval σ Completion) :
    Eval σ Completion := do
  match ← takeSwitch with
  | some (start, value, _) => run start value
  | none => pure .empty

theorem eval_reenterClauses {run : (start : Nat) → (value : Value) → Eval σ Completion} {i : Nat}
    {value : Value} {scope : Option EnvironmentId} {points : List ResumePoint} {w : Resumption}
    (records : m.records = some (.switch i value scope :: points, some w)) :
    engine.total.eval (reenterClauses run) m =
      engine.total.eval (run i value) (m.setRecords points (some w)) := by
  rw [reenterClauses, takeSwitch, Answers.eval_takeRecord _ records]

section

variable (fair : engine.Fair) {cases : List SwitchCase}
  {run : (start : Nat) → (value : Value) → (scope : Option EnvironmentId) → Eval σ Completion}
  {run' : (start : Nat) → Dialogue σ Completion} {E : Bool → Nat → List ResumePoint → Prop}
  (resumes : ∀ fuel strict start value scope,
    Resumes (engine.promises Moment.Orderly fuel) strict (E strict start)
      (LeavesCase (E strict) 0 scope) (run start value scope))
  (follows : ∀ {stack again scope},
    (∀ i value m points w, m.Placed stack →
      m.records = some (.switch i value scope :: points, some w) → engine.total.eval again m =
        engine.total.eval (run i value scope) (m.setRecords points (some w))) →
    ∀ start, engine.Follows stack again (run start .undefined scope) (run' start))

include resumes

theorem turns_reenterClauses (scope : Option EnvironmentId) :
    engine.Turns stack (LeavesCase (E stack.strict) 0 scope) (LeavesCase (E stack.strict) 0 scope)
      (reenterClauses (run · · scope)) := by
  refine turns_of_resumes fun fuel => Resumes.take
    (D := fun a => E stack.strict a.1) ?_ (starts_pure _) fun a _ => resumes fuel _ a.1 a.2.1 scope
  rintro _ ⟨i, value, rest, rfl, fits⟩
  exact ⟨_, _, rest, rfl, rfl, by rwa [Nat.zero_add]⟩

include fair

theorem turns_selectedClauses (v : Value) (scope : Option EnvironmentId) :
    engine.Turns stack (fun _ => False) (LeavesCase (E stack.strict) 0 scope) (do
      match ← selectCase v cases with
      | none => pure (.normal (some .undefined))
      | some start => run start .undefined scope) := by
  refine turns_of_resumes fun fuel => ((simple_selectCase v cases).plain.starts
    (promises_kept fair fuel)).bind fun start => ?_
  cases start with
  | none => exact starts_pure _
  | some start => exact (resumes fuel _ start _ _).starts

omit resumes in
include follows in
theorem follows_selectedClauses (v : Value) {scope : Option EnvironmentId}
    (back : ∀ i value m points w, m.Placed stack →
      m.records = some (.switch i value scope :: points, some w) → engine.total.eval again m =
        engine.total.eval (run i value scope) (m.setRecords points (some w))) :
    engine.Follows stack again (do
        match ← selectCase v cases with
        | none => pure (.normal (some .undefined))
        | some start => run start .undefined scope)
      (do
        match ← Dialogue.silent engine (selectCase v cases) with
        | none => pure (.normal (some .undefined))
        | some start => run' start) := by
  refine follows_bind (settled_of_plain fair (simple_selectCase v cases).plain) fun start => ?_
  cases start with
  | none => exact fun _ _ _ => matches_pure _
  | some start => exact follows back start

include follows

theorem follows_switch (discriminant : Expr) :
    engine.Follows stack (switch (discriminant.eval none) cases run)
      (switch (discriminant.eval none) cases run)
      (Dialogue.switch engine discriminant cases run') := by
  refine follows_take (follows_bind (settled_of_plain fair (Expr.plain discriminant none)) fun v =>
    follows_bind (settled_of_plain fair (plain_ask (·.lexical))) fun outer =>
      follows_bind (settled_of_plain fair (simple_openBlock (switchScope cases) outer).plain)
        fun scope => ?_)
  cases scope with
  | none =>
    refine follows_selectedClauses fair follows v fun i value m points w _ records => ?_
    rw [switch, takeSwitch, Answers.eval_takeRecord _ records]
    rfl
  | some e =>
    intro talk m calm
    refine matches_within (turns_selectedClauses fair resumes v (some e))
      (turns_reenterClauses resumes (some e)) (fun m placed replays => ?_) calm
      (follows_selectedClauses fair follows v (fun i value m points w _ records =>
        eval_reenterClauses records) talk _ (calm.setScope e m.varScope))
    obtain ⟨_, w, records, i, value, rest, rfl, -⟩ := replays
    have records' : (m.setScope e m.varScope).records = _ :=
      (m.records_setScope e m.varScope).trans records
    have same : (m.setRecords rest (some w)).stack = m.stack := Machine.setRecords_stack
    have scope := placed.orderly.scope_eq same
    rw [switch, takeSwitch, Answers.eval_takeRecord _ records, eval_within,
      eval_reenterClauses records', Machine.setRecords_setScope]
    simp only [withinSome]
    rw [eval_within, scope.1, scope.2]

end

section

variable {body : Stmt} {d : Dialogue σ Completion} (fair : engine.Fair)
  (h : engine.Performs (fun strict => body.Fits strict) (body.eval engine.shortcuts []) d)

include fair h

theorem follows_whileStatement (test : Expr) (labels : List String) :
    engine.Follows stack (whileStatement test body labels) (whileStatement test body labels)
      (Dialogue.rounds (Dialogue.round engine d)
        (.whileLoop test body labels .undefined false)) := by
  refine follows_take (follows_loop fair (fun m value environment points w _ records => ?_)
    (follows_round fair (l := .whileLoop test body labels .undefined false) ⟨0⟩ nofun h) .undefined ⟨0⟩)
  rw [whileStatement, takeLoop, Answers.eval_takeRecord _ records]
  rfl

theorem follows_doWhileStatement (test : Expr) (labels : List String) :
    engine.Follows stack (doWhileStatement body test labels) (doWhileStatement body test labels)
      (Dialogue.rounds (Dialogue.round engine d) (.doWhile body test labels .undefined)) := by
  refine follows_take (follows_loop fair (fun m value environment points w _ records => ?_)
    (follows_round fair (l := .doWhile body test labels .undefined) ⟨0⟩ nofun h) .undefined ⟨0⟩)
  rw [doWhileStatement, takeLoop, Answers.eval_takeRecord _ records]
  rfl

theorem follows_forStatement (init : ForInit) (test update : Option Expr) (labels : List String) :
    engine.Follows stack (forStatement init test update body labels)
      (forStatement init test update body labels)
      (Dialogue.forStatement engine init test update body labels
        (Dialogue.rounds (Dialogue.round engine d))) := by
  intro talk m calm
  refine matches_bind (settled_of_plain fair (plain_ask (·.lexical))) calm fun outer m₁ run _ => ?_
  cases run
  refine follows_take (follows_bind (settled_of_plain fair (simple_forInit init m.lexical).plain)
    fun head => follows_bind (settled_of_plain fair (simple_copyBindings head (copiedNames init)).plain)
      fun environment => follows_loop fair (fun m₁ value scope points w placed records => ?_)
        (follows_round fair (l := .forLoop {
          test, update, body, copied := copiedNames init, labels, outer := m.lexical, environment
          value := .undefined, resuming := false }) m.lexical (by rintro _ ⟨⟩; rfl) h)
        .undefined environment) talk m calm
  -- the loop runs in the scope that it was started in
  have same := calm.orderly.scope_eq (placed.stack.trans calm.stack.symm)
  rw [forStatement, eval_bind, eval_ask, proceed_ok, takeLoop,
    Answers.eval_takeRecord _ records, same.1]
  rfl

end

omit again in
theorem plain_settle {r : Except Fault Completion} (h : Unsuspended r) (span : Span) :
    Plain (settle span r : Eval σ Completion) := by
  cases r with
  | ok completion => exact plain_pure _
  | error fault =>
    have refused : Plain (throw fault : Eval σ Completion) := plain_throw (unsuspended_error.1 h)
    have value := (simple_faultValue (σ := σ) fault).plain
    unfold settle
    grind

theorem eval_listed (limits : m.limits = []) (index : Nat) (last : Option Value) (span : Span)
    (x : Eval σ Completion) (f : Completion → Eval σ Completion) :
    engine.total.eval (listed index last span x >>= f) m =
      engine.total.eval (outcome (recording (.list index last) x) >>= fun r =>
        settle span r >>= f) m := by
  have checked : Effect.checkLimits.apply m = (.ok (), m) := by
    simp only [Effect.apply, limits, Limit.checkAll]
    rw [← limits]
  rw [listed, Answers.eval_bind_assoc, eval_bind, eval_attempt, checked,
    proceed_ok, Answers.eval_bind_assoc]

omit again in
theorem settle_hostAbort {fault : Fault} (abort : fault.isHostAbort = true) (span : Span) :
    settle span (.error fault) = (throw fault : Eval σ Completion) := by
  simp [settle, abort]

theorem follows_listed (fair : engine.Fair) {E : Bool → List ResumePoint → Prop}
    {x : Eval σ Completion} {d : Dialogue σ Completion} (h : engine.Performs E x d) {index : Nat}
    {last : Option Value} {span : Span} {f : Completion → Eval σ Completion}
    {g : Completion → Dialogue σ Completion}
    (back : ∀ m points w, m.Placed stack → m.records = some (.list index last :: points, some w) →
      engine.total.eval again m = engine.total.eval (listed index last span x >>= f)
        (m.setRecords points (some w)))
    (rest : ∀ completion, engine.Follows stack again (f completion) (g completion)) :
    engine.Follows stack again (listed index last span x >>= f)
      (Dialogue.settled engine span d >>= g) := by
  have handled : Dialogue.settled engine span d >>= g =
      d.handle fun r => Dialogue.silent engine (settle span r) >>= g := by
    funext fuel talk m
    change ((d fuel talk m).andThen _).andThen _ = (d fuel talk m).andThen _
    cases d fuel talk m <;> rfl
  intro talk m calm
  rw [handled]
  refine Matches.congr (matches_handle (h.turns stack) (marks_recording _ x) (fun v => ?_)
    (fun fault abort => ?_) (fun m points w placed records _ => ?_) calm
    (h.follows stack talk m calm) fun r talk' m' unsuspended calm' => ?_)
    (eval_listed calm.limits index last span x f)
  · rfl
  · rw [settle_hostAbort abort]
    exact ⟨rfl, rfl⟩
  · rw [back m points w placed records, eval_listed (placed.setRecords points (some w)).limits]
  · exact matches_bind (settled_of_plain fair (plain_settle unsuspended span)) calm'
      fun completion m'' _ calm'' => rest completion talk' m'' calm''

end Engine

theorem evalFrom_cons (shortcuts : Bool) (s : Stmt) (rest : List Stmt) (index : Nat)
    (last : Option Value) :
    (evalFrom shortcuts (s :: rest) index 0 last : Eval σ Completion) = (do
      let completion ← listed index last s.span (s.eval shortcuts [])
      andThen last completion (evalFrom shortcuts rest (index + 1) 0)) := by
  unfold evalFrom
  refine congrArg (listed index last s.span · >>= _) ?_
  cases shortcuts with
  | false => rfl
  | true =>
    unfold Stmt.knownCompletion?
    fun_cases Stmt.shortcut? s <;> rfl

section

variable {engine : Engine σ} (fair : engine.Fair)

include fair

open Engine

theorem performs_statements {body : List Stmt}
    (h : ∀ stack again index last,
      (∀ i last m points w, m.Placed stack →
        m.records = some (.list (index + i) last :: points, some w) →
        engine.total.eval again m = engine.total.eval
          (evalFrom engine.shortcuts body index i last) (m.setRecords points (some w))) →
      engine.Follows stack again (evalFrom engine.shortcuts body index 0 last)
        (inPlaceFrom engine body last)) :
    engine.Performs (fun strict => InList (fitsAt strict body))
      (list (evalFrom engine.shortcuts body 0)) (inPlaceFrom engine body none) := by
  refine ⟨fun fuel strict => resumes_statements
    (promises_kept fair fuel) strict engine.shortcuts body, fun stack =>
      follows_take (h stack _ 0 none fun i last m points w _ records => ?_)⟩
  rw [Nat.zero_add] at records
  rw [list, takeList, Answers.eval_takeRecord _ records]

theorem performs_block {E : Bool → List ResumePoint → Prop} {body : Eval σ Completion}
    {d : Dialogue σ Completion} (h : engine.Performs E body d) (scope : BlockScope) :
    engine.Performs (fun strict => InScope (E strict)) (block scope body)
      (Dialogue.block engine scope d) :=
  ⟨fun fuel strict => ((promises_kept fair fuel).discipline strict).block (T := fun _ => True) scope
    (h.resumes fuel strict),
    fun _ => follows_block fair scope h⟩

mutual

theorem Stmt.follows (s : Stmt) (labels : List String) (stack : CallStack) :
    engine.Follows stack (s.eval engine.shortcuts labels) (s.eval engine.shortcuts labels)
      (s.inPlace engine labels) := by
  have performs (s : Stmt) (labels : List String)
      (h : ∀ stack, engine.Follows stack (s.eval engine.shortcuts labels)
        (s.eval engine.shortcuts labels) (s.inPlace engine labels)) :
      engine.Performs (fun strict => s.Fits strict) (s.eval engine.shortcuts labels)
        (s.inPlace engine labels) :=
    ⟨fun fuel strict => Stmt.resumes (promises_kept fair fuel) strict engine.shortcuts s labels, h⟩
  cases s with simp only [Stmt.eval, Stmt.inPlace]
  | declare declaration =>
    exact follows_declare fair declaration
  | expression e span =>
    exact follows_expressionStatement fair e
  | «return» argument span =>
    exact follows_returnStatement fair argument
  | block body span =>
    exact follows_block fair _ (performs_statements fair (evalFrom_follows body))
  | branch test consequent alternate span =>
    have other : Option.Rel (engine.Performs fun strict => fitsOption strict alternate)
        (evalOption engine.shortcuts alternate) (inPlaceOption engine alternate) := by
      cases alternate with
      | none => exact .none
      | some s => exact .some (performs s [] (Stmt.follows s []))
    exact follows_branch fair (performs consequent [] (Stmt.follows consequent [])) other
  | switch discriminant cases span =>
    refine follows_switch fair (fun fuel strict start value scope =>
      evalCases_resumes (promises_kept fair fuel) strict engine.shortcuts cases 0 start value scope)
      (fun back start => evalCases_follows cases _ _ _ 0 start .undefined ?_) discriminant
    intro i value m points w placed records
    rw [Nat.zero_add] at records
    exact back i value m points w placed records
  | forLoop init test update body span =>
    exact follows_forStatement fair (performs body [] (Stmt.follows body [])) init test update labels
  | whileLoop test body span =>
    exact follows_whileStatement fair (performs body [] (Stmt.follows body [])) test labels
  | doWhile body test span =>
    exact follows_doWhileStatement fair (performs body [] (Stmt.follows body [])) test labels
  | tryCatch body handler finalizer span =>
    refine follows_tryStatement fair
      (performs_block fair (performs_statements fair (evalFrom_follows body)) _)
      (H := fun strict => fitsHandler strict handler)
      (L := fun strict => fitsFinalizer strict finalizer) ?_ ?_
    · cases handler with
      | none => exact .none
      | some handler =>
        obtain ⟨parameter, body⟩ := handler
        exact .some ⟨rfl,
          performs_block fair (performs_statements fair (evalFrom_follows body)) _⟩
    · cases finalizer with
      | none => exact .none
      | some body =>
        exact .some (performs_block fair (performs_statements fair (evalFrom_follows body)) _)
  | withObject e body span =>
    exact follows_withStatement fair (performs body [] (Stmt.follows body [])) span
  | labelled label body span =>
    have inner := performs body (labels ++ [label]) (Stmt.follows body (labels ++ [label]))
    exact fun talk m calm => matches_then (inner.turns stack) (marks_self _)
      (fun m points w _ records => congrArg _ (Machine.setRecords_self records).symm) calm
      (inner.follows stack talk m calm) fun _ _ _ _ => matches_pure _
  | classDecl node =>
    exact fun _ _ calm => matches_silent (settled_of_plain fair (simple_classDeclaration node).plain) calm
  | throw argument span =>
    exact follows_bind (settled_of_plain fair (Expr.plain argument none))
      fun _ _ _ _ => matches_pure _
  | functionDecl | «break» | «continue» | empty | debugger =>
    exact fun _ _ _ => matches_pure _

theorem evalFrom_follows (body : List Stmt) (stack : CallStack) (again : Eval σ Completion)
    (index : Nat) (last : Option Value)
    (back : ∀ i last m points w, m.Placed stack →
      m.records = some (.list (index + i) last :: points, some w) →
      engine.total.eval again m = engine.total.eval
        (evalFrom engine.shortcuts body index i last) (m.setRecords points (some w))) :
    engine.Follows stack again (evalFrom engine.shortcuts body index 0 last)
      (inPlaceFrom engine body last) := by
  match body with
  | [] =>
    unfold evalFrom inPlaceFrom
    exact fun _ _ _ => matches_pure _
  | s :: rest =>
    have performs : engine.Performs (fun strict => s.Fits strict) (s.eval engine.shortcuts [])
        (s.inPlace engine []) :=
      ⟨fun fuel strict => Stmt.resumes (promises_kept fair fuel) strict engine.shortcuts s [],
        Stmt.follows s []⟩
    have later := evalFrom_follows rest stack again (index + 1)
    rw [evalFrom_cons]
    unfold inPlaceFrom
    refine follows_listed fair performs (fun m points w placed records => ?_) fun completion => ?_
    · rw [back 0 last m points w placed records, evalFrom_cons]
    · unfold andThen
      split
      · exact fun _ _ _ => matches_pure _
      · refine later _ fun i last m points w placed records => ?_
        rw [Nat.add_right_comm, Nat.add_assoc] at records
        rw [back (i + 1) last m points w placed records]
        simp only [evalFrom]

theorem evalCases_follows (cases : List SwitchCase) (stack : CallStack)
    (again : Eval σ Completion) (scope : Option EnvironmentId) (index skip : Nat) (value : Value)
    (back : ∀ i value m points w, m.Placed stack →
      m.records = some (.switch (index + i) value scope :: points, some w) →
      engine.total.eval again m = engine.total.eval
        (evalCases engine.shortcuts cases index i value scope) (m.setRecords points (some w))) :
    engine.Follows stack again (evalCases engine.shortcuts cases index skip value scope)
      (inPlaceCases engine cases skip value) := by
  match cases, skip with
  | [], _ =>
    unfold evalCases inPlaceCases
    exact fun _ _ _ => matches_pure _
  | ⟨test, body⟩ :: rest, skip =>
    have later (skip : Nat) (value : Value) :=
      evalCases_follows rest stack again scope (index + 1) skip value
        fun i value m points w placed records => by
          rw [Nat.add_right_comm, Nat.add_assoc] at records
          rw [back (i + 1) value m points w placed records]
          simp only [evalCases]
    cases skip with
    | succ skip =>
      unfold evalCases inPlaceCases
      exact later skip value
    | zero =>
      have performs := performs_statements fair (evalFrom_follows body)
      unfold evalCases inPlaceCases
      refine performs.recording (fun m points w placed records => ?_) fun completion => ?_
      · rw [back 0 value m points w placed records]
        simp only [evalCases]
      · dsimp only
        split
        · exact fun _ _ _ => matches_pure _
        · exact later 0 _

end

theorem FunctionNode.follows (node : FunctionNode) (stack : CallStack) :
    engine.Follows stack (node.run engine.shortcuts) (node.run engine.shortcuts)
      (node.inPlace engine) := by
  unfold FunctionNode.run FunctionNode.inPlace
  cases node.body with
  | block statements =>
    exact (performs_statements fair (evalFrom_follows fair statements)).follows stack
  | concise e =>
    have plain : Plain (do
        let v ← e.eval none
        pure (.returning v) : Eval σ Completion) :=
      plain_bind (Expr.plain e none) fun _ => plain_pure _
    have turns : engine.Turns stack (fun _ => False) (fun _ => False) (do
        let v ← e.eval none
        pure (.returning v) : Eval σ Completion) :=
      turns_of_resumes fun fuel => plain.starts (promises_kept fair fuel)
    intro talk m calm
    refine matches_handle turns (marks_self _) (fun v => ?_) (fun fault abort => ?_)
      (fun _ _ _ _ _ fits => fits.elim) calm ?_ fun r talk' m' unsuspended calm' => ?_
    · rfl
    · rw [settle_hostAbort abort]
      exact ⟨rfl, rfl⟩
    · exact matches_bind (settled_of_plain fair (Expr.plain e none)) calm fun _ _ _ _ =>
        matches_pure _
    · exact matches_silent (settled_of_plain fair (plain_settle unsuspended e.span)) calm'

end

end ScriptEngine
