import ScriptEngine.Proofs.Pledges.Session

/-!
# Sessions

A host starts an engine and then runs programs, calls and constructs functions and drives
generators, in any order. In between it may change the options, the limits and its own state.
-/

namespace ScriptEngine

variable {σ α : Type}

def Operation.WellFormed : Operation α → Prop
  | .run program | .eval program => program.wellFormed = true
  | .call .. | .construct .. | .drive .. => True
  | .statement .. | .expression .. => False

inductive Engine.Serves (engine : Engine σ) : Machine σ → Prop where
  | start (options : Options) (host : σ) : engine.Serves (engine.start options host)
  | operate {α : Type} {m m' : Machine σ} (operation : Operation α) {fuel : Nat}
      {r : Except Fault α} (before : engine.Serves m) (allowed : operation.WellFormed)
      (run : engine.run fuel (operation.evaluate engine) m = .finished r m') : engine.Serves m'
  | adjust {m m' : Machine σ} (before : engine.Serves m) (h : m.Adjusted m') : engine.Serves m'

/-! ## Well formed trees are tidy -/

theorem Bool.and_imp_and {a b a' b' : Bool} (first : a = true → a' = true)
    (second : b = true → b' = true) (h : (a && b) = true) : (a' && b') = true :=
  Bool.and_eq_true_iff.2 ((Bool.and_eq_true_iff.1 h).imp first second)

mutual

theorem Expr.tidy_of_wellFormed : (e : Expr) → e.wellFormed = true → e.tidy false = true
  | .literal .., _ | .identifier .., _ | .thisValue _, _ => rfl
  | .object properties _, h => tidyProperties_of_wellFormed properties h
  | .function node, h => node.tidy_of_wellFormed h
  | .classDef node, h => node.tidy_of_wellFormed h
  | .unary _ argument _, h => argument.tidy_of_wellFormed h
  | .binary _ left right _, h | .logical _ left right _, h =>
    Bool.and_imp_and left.tidy_of_wellFormed right.tidy_of_wellFormed h
  | .conditional test consequent alternate _, h =>
    Bool.and_imp_and (Bool.and_imp_and test.tidy_of_wellFormed consequent.tidy_of_wellFormed)
      alternate.tidy_of_wellFormed h
  | .assign _ target value _, h =>
    Bool.and_imp_and target.tidy_of_wellFormed value.tidy_of_wellFormed h
  | .update _ _ target _, h => target.tidy_of_wellFormed h
  | .sequence expressions _, h => tidyExprs_of_wellFormed expressions h
  | .member object key _, h => Bool.and_imp_and object.tidy_of_wellFormed key.tidy_of_wellFormed h
  | .call callee arguments _, h | .construct callee arguments _, h =>
    Bool.and_imp_and callee.tidy_of_wellFormed (tidyExprs_of_wellFormed arguments) h
  | .superCall arguments _, h => tidyExprs_of_wellFormed arguments h
  | .superMember key _, h => key.tidy_of_wellFormed h
  | .yield argument _, h => tidyExpr?_of_wellFormed argument h

theorem Key.tidy_of_wellFormed : (key : Key) → key.wellFormed = true → key.tidy false = true
  | .name _, _ => rfl
  | .computed expression, h => expression.tidy_of_wellFormed h

theorem Target.tidy_of_wellFormed : (t : Target) → t.wellFormed = true → t.tidy false = true
  | .identifier _, _ => rfl
  | .member object key, h => Bool.and_imp_and object.tidy_of_wellFormed key.tidy_of_wellFormed h

theorem tidyExprs_of_wellFormed : (es : List Expr) → wellFormedExprs es = true →
    tidyExprs false es = true
  | [], _ => rfl
  | e :: rest, h => Bool.and_imp_and e.tidy_of_wellFormed (tidyExprs_of_wellFormed rest) h

theorem tidyExpr?_of_wellFormed : (e : Option Expr) → wellFormedExpr? e = true →
    tidyExpr? false e = true
  | none, _ => rfl
  | some e, h => e.tidy_of_wellFormed h

theorem tidyProperties_of_wellFormed : (ps : List PropertyNode) → wellFormedProperties ps = true →
    tidyProperties false ps = true
  | [], _ => rfl
  | ⟨key, value, _⟩ :: rest, h =>
    Bool.and_imp_and (Bool.and_imp_and key.tidy_of_wellFormed value.tidy_of_wellFormed)
      (tidyProperties_of_wellFormed rest) h

theorem FunctionNode.tidy_of_wellFormed : (node : FunctionNode) → node.wellFormed = true →
    node.tidy false = true
  | ⟨_, parameters, body, _, _, _, _⟩, h =>
    Bool.and_imp_and (tidyParameters_of_wellFormed parameters) body.tidy_of_wellFormed h

theorem tidyParameters_of_wellFormed : (ps : List Parameter) → wellFormedParameters ps = true →
    tidyParameters false ps = true
  | [], _ => rfl
  | ⟨_, fallback⟩ :: rest, h =>
    Bool.and_imp_and (tidyExpr?_of_wellFormed fallback) (tidyParameters_of_wellFormed rest) h

theorem Body.tidy_of_wellFormed : (body : Body) → body.wellFormed = true → body.tidy false = true
  | .block statements, h => tidyList_of_wellFormed statements h
  | .concise expression, h => expression.tidy_of_wellFormed h

theorem ClassNode.tidy_of_wellFormed : (node : ClassNode) → node.wellFormed = true →
    node.tidy false = true
  | ⟨_, parent, constructor, methods, _⟩, h =>
    Bool.and_imp_and (Bool.and_imp_and (tidyExpr?_of_wellFormed parent)
      (tidyConstructor_of_wellFormed constructor)) (tidyMethods_of_wellFormed methods) h

theorem tidyConstructor_of_wellFormed : (node : Option FunctionNode) →
    wellFormedConstructor node = true → tidyConstructor false node = true
  | none, _ => rfl
  | some node, h => node.tidy_of_wellFormed (Bool.and_eq_true_iff.1 h).2

theorem tidyMethods_of_wellFormed : (ms : List MethodNode) → wellFormedMethods ms = true →
    tidyMethods false ms = true
  | [], _ => rfl
  | ⟨_, function, _⟩ :: rest, h =>
    Bool.and_imp_and function.tidy_of_wellFormed (tidyMethods_of_wellFormed rest) h

theorem Stmt.tidy_of_wellFormed (listed : Bool) : (s : Stmt) → s.wellFormed listed = true →
    s.tidy false listed = true
  | .declare declaration, h => Bool.and_imp_and id declaration.tidy_of_wellFormed h
  | .functionDecl node, h => Bool.and_imp_and id node.tidy_of_wellFormed h
  | .classDecl node, h => Bool.and_imp_and id node.tidy_of_wellFormed h
  | .block body _, h => tidyList_of_wellFormed body h
  | .branch test consequent alternate _, h =>
    Bool.and_imp_and (Bool.and_imp_and test.tidy_of_wellFormed (consequent.tidy_of_wellFormed false))
      (tidyStmt?_of_wellFormed alternate) h
  | .switch discriminant cases _, h =>
    Bool.and_imp_and (fun h => Bool.and_eq_true_iff.2 ⟨discriminant.tidy_of_wellFormed h, rfl⟩)
      (tidyCases_of_wellFormed cases) h
  | .forLoop init test update body _, h =>
    Bool.and_imp_and (Bool.and_imp_and (Bool.and_imp_and init.tidy_of_wellFormed
      (tidyExpr?_of_wellFormed test)) (tidyExpr?_of_wellFormed update))
        (body.tidy_of_wellFormed false) h
  | .whileLoop test body _, h | .doWhile body test _, h =>
    Bool.and_imp_and test.tidy_of_wellFormed (body.tidy_of_wellFormed false) h
  | .tryCatch block handler finalizer _, h =>
    Bool.and_imp_and (Bool.and_imp_and (tidyList_of_wellFormed block)
      (tidyHandler_of_wellFormed handler)) (tidyFinalizer_of_wellFormed finalizer) h
  | .withObject object body _, h =>
    Bool.and_imp_and object.tidy_of_wellFormed (body.tidy_of_wellFormed false) h
  | .return argument _, h => tidyExpr?_of_wellFormed argument h
  | .throw argument _, h => argument.tidy_of_wellFormed h
  | .expression expression _, h => expression.tidy_of_wellFormed h
  | .labelled _ body _, h => body.tidy_of_wellFormed false h
  | .break .., _ | .continue .., _ | .empty _, _ | .debugger _, _ => rfl

theorem tidyList_of_wellFormed : (body : List Stmt) → wellFormedList body = true →
    tidyList false body = true
  | [], _ => rfl
  | s :: rest, h =>
    Bool.and_imp_and (s.tidy_of_wellFormed true) (tidyList_of_wellFormed rest) h

theorem tidyStmt?_of_wellFormed : (s : Option Stmt) → wellFormedStmt? s = true →
    tidyStmt? false s = true
  | none, _ => rfl
  | some s, h => s.tidy_of_wellFormed false h

theorem Declaration.tidy_of_wellFormed : (d : Declaration) → d.wellFormed = true →
    d.tidy false = true
  | ⟨_, declarators, _⟩, h => tidyDeclarators_of_wellFormed declarators h

theorem tidyDeclarators_of_wellFormed : (ds : List Declarator) → wellFormedDeclarators ds = true →
    tidyDeclarators false ds = true
  | [], _ => rfl
  | ⟨_, init⟩ :: rest, h =>
    Bool.and_imp_and (tidyExpr?_of_wellFormed init) (tidyDeclarators_of_wellFormed rest) h

theorem tidyCases_of_wellFormed : (cases : List SwitchCase) → wellFormedCases cases = true →
    tidyCases false cases = true
  | [], _ => rfl
  | ⟨test, body⟩ :: rest, h =>
    Bool.and_imp_and (Bool.and_imp_and (tidyExpr?_of_wellFormed test) (tidyList_of_wellFormed body))
      (tidyCases_of_wellFormed rest) h

theorem ForInit.tidy_of_wellFormed : (init : ForInit) → init.wellFormed = true →
    init.tidy false = true
  | .none, _ => rfl
  | .declaration declaration, h => declaration.tidy_of_wellFormed h
  | .expression expression, h => expression.tidy_of_wellFormed h

theorem tidyHandler_of_wellFormed : (handler : Option CatchClause) →
    wellFormedHandler handler = true → tidyHandler false handler = true
  | none, _ => rfl
  | some ⟨_, body⟩, h => tidyList_of_wellFormed body h

theorem tidyFinalizer_of_wellFormed : (finalizer : Option (List Stmt)) →
    wellFormedFinalizer finalizer = true → tidyFinalizer false finalizer = true
  | none, _ => rfl
  | some body, h => tidyList_of_wellFormed body h

end

theorem Program.tidy_of_wellFormed {program : Program} (h : program.wellFormed = true) :
    program.tidy false = true :=
  tidyList_of_wellFormed program.body h

theorem Object.intact_of_given {object : Object} (given : object.kind.Given 0)
    {callable : Callable} (found : object.callable? = some callable) {s : Store} :
    callable.Intact s := by
  unfold Object.callable? at found
  generalize object.kind = kind at given found
  cases given with
  | ordinary => cases found
  | @native f within =>
    cases found
    cases code : f.code with
    | builtin builtin => exact ⟨builtin, code⟩
    | host index => exact absurd (within index code) (Nat.not_lt_zero index)

namespace Engine

variable {engine : Engine σ}

theorem start_intact (builtins : engine.host = []) (options : Options) (host : σ) :
    (engine.start options host).Intact := by
  have scopes := engine.start_environments options host
  have only {e : EnvironmentId} (has : (engine.start options host).store.Has e) : e = ⟨0⟩ := by
    obtain ⟨index⟩ := e
    simp only [Store.Has, scopes, List.size_toArray, List.length_singleton] at has
    obtain rfl : index = 0 := by omega
    rfl
  have record : ((engine.start options host).store.environment ⟨0⟩).record =
      .global { object := (engine.start options host).realm.global } := by
    simp [Store.environment, scopes]
  refine ⟨⟨⟨_, record⟩, fun e has other => absurd (only has) other, fun e has => ?_,
    fun o callable found => ?_⟩, engine.start_globalEnvironment options host, ?_,
    fun g generator hg => ?_⟩
  · rw [only has, record]
    trivial
  · have given := engine.start_given options host o
    rw [builtins] at given
    exact Object.intact_of_given given found
  · rw [Machine.lexical, start_stack]
    exact ⟨by simp [CallStack.running?, Store.Has, scopes],
      fun running => absurd (engine.start_free options host) running⟩
  · simp [Machine.generator?, start_generators] at hg

end Engine

theorem Operation.WellFormed.asks {operation : Operation α} (h : operation.WellFormed) :
    operation.Asks { once := false, sound := true } := by
  cases operation with
  | run program | eval program => exact ⟨Program.tidy_of_wellFormed h, fun _ => h⟩
  | statement | expression => cases h
  | _ => trivial

theorem Operation.WellFormed.ready {operation : Operation α} (h : operation.WellFormed)
    (m : Machine σ) : operation.Ready m := by
  cases operation with
  | statement => cases h
  | _ => trivial

namespace Engine

variable {engine : Engine σ} {m : Machine σ}

theorem safe_sound (tidy : m.Tidy { once := false, sound := true }) {operation : Operation α}
    (allowed : operation.WellFormed) (fuel : Nat) :
    (operation.evaluate engine).Safe (Moment.Watched { once := false, sound := true })
      (engine.promises (Moment.Watched { once := false, sound := true }) fuel) m
        (m.Operates { once := false, sound := true } operation.rights) := by
  have intact := tidy.intact rfl
  obtain ⟨r, global⟩ := intact.store.global
  refine Operation.operates (promises_fulfilled (fun unsound => Bool.noConfusion unsound) fuel) allowed.asks engine tidy (allowed.ready m)
    ⟨?_, fun _ => intact.realm, fun _ _ => trivial⟩
  rw [intact.realm]
  exact ⟨Store.has_of_global global, by rw [global]; rfl, .inl trivial⟩

theorem Serves.tidy (builtins : engine.host = []) (serves : engine.Serves m) : m.Tidy { once := false, sound := true } := by
  induction serves with
  | start options host =>
    exact { engine.start_tidy options host false with
      intact := fun _ => engine.start_intact builtins options host }
  | operate operation _ allowed run ih =>
    exact (engine.safe_result run (safe_sound ih allowed _)).tidy
  | adjust _ h ih => exact ih.adjusted h

end Engine

/-- No operation of a session ends in an internal error. -/
theorem internal_unreachable {engine : Engine σ} (builtins : engine.host = []) {m m' : Machine σ}
    (serves : engine.Serves m) {operation : Operation α} (allowed : operation.WellFormed)
    {fuel : Nat} {r : Except Fault α}
    (run : engine.run fuel (operation.evaluate engine) m = .finished r m')
    (breach : InternalIssue) : r ≠ .error (.internal breach) :=
  (engine.safe_result run (Engine.safe_sound (serves.tidy builtins) allowed fuel)).benign rfl
    breach

/-- The first program of a session is `{ const x = true; x; }`. -/
theorem internal_unreachable_block :
    let engine : Engine Unit := {}
    let program : Program :=
      { body := [.block
          [.declare
            { kind := .const
              declarators := [{ name := "x", init := some (.literal (.boolean true) {}) }]
              span := {} },
           .expression (.identifier "x" {}) {}] {}]
        strict := false
        span := {} }
    let operation : Operation Value := .eval program
    ∃ r m', engine.run 0 (operation.evaluate engine) (engine.start {} ()) = .finished r m' ∧
      r = .ok (.boolean true) ∧ ∀ breach, r ≠ .error (.internal breach) := by
  intro engine program operation
  have ends : ((engine.run 0 (operation.evaluate engine) (engine.start {} ())).andThen fun r _ =>
      .finished r Machine.bare) = .finished (.ok (.boolean true)) Machine.bare := by
    have global := Setup.all_globalEnvironment engine.host { objects := #[] }
    unfold Engine.start
    generalize Setup.all engine.host { objects := #[] } = setup at global
    obtain ⟨⟨_, _, _, _, _, globalEnvironment⟩, heap⟩ := setup
    cases global
    cbv
  obtain ⟨r, m', run, same⟩ := Outcome.andThen_eq_finished.1 ends
  cases same
  have allowed : operation.WellFormed := by
    change program.wellFormed = true
    rfl
  exact ⟨_, m', run, rfl, internal_unreachable rfl (.start {} ()) allowed run⟩

end ScriptEngine
