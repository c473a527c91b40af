import ScriptEngine.Proofs.Simple.Expression

/-!
# Declarations are simple

So are the parts of statements, calls and scripts that open scopes and bind names, and the helpers
of the builtin functions. A bound function is the one object that is not made by a simple evaluation.
-/

namespace ScriptEngine

variable {σ : Type}

namespace Eval

variable (scope : EnvironmentId) (functions : List FunctionNode) (names : List String)

/-! ## Parts of statements -/

@[grind .]
theorem simple_yieldOperand (operand : Option Expr) :
    Simple (yieldOperand operand : Eval σ Value) := by
  unfold yieldOperand
  grind

@[grind .]
theorem simple_assignTo (target : Target) (v : Value) : Simple (assignTo target v : Eval σ Unit) := by
  unfold assignTo
  grind

@[grind .]
theorem simple_createLexical (name : String) (constant : Bool) :
    Simple (createLexical scope name constant : Eval σ Unit) := by
  unfold createLexical
  grind

@[grind .]
theorem simple_initLexical (name : String) (constant : Bool) (v : Value) :
    Simple (initLexical name constant v : Eval σ Unit) := by
  unfold initLexical
  grind

@[grind .]
theorem simple_storeDeclared (kind : VariableKind) (name : String) (v : Option Value) :
    Simple (storeDeclared kind name v : Eval σ Unit) := by
  unfold storeDeclared
  grind

theorem simple_declarators (kind : VariableKind) (resumed : Option Nat) (slot : Nat)
    (ds : List Declarator) :
    Simple (declarators kind false resumed slot ds : Eval σ Completion) := by
  induction ds generalizing slot with
  | nil => exact simple_pure _
  | cons d rest ih =>
    obtain ⟨name, init⟩ := d
    unfold declarators
    grind

@[grind .]
theorem simple_declare (declaration : Declaration) :
    Simple (declare declaration false : Eval σ Completion) :=
  .bind (simple_pure _) fun _ => simple_declarators _ _ _ _

@[grind .]
theorem simple_classDeclaration (node : ClassNode) :
    Simple (classDeclaration node : Eval σ Completion) := by
  unfold classDeclaration
  grind

/-! ## Scopes of blocks and loops -/

@[grind .]
theorem simple_createLexicals (names : List LexicalName) :
    Simple (createLexicals scope names : Eval σ Unit) := by
  induction names with
  | nil => exact simple_pure ()
  | cons x rest ih => exact .bind (simple_createLexical _ _ _) fun _ => ih

@[grind .]
theorem simple_createFunctionNames :
    Simple (createFunctionNames scope functions : Eval σ Unit) := by
  induction functions with
  | nil => exact simple_pure ()
  | cons f rest ih =>
    unfold createFunctionNames
    grind

@[grind .]
theorem simple_createFunctions : Simple (createFunctions scope functions : Eval σ Unit) := by
  induction functions with
  | nil => exact simple_pure ()
  | cons f rest ih =>
    unfold createFunctions
    grind

@[grind .]
theorem simple_openBlock (scope : BlockScope) (outer : EnvironmentId) :
    Simple (openBlock scope outer : Eval σ (Option EnvironmentId)) := by
  unfold openBlock
  grind

@[grind .]
theorem simple_matchingCase (discriminant : Value) (index : Nat) (cases : List SwitchCase) :
    Simple (matchingCase discriminant index cases : Eval σ (Option Nat)) := by
  induction cases generalizing index with
  | nil => exact simple_pure none
  | cons clause rest ih =>
    obtain ⟨test, body⟩ := clause
    cases test with
    | none => exact ih (index + 1)
    | some test =>
      unfold matchingCase
      grind

@[grind .]
theorem simple_selectCase (discriminant : Value) (cases : List SwitchCase) :
    Simple (selectCase discriminant cases : Eval σ (Option Nat)) := by
  unfold selectCase
  grind

theorem simple_copyInto (last e : EnvironmentId) (names : List String) :
    Simple (copyBindings.copyInto last e names : Eval σ Unit) := by
  induction names with
  | nil => exact simple_pure ()
  | cons name rest ih =>
    unfold copyBindings.copyInto
    grind

@[grind .]
theorem simple_copyBindings (last : EnvironmentId) (names : List String) :
    Simple (copyBindings last names : Eval σ EnvironmentId) := by
  unfold copyBindings
  grind [simple_copyInto]

@[grind .]
theorem simple_forInit (init : ForInit) (outer : EnvironmentId) :
    Simple (forInit init outer : Eval σ EnvironmentId) := by
  unfold forInit
  grind

@[grind .]
theorem simple_holds (test : Option Expr) : Simple (Loop.holds test : Eval σ Bool) := by
  unfold Loop.holds
  grind

@[grind .]
theorem simple_openHandler (parameter : Option String) (thrown : Value) :
    Simple (openHandler parameter thrown : Eval σ EnvironmentId) := by
  unfold openHandler
  grind

/-! ## Calls -/

@[grind .]
theorem simple_bindThis (closure : Closure) (scope : EnvironmentId) (this : Value) :
    Simple (bindThis closure scope this : Eval σ Unit) := by
  unfold bindThis
  grind

@[grind .]
theorem simple_createMissing : Simple (createMissing scope names : Eval σ Unit) := by
  induction names with
  | nil => exact simple_pure ()
  | cons name rest ih =>
    unfold createMissing
    grind

@[grind .]
theorem simple_argumentFor (parameter : Parameter) (given : Value) :
    Simple (argumentFor parameter given : Eval σ Value) := by
  unfold argumentFor
  grind

@[grind .]
theorem simple_bindParameters (seen : List String) (parameters : List Parameter)
    (arguments : List Value) :
    Simple (bindParameters scope seen parameters arguments : Eval σ Unit) := by
  induction parameters generalizing seen arguments with
  | nil => exact simple_pure ()
  | cons parameter rest ih =>
    unfold bindParameters
    grind

@[grind .]
theorem simple_declareVariables : Simple (declareVariables scope names : Eval σ Unit) := by
  induction names with
  | nil => exact simple_pure ()
  | cons name rest ih =>
    unfold declareVariables
    grind

@[grind .]
theorem simple_copyVariables (parameters scope : EnvironmentId) (parameterNames names : List String) :
    Simple (copyVariables parameters scope parameterNames names : Eval σ Unit) := by
  induction names with
  | nil => exact simple_pure ()
  | cons name rest ih =>
    unfold copyVariables
    grind

@[grind .]
theorem simple_declareFunctions : Simple (declareFunctions scope functions : Eval σ Unit) := by
  induction functions with
  | nil => exact simple_pure ()
  | cons f rest ih =>
    unfold declareFunctions
    grind

@[grind .]
theorem simple_openVariables (node : FunctionNode) (scope : EnvironmentId) :
    Simple (openVariables node scope : Eval σ EnvironmentId) := by
  unfold openVariables
  grind

@[grind .]
theorem simple_instantiate (node : FunctionNode) (scope : EnvironmentId) (arguments : List Value) :
    Simple (instantiate node scope arguments : Eval σ EnvironmentId) := by
  unfold instantiate
  grind

@[grind .]
theorem simple_constructParent (function : ObjectId) (scope : EnvironmentId)
    (arguments : List Value) (newTarget : ObjectId) :
    Simple (constructParent function scope arguments newTarget : Eval σ Value) := by
  unfold constructParent
  grind

@[grind .]
theorem Completion.result_unsuspended (c : Completion) : Unsuspended c.result := by
  unfold Completion.result
  split <;> nofun

theorem simple_refuseDeclared (conflicts : Machine σ → String → Bool)
    (blind : ∀ name, Blind fun m => conflicts m name) (names : List String) :
    Simple (refuseDeclared conflicts names) := by
  induction names with
  | nil => exact simple_pure ()
  | cons name rest ih =>
    have look := Simple.ask (blind name)
    unfold refuseDeclared
    grind

theorem simple_declareGlobalFunctions :
    Simple (declareGlobalFunctions scope functions : Eval σ Unit) := by
  induction functions with
  | nil => exact simple_pure ()
  | cons f rest ih =>
    unfold declareGlobalFunctions
    grind

theorem simple_declareGlobalVars : Simple (declareGlobalVars scope names : Eval σ Unit) := by
  induction names with
  | nil => exact simple_pure ()
  | cons name rest ih => exact .bind (simple_declareVar _ _ _) fun _ => ih

@[grind .]
theorem simple_declareGlobals (declared : BodyScope) :
    Simple (declareGlobals scope declared : Eval σ Unit) := by
  have lexical := simple_refuseDeclared (σ := σ)
    (fun m name => m.store.hasVar scope name || m.store.hasLexical scope name ||
      m.store.hasRestricted scope name) (fun _ _ _ _ => rfl) (declared.lexical.map (·.name))
  have others := simple_refuseDeclared (σ := σ) (fun m name => m.store.hasLexical scope name)
    (fun _ _ _ _ => rfl) (declared.varNames ++ declared.functions.filterMap (·.name))
  unfold declareGlobals
  grind [simple_declareGlobalFunctions, simple_declareGlobalVars]

@[grind .]
theorem simple_iterationResult (value : Value) (done : Bool) :
    Simple (iterationResult value done : Eval σ Value) := by
  unfold iterationResult
  grind

/-- The answer to the drive of a run that ended. -/
def answerRun : Except Fault Completion → Eval σ Value
  | .error (.suspended v) => iterationResult v false
  | result => do
    let completion ← ofExcept result
    let v ← ofExcept completion.result
    iterationResult v true

theorem simple_answerRun (r : Except Fault Completion) : Simple (answerRun r : Eval σ Value) := by
  unfold answerRun
  split
  · exact simple_iterationResult _ _
  · exact .bind (.ofExcept ‹_›) fun completion =>
      .bind (.ofExcept (Completion.result_unsuspended completion)) fun v =>
        simple_iterationResult v true

theorem finishRun_cases (g : GeneratorId) (frame : Frame) (r : Except Fault Completion) :
    (∃ v, r = .error (.suspended v)) ∧ (finishRun g frame r : Eval σ Value) =
        (perform (.suspend g frame) >>= fun _ => answerRun r) ∨
      Unsuspended r ∧ (finishRun g frame r : Eval σ Value) =
        (perform (.complete g) >>= fun _ => answerRun r) := by
  rcases r with fault | completion
  · cases fault with
    | suspended v => exact .inl ⟨⟨v, rfl⟩, rfl⟩
    | _ => exact .inr ⟨unsuspended_error.2 nofun, rfl⟩
  · exact .inr ⟨unsuspended_ok completion, rfl⟩

@[grind .]
theorem simple_driveDone (resumption : Resumption) :
    Simple (driveDone resumption : Eval σ Value) := by
  cases resumption with
  | next v => exact simple_iterationResult _ _
  | throw v => exact simple_throw nofun
  | «return» v => exact simple_iterationResult _ _

@[grind .]
theorem simple_newObject : Simple (newObject : Eval σ ObjectId) := by
  unfold newObject
  grind

@[grind .]
theorem simple_objectOf (v : Value) : Simple (objectOf v : Eval σ Value) := by
  unfold objectOf
  grind

@[grind .]
theorem simple_spreadList (list : Value) : Simple (spreadList list : Eval σ (List Value)) := by
  unfold spreadList
  grind

@[grind .]
theorem simple_constructError (prototype : ObjectId) (message : Value) :
    Simple (constructError prototype message : Eval σ Value) := by
  unfold constructError
  grind

theorem simple_builtinCall (shortcuts : Bool) {builtin : Builtin} (this : Value)
    (arguments : List Value) (binds : builtin ≠ .functionBind) (nexts : builtin ≠ .generatorNext)
    (returns : builtin ≠ .generatorReturn) (throws : builtin ≠ .generatorThrow) :
    Simple (builtin.call shortcuts this arguments : Eval σ Value) := by
  unfold Builtin.call
  grind

theorem simple_builtinConstruct {builtin : Builtin} {arguments : List Value} {newTarget : ObjectId}
    {x : Eval σ Value} (h : builtin.construct? arguments newTarget = some x) : Simple x := by
  unfold Builtin.construct? instancePrototype at h
  grind

/-! ## Results of constructors -/

def derivedResult (scope : EnvironmentId) : Value → Eval σ Value
  | .object returned => pure (.object returned)
  | .undefined => do
    match ← askFor fun m => (m.store.environment scope).getThis with
    | .object this => pure (.object this)
    | _ => throw (.internal .primitiveThis)
  | _ => typeError .derivedReturn

theorem simple_derivedResult (v : Value) : Simple (derivedResult scope v : Eval σ Value) := by
  have refused : Simple (throw (.internal .primitiveThis) : Eval σ Value) := simple_throw nofun
  unfold derivedResult
  grind

/-! ## Plainness -/

@[grind .]
theorem plain_checkDepth : Plain (checkDepth : Eval σ Unit) := by
  refine plain_askFor fun m => ?_
  split <;> nofun

@[grind .]
theorem Expr.plain (e : Expr) (hint : Option String) : Plain (e.eval hint : Eval σ Value) :=
  (e.simple hint).plain

end Eval

/-! ## Rounds of `for` statements -/

open Eval Loop

def ForRound.iteration (r : ForRound) (shortcuts : Bool) : Eval σ Completion :=
  recording (.loop r.value (if r.environment = r.outer then none else some r.environment))
    (within r.environment (r.body.eval shortcuts []))

def ForRound.advance (r : ForRound) (value : Value) : Eval σ Loop.Step := do
  let environment ← copyBindings r.environment r.copied
  if let some update := r.update then
    let _ ← within environment (update.eval none)
  pure (.again (.forLoop { r with environment, value, resuming := false }))

theorem Loop.round_forLoop (shortcuts : Bool) (r : ForRound) :
    ((Loop.forLoop r).round shortcuts : Eval σ Loop.Step) =
      (if r.resuming then pure true else within r.environment (holds r.test)) >>= fun enter =>
        if !enter then pure (.done (.normal (some r.value)))
        else r.iteration shortcuts >>= fun completion =>
          afterBody completion r.labels r.value r.advance := by
  rw [Loop.round]
  dsimp only
  cases r.resuming <;> rfl

@[grind .]
theorem Eval.simple_advance (r : ForRound) (value : Value) :
    Simple (r.advance value : Eval σ Loop.Step) := by
  unfold ForRound.advance
  grind

end ScriptEngine
