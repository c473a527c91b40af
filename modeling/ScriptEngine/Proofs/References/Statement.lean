import ScriptEngine.Proofs.References.Expression

/-!
# Statements are discreet

Scopes are opened inside the running one. What a statement that is resumed finds in its record was
there when the record was made.
-/

namespace ScriptEngine

open Eval

variable {σ α : Type} {w : Machine σ} {nested : Bool}

namespace Eval

variable {scope : EnvironmentId}

/-! ## Records -/

theorem finds_takeRecord {reading : ResumePoint → Option α} {Q : Machine σ → Option α → Prop}
    (none : ∀ m : Machine σ, Q m none)
    (some : ∀ (m : Machine σ) point a, nested = true → m.Knows point → reading point = some a →
      Q m (some a)) :
    Finds nested w Q (takeRecord reading) := by
  have taken : Finds nested w (fun m point => m.Knows point ∧ (point ≠ Option.none → nested = true))
      (perform .takeResumePoint) := by
    intro m ahead m' ahead' runs
    have taking : Discreet nested w (perform .takeResumePoint) :=
      discreet_takeResumePoint
    obtain ⟨allowed, after, found⟩ := taking m ahead m' ahead' runs
    refine ⟨allowed, after, found, fun present => ?_⟩
    cases nested with
    | true => rfl
    | false =>
      refine absurd ?_ present
      simp only [Effect.apply, Machine.runningGenerator?_of_runs runs]
  refine finds_bind taken fun point m _ known => ?_
  cases point with
  | none => exact finds_pure fun m _ => none m
  | some point =>
    dsimp only
    split
    · rename_i a read
      exact finds_pure fun m' ahead => some m' point a (known.2 (by simp)) (ahead.knows known.1) read
    · exact finds_throw (linked_resumePoint.2 known.1)

@[grind .]
theorem discreet_takeList : Discreet nested w (takeList : Eval σ (Option (Nat × Option Value))) :=
  finds_takeRecord (fun _ => linked_none) fun m point a _ known read => by
    cases point <;> cases read
    exact linked_prod.2 ⟨linked_nat _, known⟩

theorem finds_takeScope : Finds nested w (fun m found => ∀ e, found = some e → Inner m.Has e)
    (takeScope : Eval σ (Option (Option EnvironmentId))) :=
  finds_takeRecord (fun _ => nofun) fun m point a _ known read => by
    cases point <;> cases read
    rintro _ ⟨⟩
    exact known

@[grind .]
theorem discreet_takeBranch : Discreet nested w (takeBranch : Eval σ (Option Bool)) :=
  finds_takeRecord (fun _ => linked_none) fun _ _ _ _ _ _ => nofun

theorem finds_takeLoop : Finds nested w
    (fun m found => ∀ v e, found = some (v, e) → nested = true ∧ m.Knows v ∧ Inner m.Has e)
    (takeLoop : Eval σ (Option (Value × Option EnvironmentId))) :=
  finds_takeRecord (fun _ => nofun) fun m point a within known read => by
    cases point <;> cases read
    rintro _ _ ⟨⟩
    exact ⟨within, linked_loopPoint.1 known⟩

theorem finds_takeSwitch : Finds nested w
    (fun m found => ∀ index v e, found = some (index, v, e) → m.Knows v ∧ Inner m.Has e)
    (takeSwitch : Eval σ (Option (Nat × Value × Option EnvironmentId))) :=
  finds_takeRecord (fun _ => nofun) fun m point a _ known read => by
    cases point <;> cases read
    rintro _ _ _ ⟨⟩
    exact linked_switchPoint.1 known

theorem finds_takeTry : Finds nested w
    (fun m found => ∀ phase, found = some phase → m.Knows (ResumePoint.tryCatch phase))
    (takeTry : Eval σ (Option TryPhase)) :=
  finds_takeRecord (fun _ => nofun) fun m point a _ known read => by
    cases point <;> cases read
    rintro _ ⟨⟩
    exact known

@[grind .]
theorem discreet_takeYield : Discreet nested w (takeYield : Eval σ (Option Nat)) :=
  finds_takeRecord (fun _ => linked_none) fun _ _ _ _ _ _ => nofun

@[grind ←]
theorem discreet_recording [Refers α] {point : ResumePoint} (known : w.Knows point) {x : Eval σ α}
    (h : Discreet nested w x) : Discreet nested w (recording point x) := by
  refine discreet_bind (discreet_outcome h) fun r m ahead known' => ?_
  cases r with
  | ok a => exact discreet_pure known'
  | error fault =>
    have known := ahead.knows known
    grind

@[grind ←]
theorem discreet_suspendAt {operand : Eval σ Value} (h : ∀ m : Machine σ, Discreet nested m operand)
    (slot : Nat) (span : Span) : Discreet nested w (suspendAt operand slot span) := by
  refine discreet_look fun m _ => ?_
  split
  · exact discreet_throw (linked_syntaxError _ _)
  · exact discreet_bind (h m) fun v m₁ _ known =>
      discreet_bind (discreet_pushResumePoint (linked_yieldPoint slot)) fun _ _ ahead _ =>
        discreet_throw (linked_suspended.2 (ahead.knows known))

@[grind .]
theorem discreet_resumeAt (span : Span) : Discreet nested w (resumeAt span : Eval σ Yielded) := by
  unfold resumeAt
  grind

@[grind ←]
theorem discreet_yieldAt {operand : Eval σ Value} (h : ∀ m : Machine σ, Discreet nested m operand)
    (slot : Nat) (span : Span) (resumed : Option Nat) :
    Discreet nested w (yieldAt operand slot span resumed) := by
  unfold yieldAt
  grind

@[grind .]
theorem discreet_yieldOperand (operand : Option Expr) :
    Discreet nested w (yieldOperand operand : Eval σ Value) := by
  unfold yieldOperand
  grind

@[grind ←]
theorem discreet_assignTo {target : Target} {v : Value} (known : w.Knows v) :
    Discreet nested w (assignTo target v : Eval σ Unit) := by
  unfold assignTo
  grind

@[grind .]
theorem discreet_singleYield (operand : Option Expr) (span : Span) :
    Discreet nested w (singleYield operand span : Eval σ Yielded) := by
  unfold singleYield
  grind

@[grind .]
theorem discreet_expressionStatement (e : Expr) :
    Discreet nested w (expressionStatement e : Eval σ Completion) := by
  unfold expressionStatement
  split
  · grind
  · refine discreet_bind (discreet_singleYield _ _) fun yielded m _ known => ?_
    grind
  · grind

@[grind .]
theorem discreet_returnStatement (argument : Option Expr) :
    Discreet nested w (returnStatement argument : Eval σ Completion) := by
  unfold returnStatement
  grind

@[grind ←]
theorem discreet_createLexical (known : w.Knows scope) (name : String) (constant : Bool) :
    Discreet nested w (createLexical scope name constant : Eval σ Unit) := by
  unfold createLexical
  split
  · exact discreet_createImmutable known
  · exact discreet_createMutable known

@[grind ←]
theorem discreet_initLexical {v : Value} (known : w.Knows v) (name : String) (constant : Bool) :
    Discreet nested w (initLexical name constant v : Eval σ Unit) := by
  unfold initLexical
  grind

@[grind ←]
theorem discreet_storeDeclared {v : Option Value} (known : w.Knows v) (kind : VariableKind)
    (name : String) : Discreet nested w (storeDeclared kind name v : Eval σ Unit) := by
  unfold storeDeclared
  grind

@[grind .]
theorem discreet_declarators (kind : VariableKind) (allowYield : Bool) (resumed : Option Nat)
    (slot : Nat) (ds : List Declarator) :
    Discreet nested w (declarators kind allowYield resumed slot ds : Eval σ Completion) := by
  induction ds generalizing slot w with
  | nil => exact discreet_pure linked_none
  | cons d rest ih =>
    obtain ⟨name, init⟩ := d
    unfold declarators
    grind

@[grind .]
theorem discreet_declare (declaration : Declaration) (allowYield : Bool) :
    Discreet nested w (declare declaration allowYield : Eval σ Completion) := by
  unfold declare
  grind

@[grind .]
theorem discreet_classDeclaration (node : ClassNode) :
    Discreet nested w (classDeclaration node : Eval σ Completion) := by
  unfold classDeclaration
  grind

/-! ## Scopes -/

@[grind ←]
theorem discreet_createLexicals (known : w.Knows scope) (names : List LexicalName) :
    Discreet nested w (createLexicals scope names : Eval σ Unit) := by
  induction names generalizing w with
  | nil => exact discreet_pure (linked_unit ())
  | cons x rest ih =>
    exact discreet_bind (discreet_createLexical known x.name x.constant) fun _ _ ahead _ =>
      ih (ahead.knows known)

@[grind ←]
theorem discreet_createFunctionNames (known : w.Knows scope) (functions : List FunctionNode) :
    Discreet nested w (createFunctionNames scope functions : Eval σ Unit) := by
  induction functions generalizing w with
  | nil => exact discreet_pure (linked_unit ())
  | cons f rest ih =>
    unfold createFunctionNames
    grind

@[grind ←]
theorem discreet_createFunctions (known : w.Knows scope) (functions : List FunctionNode) :
    Discreet nested w (createFunctions scope functions : Eval σ Unit) := by
  induction functions generalizing w with
  | nil => exact discreet_pure (linked_unit ())
  | cons f rest ih =>
    unfold createFunctions
    grind

theorem finds_openBlock {outer : EnvironmentId} (known : w.Knows outer) (scope : BlockScope) :
    Finds nested w (fun m e => Inner m.Has e)
      (openBlock scope outer : Eval σ (Option EnvironmentId)) := by
  unfold openBlock
  split
  · exact finds_pure fun _ _ => inner_none
  · refine finds_bind (finds_enclose (linked_environment.2 ⟨known, nofun⟩) rfl rfl)
      fun e m ahead made => ?_
    refine finds_bind (discreet_createLexicals (Machine.knows_of_inner made) scope.lexical)
      fun _ m₁ ahead₁ _ => ?_
    have made := ahead₁.inner made
    refine finds_bind (discreet_createFunctionNames (Machine.knows_of_inner made) scope.functions)
      fun _ m₂ ahead₂ _ => ?_
    have made := ahead₂.inner made
    refine finds_bind (discreet_createFunctions (Machine.knows_of_inner made) scope.functions)
      fun _ m₃ ahead₃ _ => ?_
    exact finds_pure fun _ ahead => inner_some.2 (ahead.inner (ahead₃.inner made))

@[grind ←]
theorem discreet_withinSome [Refers α] {scope : Option EnvironmentId} (known : Inner w.Has scope)
    {x : Eval σ α} (h : Discreet nested w x) : Discreet nested w (withinSome scope x) := by
  unfold withinSome
  grind

theorem discreet_scoped {scope : Option EnvironmentId} (known : Inner w.Has scope)
    {x : Eval σ Completion} (h : Discreet nested w x) :
    Discreet nested w (recording (.scope scope) (withinSome scope x)) :=
  discreet_recording (linked_scopePoint.2 known) (discreet_withinSome known h)

theorem discreet_blockStatement {body : Eval σ Completion}
    (h : ∀ m : Machine σ, Discreet nested m body) (scope : BlockScope) :
    Discreet nested w (block scope body) := by
  refine finds_bind finds_takeScope fun found m _ known => ?_
  cases found with
  | some e => exact discreet_scoped (known e rfl) (h m)
  | none =>
    exact finds_look fun _ ahead _ => finds_bind (finds_openBlock ahead.closed.lexical scope)
      fun _ m₁ _ opened => discreet_scoped opened (h m₁)

theorem discreet_withStatement {object : Eval σ Value} {body : Eval σ Completion}
    (h : ∀ m : Machine σ, Discreet nested m object) (h' : ∀ m : Machine σ, Discreet nested m body)
    (span : Span) : Discreet nested w (withStatement object body span) := by
  refine discreet_look fun m _ => ?_
  dsimp only
  split
  · exact discreet_throw (linked_syntaxError _ _)
  · refine finds_bind finds_takeScope fun found m₁ _ known => ?_
    cases found with
    | some e => exact discreet_scoped (known e rfl) (h' m₁)
    | none =>
      refine finds_bind (h m₁) fun v m₂ _ known => ?_
      refine finds_bind (discreet_toObject known) fun o m₃ _ object => ?_
      refine finds_look fun m₄ ahead _ => ?_
      have env : m₄.Knows ({ outer := some m₄.lexical, record := .object o true } : Environment) :=
        linked_environment.2 ⟨ahead.closed.lexical,
          linked_objectScope.2 (ahead.has _ (linked_objectId.1 object))⟩
      exact finds_bind (finds_enclose env rfl rfl) fun e m₅ _ made =>
        discreet_scoped (inner_some.2 made) (h' m₅)

theorem discreet_branch {test : Eval σ Value} {consequent : Eval σ Completion}
    {alternate : Option (Eval σ Completion)} (h : ∀ m : Machine σ, Discreet nested m test)
    (h₁ : ∀ m : Machine σ, Discreet nested m consequent)
    (h₂ : ∀ x, alternate = some x → ∀ m : Machine σ, Discreet nested m x) :
    Discreet nested w (branch test consequent alternate) := by
  refine discreet_bind discreet_takeBranch fun found m _ _ => ?_
  have chosen (taken : Bool) (m : Machine σ) :
      Discreet nested m (takenBranch taken consequent alternate) := by
    cases taken with
    | true => exact discreet_recording (linked_branchPoint true) (h₁ m)
    | false => cases alternate with
      | none => exact discreet_pure linked_undefined
      | some x => exact discreet_recording (linked_branchPoint false) (h₂ x rfl m)
  cases found with
  | some taken => exact chosen taken m
  | none => exact discreet_bind (h m) fun v m₁ _ _ => chosen v.toBoolean m₁

@[grind .]
theorem discreet_matchingCase (discriminant : Value) (index : Nat) (cases : List SwitchCase) :
    Discreet nested w (matchingCase discriminant index cases : Eval σ (Option Nat)) := by
  induction cases generalizing index w with
  | nil => exact discreet_pure linked_none
  | cons clause rest ih =>
    obtain ⟨_ | test, body⟩ := clause
    · exact ih (index + 1)
    · unfold matchingCase
      grind

@[grind .]
theorem discreet_selectCase (discriminant : Value) (cases : List SwitchCase) :
    Discreet nested w (selectCase discriminant cases : Eval σ (Option Nat)) := by
  refine discreet_bind (discreet_matchingCase _ _ _) fun found _ _ known => ?_
  cases found with
  | none => exact finds_pure fun _ _ => by cases cases.findIdx? (·.test.isNone) <;> exact nofun
  | some index => exact discreet_pure known

theorem discreet_switch {discriminant : Eval σ Value} {cases : List SwitchCase}
    {run : Nat → Value → Option EnvironmentId → Eval σ Completion}
    (h : ∀ m : Machine σ, Discreet nested m discriminant)
    (h' : ∀ start v e (m : Machine σ), m.Knows v → Inner m.Has e →
      Discreet nested m (run start v e)) :
    Discreet nested w (switch discriminant cases run) := by
  refine finds_bind finds_takeSwitch fun found m _ known => ?_
  split
  · rename_i start v e
    obtain ⟨known, inner⟩ := known start v e rfl
    exact discreet_withinSome inner (h' start v e m known inner)
  · refine discreet_bind (h m) fun v m₁ _ known => ?_
    refine finds_look fun m₂ ahead _ => ?_
    refine finds_bind (finds_openBlock ahead.closed.lexical (switchScope cases))
      fun e m₃ _ inner => discreet_withinSome inner ?_
    refine discreet_bind (discreet_selectCase v cases) fun found m₄ ahead₄ _ => ?_
    cases found with
    | none => exact discreet_pure linked_undefined
    | some start => exact h' start .undefined e m₄ linked_undefined (ahead₄.innerScope inner)

def Round (names : List String) (last : EnvironmentId) (m : Machine σ) (e : EnvironmentId) : Prop :=
  m.Knows e ∧ (names = [] ∧ e = last ∨ m.Has (.inner e))

theorem discreet_copyInto {last e : EnvironmentId} (known : w.Knows e) (names : List String) :
    Discreet nested w (copyBindings.copyInto last e names) := by
  induction names generalizing w with
  | nil => exact discreet_pure (linked_unit ())
  | cons name rest ih =>
    unfold copyBindings.copyInto
    grind

theorem finds_copyBindings {last : EnvironmentId} {names : List String} (known : w.Knows last)
    (inner : names ≠ [] → last ≠ ⟨0⟩) :
    Finds nested w (Round names last) (copyBindings last names : Eval σ EnvironmentId) := by
  unfold copyBindings
  split
  · rename_i empty
    exact finds_pure fun _ ahead => ⟨ahead.knows known, .inl ⟨List.isEmpty_iff.1 empty, rfl⟩⟩
  · rename_i copied
    refine finds_look fun m ahead _ => ?_
    have has : m.store.Has last := linked_environmentId.1 (ahead.knows known)
    obtain ⟨outer, around, -⟩ := ahead.closed.store.nested last has
      (inner fun empty => copied (List.isEmpty_iff.2 empty))
    have env : m.Knows (Environment.block (m.store.environment last).outer) :=
      linked_environment.2 ⟨ahead.closed.store.outer last, nofun⟩
    refine finds_bind (finds_enclose env (by rw [around]; rfl) rfl) fun e m₁ _ made => ?_
    refine finds_bind (discreet_copyInto (Machine.knows_of_inner made) names) fun _ m₂ ahead₂ _ => ?_
    exact finds_pure fun _ ahead =>
      have made := ahead.inner (ahead₂.inner made)
      ⟨Machine.knows_of_inner made, .inr made⟩

theorem finds_forInit {outer : EnvironmentId} (known : w.Knows outer) (init : ForInit) :
    Finds nested w (Round (copiedNames init) outer) (forInit init outer : Eval σ EnvironmentId) := by
  have stays {m : Machine σ} (ahead : w.Precedes m) (none : copiedNames init = []) :
      Finds nested m (Round (copiedNames init) outer) (pure outer) :=
    finds_pure fun _ ahead' => ⟨(ahead.trans ahead').knows known, .inl ⟨none, rfl⟩⟩
  cases init with
  | none => exact finds_pure fun _ ahead => ⟨ahead.knows known, .inl ⟨rfl, rfl⟩⟩
  | expression e => exact finds_bind (e.discreet none) fun _ _ ahead _ => stays ahead rfl
  | declaration declaration =>
    by_cases var : declaration.kind = .var
    · have none : copiedNames (.declaration declaration) = [] := by
        obtain ⟨kind, declarators, span⟩ := declaration
        cases var
        rfl
      rw [forInit, if_pos var]
      exact finds_bind (discreet_declare declaration false) fun _ _ ahead _ => stays ahead none
    · rw [forInit, if_neg var]
      refine finds_bind (finds_enclose (linked_environment.2 ⟨known, nofun⟩) rfl rfl)
        fun e m ahead made => ?_
      refine finds_bind (discreet_createLexicals (Machine.knows_of_inner made) _)
        fun _ m₁ ahead₁ _ => ?_
      have made := ahead₁.inner made
      refine finds_bind (discreet_within made (discreet_declare declaration false))
        fun _ m₂ ahead₂ _ => ?_
      exact finds_pure fun _ ahead =>
        have made := ahead.inner (ahead₂.inner made)
        ⟨Machine.knows_of_inner made, .inr made⟩

theorem discreet_forStatement (init : ForInit) (test update : Option Expr) (body : Stmt)
    (labels : List String) :
    Discreet nested w (forStatement init test update body labels : Eval σ Completion) := by
  refine finds_look fun m ahead runs => ?_
  have outer := ahead.closed.lexical
  have inside (within : nested = true) : m.Has (.inner m.lexical) :=
    ahead.closed.lexical_inner (within ▸ runs)
  refine finds_bind finds_takeLoop fun found m₁ ahead₁ known => ?_
  split
  · rename_i value environment
    obtain ⟨within, known, inner⟩ := known value environment rfl
    have round : m₁.Has (.inner (environment.getD m.lexical)) := by
      cases environment with
      | none => exact ahead₁.inner (inside within)
      | some e => exact inner_some.1 inner
    exact discreet_loop (linked_forLoop.2
      ⟨ahead₁.has _ (linked_environmentId.1 outer), round.1, known⟩) fun _ => round.2
  · refine finds_bind (finds_forInit (ahead₁.knows outer) init) fun head m₂ ahead₂ opened => ?_
    refine finds_bind (finds_copyBindings opened.1 fun copied => ?_) fun e m₃ ahead₃ round => ?_
    · exact (opened.2.resolve_left fun plain => copied plain.1).2
    · have around := (ahead₁.trans ahead₂).trans ahead₃
      refine discreet_loop (linked_forLoop.2 ⟨around.has _ (linked_environmentId.1 outer),
        linked_environmentId.1 round.1, linked_undefined⟩) fun reason => ?_
      rcases round.2 with ⟨plain, rfl⟩ | inner
      · rcases opened.2 with ⟨_, rfl⟩ | inner
        · rcases reason with within | copied | moved
          · exact (inside within).2
          · exact absurd plain copied
          · exact absurd rfl moved
        · exact inner.2
      · exact inner.2

theorem discreet_whileStatement (test : Expr) (body : Stmt) (labels : List String) :
    Discreet nested w (whileStatement test body labels : Eval σ Completion) := by
  refine finds_bind finds_takeLoop fun found m _ known => ?_
  split
  · exact discreet_loop (known _ _ rfl).2.1 trivial
  · exact discreet_loop linked_undefined trivial

theorem discreet_doWhileStatement (body : Stmt) (test : Expr) (labels : List String) :
    Discreet nested w (doWhileStatement body test labels : Eval σ Completion) := by
  refine finds_bind finds_takeLoop fun found m _ known => ?_
  split
  · exact discreet_loop (known _ _ rfl).2.1 trivial
  · exact discreet_loop linked_undefined trivial

theorem finds_openHandler {thrown : Value} (known : w.Knows thrown) (parameter : Option String) :
    Finds nested w (fun m e => m.Has (.inner e))
      (openHandler parameter thrown : Eval σ EnvironmentId) := by
  refine finds_look fun m ahead _ => ?_
  refine finds_bind (finds_enclose (linked_environment.2 ⟨ahead.closed.lexical, nofun⟩) rfl rfl)
    fun e m₁ ahead₁ made => ?_
  have known := ahead₁.knows (ahead.knows known)
  cases parameter with
  | none => exact finds_pure fun _ ahead => ahead.inner made
  | some name =>
    refine finds_bind (discreet_createMutable (Machine.knows_of_inner made))
      fun _ m₂ ahead₂ _ => ?_
    have made := ahead₂.inner made
    refine finds_bind (discreet_initBinding (Machine.knows_of_inner made) (ahead₂.knows known))
      fun _ m₃ ahead₃ _ => ?_
    exact finds_pure fun _ ahead => ahead.inner (ahead₃.inner made)

section

variable {body : Eval σ Completion} {handler : Option (Handler σ)}
  {finalizer : Option (Eval σ Completion)}
  (h : ∀ m : Machine σ, Discreet nested m body)
  (h₁ : ∀ x, handler = some x → ∀ m : Machine σ, Discreet nested m x.body)
  (h₂ : ∀ x, finalizer = some x → ∀ m : Machine σ, Discreet nested m x)

include h₁ in
theorem discreet_runHandler {clause : Handler σ} (given : handler = some clause)
    {scope : Option EnvironmentId} (known : Inner w.Has scope) :
    Discreet nested w (runHandler clause scope) :=
  discreet_recording (linked_handlerPhase.2 known) (discreet_withinSome known (h₁ clause given w))

include h₂ in
theorem discreet_runFinalizer {pending : Completion} (known : w.Knows pending) :
    Discreet nested w (runFinalizer finalizer pending) := by
  unfold runFinalizer
  split
  · exact discreet_pure known
  · refine discreet_bind (discreet_recording (linked_finalizerPhase.2 known) (h₂ _ rfl w))
      fun result m ahead known' => discreet_pure ?_
    split
    · exact ahead.knows known
    · exact known'

include h h₁ in
theorem discreet_runGuarded : Discreet nested w (runGuarded body handler) := by
  refine discreet_bind (discreet_recording linked_blockPhase (h w)) fun completion m _ known => ?_
  split
  · exact finds_bind (finds_openHandler (linked_valueOrUndefined known) _) fun e m₁ _ opened =>
      discreet_runHandler h₁ rfl (inner_some.2 opened)
  · exact discreet_pure known

include h h₁ h₂

theorem discreet_tryStatement : Discreet nested w (tryStatement body handler finalizer) := by
  have whole (m : Machine σ) : Discreet nested m (do
      let completion ← runGuarded body handler
      runFinalizer finalizer completion) :=
    discreet_bind (discreet_runGuarded h h₁) fun _ _ _ known => discreet_runFinalizer h₂ known
  refine finds_bind finds_takeTry fun found m _ known => ?_
  split
  · exact discreet_runFinalizer h₂ (linked_finalizerPhase.1 (known _ rfl))
  · have inner := linked_handlerPhase.1 (known _ rfl)
    split
    · exact discreet_throw nofun
    · exact discreet_bind (discreet_runHandler h₁ rfl inner) fun _ _ _ known =>
        discreet_runFinalizer h₂ known
  · exact whole m
  · exact whole m

end

theorem discreet_list {run : Nat → Option Value → Eval σ Completion}
    (h : ∀ start last (m : Machine σ), m.Knows last → Discreet nested m (run start last)) :
    Discreet nested w (list run) := by
  refine discreet_bind discreet_takeList fun found m _ known => ?_
  split
  · exact h _ _ m (linked_prod.1 (linked_some.1 known)).2
  · exact h _ _ m linked_none

theorem discreet_listed {last : Option Value} (known : w.Knows last) {statement : Eval σ Completion}
    (h : ∀ m : Machine σ, Discreet nested m statement) (index : Nat) (span : Span) :
    Discreet nested w (listed index last span statement) := by
  refine discreet_bind discreet_checkLimits fun _ m ahead _ => ?_
  have listed : Discreet nested m (recording (.list index last) statement) :=
    discreet_recording (ahead.knows known) (h m)
  exact discreet_bind (discreet_outcome listed) fun _ _ _ known => discreet_settle known

theorem discreet_andThen {last : Option Value} {completion : Completion} (known : w.Knows last)
    (known' : w.Knows completion) {rest : Option Value → Eval σ Completion}
    (h : ∀ last, w.Knows last → Discreet nested w (rest last)) :
    Discreet nested w (andThen last completion rest) := by
  unfold andThen
  split
  · exact discreet_pure (linked_updateEmpty known' known)
  · exact h _ (linked_orElse known' known)

end Eval

theorem Stmt.linked_knownCompletion? {V : Link → Prop} {shortcuts : Bool} {s : Stmt}
    {completion : Completion} (known : s.knownCompletion? shortcuts = some completion) :
    Linked V completion := by
  unfold Stmt.knownCompletion? at known
  split at known
  · obtain ⟨shortcut, found, rfl⟩ := Option.map_eq_some_iff.1 known
    unfold Stmt.shortcut? at found
    split at found <;> cases found
    · exact linked_empty
    · exact linked_empty
    · exact linked_empty
    · exact linked_literal _
    · exact linked_undefined
    · exact linked_literal _
  · cases known

mutual

theorem Stmt.discreet (shortcuts : Bool) (labels : List String) (w : Machine σ) :
    (s : Stmt) → Discreet nested w (s.eval shortcuts labels)
  | .declare declaration => by
    rw [Stmt.eval]
    exact discreet_declare declaration true
  | .functionDecl _ | .empty _ | .debugger _ => by
    rw [Stmt.eval]
    exact discreet_pure linked_empty
  | .classDecl node => by
    rw [Stmt.eval]
    exact discreet_classDeclaration node
  | .block body _ => by
    rw [Stmt.eval]
    exact discreet_blockStatement (fun m => discreet_list (evalFrom_discreet shortcuts body 0)) _
  | .branch test consequent alternate _ => by
    rw [Stmt.eval]
    exact discreet_branch (fun _ => test.discreet none)
      (fun m => Stmt.discreet shortcuts [] m consequent) (evalOption_discreet shortcuts alternate)
  | .switch discriminant cases _ => by
    rw [Stmt.eval]
    exact discreet_switch (fun _ => discriminant.discreet none)
      (evalCases_discreet shortcuts cases 0)
  | .forLoop init test update body _ => by
    rw [Stmt.eval]
    exact discreet_forStatement init test update body labels
  | .whileLoop test body _ => by
    rw [Stmt.eval]
    exact discreet_whileStatement test body labels
  | .doWhile body test _ => by
    rw [Stmt.eval]
    exact discreet_doWhileStatement body test labels
  | .tryCatch body handler finalizer _ => by
    rw [Stmt.eval]
    exact discreet_tryStatement
      (fun m => discreet_blockStatement (fun m => discreet_list (evalFrom_discreet shortcuts body 0)) _)
      (evalHandler_discreet shortcuts handler) (evalFinalizer_discreet shortcuts finalizer)
  | .withObject e body span => by
    rw [Stmt.eval]
    exact discreet_withStatement (fun _ => e.discreet none)
      (fun m => Stmt.discreet shortcuts [] m body) span
  | .return argument _ => by
    rw [Stmt.eval]
    exact discreet_returnStatement argument
  | .break label span => by
    rw [Stmt.eval]
    exact discreet_pure (linked_breaking label span)
  | .continue label span => by
    rw [Stmt.eval]
    exact discreet_pure (linked_continuing label span)
  | .throw argument span => by
    rw [Stmt.eval]
    exact discreet_bind (argument.discreet none) fun _ _ _ known => discreet_pure known
  | .expression e _ => by
    rw [Stmt.eval]
    exact discreet_expressionStatement e
  | .labelled label body _ => by
    rw [Stmt.eval]
    exact discreet_bind (Stmt.discreet shortcuts _ w body) fun _ _ _ known =>
      discreet_pure (linked_exitLabel known label)

theorem evalFrom_discreet (shortcuts : Bool) :
    (body : List Stmt) → (index skip : Nat) → (last : Option Value) → (w : Machine σ) →
      w.Knows last → Discreet nested w (evalFrom shortcuts body index skip last : Eval σ Completion)
  | [], _, _, last, _, known => by
    rw [evalFrom]
    exact discreet_pure (linked_normal.2 known)
  | _ :: rest, index, skip + 1, last, w, known => by
    rw [evalFrom]
    exact evalFrom_discreet shortcuts rest (index + 1) skip last w known
  | s :: rest, index, 0, last, w, known => by
    rw [evalFrom]
    refine discreet_bind (discreet_listed known (fun m => ?_) index s.span)
      fun completion m ahead known' => discreet_andThen (ahead.knows known) known'
        fun last known => evalFrom_discreet shortcuts rest (index + 1) 0 last m known
    cases shortcut : s.knownCompletion? shortcuts with
    | some completion => exact discreet_pure (Stmt.linked_knownCompletion? shortcut)
    | none => exact Stmt.discreet shortcuts [] m s

theorem evalOption_discreet (shortcuts : Bool) : (s : Option Stmt) → (x : Eval σ Completion) →
    evalOption shortcuts s = some x → ∀ m : Machine σ, Discreet nested m x
  | none, _, given => by
    rw [evalOption] at given
    cases given
  | some s, _, given => fun m => by
    rw [evalOption] at given
    cases given
    exact Stmt.discreet shortcuts [] m s

theorem evalHandler_discreet (shortcuts : Bool) : (clause : Option CatchClause) → (x : Handler σ) →
    evalHandler shortcuts clause = some x → ∀ m : Machine σ, Discreet nested m x.body
  | none, _, given => by
    rw [evalHandler] at given
    cases given
  | some ⟨parameter, body⟩, _, given => fun m => by
    rw [evalHandler] at given
    cases given
    exact discreet_blockStatement (fun m => discreet_list (evalFrom_discreet shortcuts body 0)) _

theorem evalFinalizer_discreet (shortcuts : Bool) :
    (body : Option (List Stmt)) → (x : Eval σ Completion) →
      evalFinalizer shortcuts body = some x → ∀ m : Machine σ, Discreet nested m x
  | none, _, given => by
    rw [evalFinalizer] at given
    cases given
  | some body, _, given => fun m => by
    rw [evalFinalizer] at given
    cases given
    exact discreet_blockStatement (fun m => discreet_list (evalFrom_discreet shortcuts body 0)) _

theorem evalCases_discreet (shortcuts : Bool) :
    (cases : List SwitchCase) → (index skip : Nat) → (v : Value) → (e : Option EnvironmentId) →
      (w : Machine σ) → w.Knows v → Inner w.Has e →
        Discreet nested w (evalCases shortcuts cases index skip v e : Eval σ Completion)
  | [], _, _, v, _, _, known, _ => by
    rw [evalCases]
    exact discreet_pure known
  | _ :: rest, index, skip + 1, v, e, w, known, inner => by
    rw [evalCases]
    exact evalCases_discreet shortcuts rest (index + 1) skip v e w known inner
  | ⟨_, body⟩ :: rest, index, 0, v, e, w, known, inner => by
    rw [evalCases]
    have recorded : w.Knows (ResumePoint.switch index v e) := linked_switchPoint.2 ⟨known, inner⟩
    refine discreet_bind (discreet_recording recorded
      (discreet_list (evalFrom_discreet shortcuts body 0))) fun completion m ahead known' => ?_
    have value : m.Knows (completion.value.getD v) := linked_getD known' (ahead.knows known)
    dsimp only
    split
    · exact discreet_pure (linked_exitBreakable (linked_updateEmpty known' value))
    · exact evalCases_discreet shortcuts rest (index + 1) 0 _ e m value (ahead.innerScope inner)

end

theorem discreet_evalStatements (shortcuts : Bool) (body : List Stmt) :
    Discreet nested w (evalStatements shortcuts body : Eval σ Completion) :=
  discreet_list (evalFrom_discreet shortcuts body 0)

/-! ## Rounds of loops -/

def Loop.Step.Good (nested : Bool) (m : Machine σ) (step : Loop.Step) : Prop :=
  m.Knows step ∧ ∀ l, step = .again l → l.Inner nested

namespace Loop

variable {v : Value} (shortcuts : Bool)

theorem finds_afterBody {completion : Completion} (known : w.Knows completion) (known' : w.Knows v)
    {labels : List String} {next : Value → Eval σ Step}
    (h : ∀ v, w.Knows v → Finds nested w (Step.Good nested) (next v)) :
    Finds nested w (Step.Good nested) (afterBody completion labels v next) := by
  unfold afterBody
  split
  · exact h _ (linked_getD known known')
  · exact finds_pure fun _ ahead => ⟨ahead.knows (a := Step.done _)
      (linked_exitBreakable (linked_updateEmpty known known')), nofun⟩

theorem discreet_holds (test : Option Expr) : Discreet nested w (holds test : Eval σ Bool) := by
  unfold holds
  grind

theorem finds_done (known : w.Knows v) :
    Finds nested w (Step.Good nested) (pure (.done (.normal (some v)))) :=
  finds_pure fun _ ahead => ⟨ahead.knows (a := Step.done (.normal (some v))) known, nofun⟩

theorem finds_whileRound (test : Expr) (body : Stmt) (labels : List String) (known : w.Knows v)
    (resuming : Bool) :
    Finds nested w (Step.Good nested)
      (round shortcuts (.whileLoop test body labels v resuming)) := by
  have entered (m : Machine σ) (known : m.Knows v) : Finds nested m (Step.Good nested) (do
      let completion ← recording (.loop v none) (body.eval shortcuts [])
      afterBody completion labels v fun value =>
        pure (.again (.whileLoop test body labels value false))) := by
    have recorded : m.Knows (ResumePoint.loop v none) := linked_loopPoint.2 ⟨known, inner_none⟩
    refine finds_bind (discreet_recording recorded (body.discreet shortcuts [] m))
      fun completion m₁ ahead known' => finds_afterBody known' (ahead.knows known) fun v known => ?_
    refine finds_pure fun _ ahead => ⟨linked_again.2 (ahead.knows known), ?_⟩
    rintro _ ⟨⟩
    trivial
  cases resuming with
  | true => exact entered w known
  | false =>
    refine finds_bind (discreet_holds (some test)) fun enter m ahead _ => ?_
    cases enter with
    | false => exact finds_done (ahead.knows known)
    | true => exact entered m (ahead.knows known)

theorem finds_doWhileRound (test : Expr) (body : Stmt) (labels : List String) (known : w.Knows v) :
    Finds nested w (Step.Good nested)
      (round shortcuts (.doWhile body test labels v)) := by
  have recorded : w.Knows (ResumePoint.loop v none) := linked_loopPoint.2 ⟨known, inner_none⟩
  refine finds_bind (discreet_recording recorded (body.discreet shortcuts [] w))
    fun completion m ahead known' => finds_afterBody known' (ahead.knows known) fun v known => ?_
  refine finds_bind (discreet_holds (some test)) fun goes m₁ ahead₁ _ => ?_
  cases goes with
  | false => exact finds_done (ahead₁.knows known)
  | true =>
    refine finds_pure fun _ ahead => ⟨linked_again.2 (ahead.knows (ahead₁.knows known)), ?_⟩
    rintro _ ⟨⟩
    trivial

section

variable {r : ForRound}
  (inner : nested = true ∨ r.copied ≠ [] ∨ r.environment ≠ r.outer → r.environment ≠ ⟨0⟩)
  (around : w.Knows r.outer) (known : w.Knows r.environment)

include inner around known

theorem finds_advance (value : w.Knows v) :
    Finds nested w (Step.Good nested) (r.advance v : Eval σ Step) := by
  refine finds_bind (finds_copyBindings known fun copied => inner (.inr (.inl copied)))
    fun e m ahead copy => ?_
  have next (reason : nested = true ∨ r.copied ≠ [] ∨ e ≠ r.outer) : e ≠ ⟨0⟩ := by
    rcases copy.2 with ⟨_, rfl⟩ | own
    · exact inner reason
    · exact own.2
  have again {m₁ : Machine σ} (ahead₁ : m.Precedes m₁) : Finds nested m₁ (Step.Good nested)
      (pure (.again (.forLoop { r with environment := e, value := v, resuming := false }))) := by
    refine finds_pure fun m₂ ahead₂ => ⟨linked_again.2 (linked_forLoop.2 ?_), ?_⟩
    · have ahead₁ := ahead₁.trans ahead₂
      exact ⟨linked_environmentId.1 ((ahead.trans ahead₁).knows around),
        linked_environmentId.1 (ahead₁.knows copy.1), (ahead.trans ahead₁).knows value⟩
    · rintro _ ⟨⟩
      exact next
  dsimp only
  split
  · exact finds_bind (finds_within copy.1 (fun nested => next (.inl nested)) (Expr.discreet _ none))
      fun _ _ ahead₁ _ => again ahead₁
  · exact again ahead.closed.refl

theorem finds_forRound (value : w.Knows r.value) :
    Finds nested w (Step.Good nested) (round shortcuts (.forLoop r) : Eval σ Step) := by
  have entered (m : Machine σ) (around : m.Knows r.outer) (known : m.Knows r.environment)
      (value : m.Knows r.value) : Finds nested m (Step.Good nested) (r.iteration shortcuts >>=
        fun completion => afterBody completion r.labels r.value r.advance) := by
    have record : ScriptEngine.Inner m.Has
        (if r.environment = r.outer then none else some r.environment) := by
      split
      · exact inner_none
      · rename_i moved
        exact inner_some.2 ⟨linked_environmentId.1 known, inner (.inr (.inr moved))⟩
    refine finds_bind (discreet_recording (linked_loopPoint.2 ⟨value, record⟩)
      (finds_within known (fun nested => inner (.inl nested)) (r.body.discreet shortcuts [] m)))
      fun completion m₁ ahead known' => ?_
    exact finds_afterBody known' (ahead.knows value) fun v value =>
      finds_advance inner (ahead.knows around) (ahead.knows known) value
  rw [round_forLoop]
  cases r.resuming with
  | true => exact entered w around known value
  | false =>
    refine finds_bind (finds_within known (fun nested => inner (.inl nested))
      (discreet_holds r.test)) fun enter m ahead _ => ?_
    cases enter with
    | false => exact finds_done (ahead.knows value)
    | true => exact entered m (ahead.knows around) (ahead.knows known) (ahead.knows value)

end

theorem finds_round {l : Loop} (known : w.Knows l) (inner : l.Inner nested) :
    Finds nested w (Step.Good nested) (l.round shortcuts) := by
  cases l with
  | whileLoop test body labels v resuming =>
    exact finds_whileRound shortcuts test body labels known resuming
  | doWhile body test labels v => exact finds_doWhileRound shortcuts test body labels known
  | forLoop r =>
    obtain ⟨around, environment, value⟩ := linked_forLoop.1 known
    exact finds_forRound shortcuts inner (linked_environmentId.2 around)
      (linked_environmentId.2 environment) value

end Loop

end ScriptEngine
