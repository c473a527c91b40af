import ScriptEngine.Proofs.BlockEntry
import ScriptEngine.Proofs.Generator.Resuming

/-!
# What a `try` statement receives

A statement list turns every fault that scripts can catch into a throw completion, so what is raised
in a `try` block reaches the catch clause. Entering a block is not part of its list: the fault of a
block that declares a lexical name twice passes the catch clause and the finalizer.
-/

namespace ScriptEngine

variable {σ α β : Type} {m : Machine σ} (A : Answers σ)

open Eval

def Fault.Final (fault : Fault) : Prop := fault.isHostAbort = true ∨ fault.isSuspension = true

def Fault.Repeats (fault : Fault) (body : List Stmt) : Prop :=
  ∃ name, 2 ≤ ((lexicalNames body).map (·.name)).count name ∧
    fault = .syntaxError (.alreadyDeclared name)

theorem Answers.eval_recording (point : ResumePoint) (x : Eval σ α) (m : Machine σ) :
    A.eval (recording point x) m = (A.eval x m).andThen fun r m' => .finished r (match r with
      | .ok _ => m'
      | .error fault =>
        if fault.isSuspension then ((Effect.pushResumePoint point).apply m').2 else m') := by
  rw [recording, eval_handle]
  refine congrArg _ (funext fun r => funext fun m' => ?_)
  cases r with
  | ok a => rfl
  | error fault => cases suspended : fault.isSuspension <;> simp [suspended]

namespace Eval

/-! ## The faults that an evaluation can end with -/

def Raises (A : Answers σ) (F : Fault → Prop) (x : Eval σ α) : Prop :=
  ∀ m fault m', A.eval x m = .finished (.error fault) m' → F fault

variable {A : Answers σ} {F F' : Fault → Prop} {x : Eval σ α}

theorem Raises.mono (h : Raises A F x) (le : ∀ fault, F fault → F' fault) :
    Raises A F' x := fun m fault m' run => le fault (h m fault m' run)

theorem raises_pure (a : α) : Raises A F (pure a) := by
  intro m fault m' run
  cases run

theorem raises_ask (view : Machine σ → α) : Raises A F (ask view) := by
  intro m fault m' run
  cases run

theorem raises_perform (effect : Effect σ α) : Raises A F (perform effect) := by
  intro m fault m' run
  cases run

theorem raises_throw {fault : Fault} (h : F fault) : Raises A F (throw fault : Eval σ α) := by
  intro m _ m' run
  cases run
  exact h

theorem raises_bind {f : α → Eval σ β} (hx : Raises A F x) (hf : ∀ a, Raises A F (f a)) :
    Raises A F (x >>= f) := by
  intro m fault m' run
  rw [eval_bind, Outcome.proceed, andThen_eq_finished] at run
  obtain ⟨r, m₁, first, rest⟩ := run
  cases r with
  | ok a => exact hf a m₁ fault m' rest
  | error fault₁ =>
    cases rest
    exact hx m fault m' first

theorem raises_outcome {f : Except Fault α → Eval σ β} (ok : ∀ a, Raises A F (f (.ok a)))
    (error : ∀ fault, Raises A F (f (.error fault))) : Raises A F (outcome x >>= f) := by
  intro m fault m' run
  rw [eval_handle, andThen_eq_finished] at run
  obtain ⟨r, m₁, -, rest⟩ := run
  cases r with
  | ok a => exact ok a m₁ fault m' rest
  | error fault₁ => exact error fault₁ m₁ fault m' rest

theorem raises_within (h : Raises A F x) (scope : EnvironmentId) : Raises A F (within scope x) := by
  intro m fault m' run
  rw [eval_within, andThen_eq_finished] at run
  obtain ⟨r, m₁, inner, rest⟩ := run
  cases rest
  exact h _ fault m₁ inner

theorem raises_withinSome (h : Raises A F x) (scope : Option EnvironmentId) :
    Raises A F (withinSome scope x) := by
  cases scope with
  | none => exact h
  | some e => exact raises_within h e

theorem raises_recording (h : Raises A F x) (point : ResumePoint) :
    Raises A F (recording point x) := by
  intro m fault m' run
  rw [A.eval_recording, andThen_eq_finished] at run
  obtain ⟨r, m₁, inner, rest⟩ := run
  cases rest
  exact h m fault m₁ inner

theorem raises_takeRecord (reading : ResumePoint → Option α) :
    Raises A Fault.Final (takeRecord reading : Eval σ (Option α)) := by
  refine raises_bind (raises_perform _) fun point => ?_
  cases point with
  | none => exact raises_pure _
  | some point =>
    dsimp only
    split
    · exact raises_pure _
    · exact raises_throw (.inl rfl)

theorem raises_faultValue (fault : Fault) : Raises A F (faultValue fault : Eval σ Value) := by
  have created (kind : ErrorClass) (message : String) :
      Raises A F (createError kind message : Eval σ Value) := by
    unfold createError newError
    exact raises_bind (raises_ask _) fun _ => raises_bind (raises_bind (raises_perform _) fun _ =>
      raises_bind (raises_ask _) fun _ => raises_bind (raises_perform _) fun _ => raises_pure _)
        fun _ => raises_pure _
  unfold faultValue
  split
  · exact raises_pure _
  · exact created _ _
  · exact created _ _
  · exact created _ _
  · exact created _ _
  · exact raises_bind (raises_ask _) fun _ => created _ _

theorem raises_settle (location : Span) (r : Except Fault Completion) :
    Raises A Fault.Final (settle location r : Eval σ Completion) := by
  cases r with
  | ok completion => exact raises_pure _
  | error fault =>
    by_cases final : (fault.isSuspension || fault.isHostAbort) = true
    · simp only [settle, final, if_true]
      refine raises_throw ?_
      simpa [Fault.Final, or_comm] using final
    · simp only [settle, final]
      exact raises_bind (raises_faultValue fault) fun _ => raises_pure _

theorem raises_listed (index : Nat) (last : Option Value) (span : Span)
    (statement : Eval σ Completion) :
    Raises A Fault.Final (listed index last span statement) := by
  refine raises_bind ?_ fun _ => raises_outcome (fun _ => raises_settle span _) fun _ =>
    raises_settle span _
  intro m fault m' run
  exact .inl (Limit.checkAll_isHostAbort (Outcome.finished.inj run).1)

theorem raises_evalFrom (shortcuts : Bool) (body : List Stmt) (index skip : Nat)
    (last : Option Value) :
    Raises A Fault.Final (evalFrom shortcuts body index skip last : Eval σ Completion) := by
  induction body generalizing index skip last with
  | nil =>
    unfold evalFrom
    exact raises_pure _
  | cons s rest ih =>
    cases skip with
    | succ skip => exact ih (index + 1) skip last
    | zero =>
      unfold evalFrom
      refine raises_bind (raises_listed index last _ _) fun completion => ?_
      unfold andThen
      split
      · exact raises_pure _
      · exact ih (index + 1) 0 _

theorem raises_list (shortcuts : Bool) (body : List Stmt) :
    Raises A Fault.Final (list (evalFrom shortcuts body 0)) := by
  refine raises_bind (raises_takeRecord _) fun resumed => ?_
  cases resumed with
  | none => exact raises_evalFrom shortcuts body 0 0 none
  | some from_ => exact raises_evalFrom shortcuts body 0 _ _

/-! ## Blocks -/

theorem raises_createFunction (node : FunctionNode) (scope : EnvironmentId) (use : FunctionUse) :
    Raises A F (createFunction node scope use : Eval σ ObjectId) := by
  unfold createFunction
  refine raises_bind (raises_ask _) fun _ => raises_bind (raises_ask _) fun _ =>
    raises_bind (raises_perform _) fun _ => ?_
  split
  · exact raises_bind (raises_perform _) fun _ => raises_bind (raises_perform _) fun _ =>
      raises_pure _
  · split
    · exact raises_bind (raises_perform _) fun _ => raises_bind (raises_perform _) fun _ =>
        raises_pure _
    · exact raises_pure _

end Eval

namespace Store

variable {s : Store} {e : EnvironmentId} {name : String}

theorem createMutable_of_absent (absent : s.hasBinding e name = false) (deletable : Bool) :
    ∃ change, s.createMutable e name deletable = .ok change := by
  unfold hasBinding at absent
  unfold createMutable changeBindings Bindings.createMutable Bindings.create
  cases record : (s.environment e).record <;> simp_all [Except.map]

theorem initBinding_isHostAbort {value : Value} {fault : Fault}
    (h : s.initBinding e name value = .error fault) : fault.isHostAbort = true := by
  have assigned (o : ObjectId) : s.assignProperty o name value false ≠ .error fault := by
    unfold assignProperty
    split
    · simp_all
    · split <;> simp
  have changed (h : s.changeBindings e (Bindings.initBinding · name value) = .error fault) :
      fault.isHostAbort = true := by
    have missing (b : Bindings) {f : Bindings → Change}
        (h : (Bindings.initBinding b name value).map f = .error fault) : fault.isHostAbort = true := by
      unfold Bindings.initBinding at h
      split at h
      · cases h
        rfl
      · cases h
    unfold changeBindings at h
    split at h
    · exact missing _ h
    · exact missing _ h
    · exact missing _ h
    · cases h
  unfold initBinding at h
  split at h
  · split at h
    · exact changed h
    · exact absurd h (assigned _)
  · exact absurd h (assigned _)
  · exact changed h

end Store

namespace Eval

variable {A : Answers σ} {F : Fault → Prop}

theorem raises_createFunctionNames (scope : EnvironmentId) (functions : List FunctionNode) :
    Raises A F (createFunctionNames scope functions : Eval σ Unit) := by
  induction functions with
  | nil => exact raises_pure _
  | cons f rest ih =>
    unfold createFunctionNames
    cases f.name with
    | none => exact ih
    | some name =>
      intro m fault m' run
      rw [eval_bind, eval_ask, proceed_ok] at run
      cases present : m.store.hasBinding scope name with
      | true =>
        rw [present] at run
        exact ih m fault m' run
      | false =>
        obtain ⟨change, found⟩ := Store.createMutable_of_absent present false
        simp only [present, Bool.not_false, if_true] at run
        rw [eval_bind, A.eval_commit (·.createMutable scope name false) fun _ => rfl,
          found] at run
        exact ih _ fault m' run

theorem raises_createFunctions (scope : EnvironmentId) (functions : List FunctionNode) :
    Raises A Fault.Final (createFunctions scope functions : Eval σ Unit) := by
  induction functions with
  | nil => exact raises_pure _
  | cons f rest ih =>
    unfold createFunctions
    cases f.name with
    | none => exact ih
    | some name =>
      refine raises_bind (raises_createFunction f scope {}) fun function =>
        raises_bind ?_ fun _ => ih
      intro m fault m' run
      rw [A.eval_commit (·.initBinding scope name (.object function)) fun _ => rfl] at run
      split at run
      · cases run
      · rename_i failed
        cases run
        exact .inl (Store.initBinding_isHostAbort failed)

theorem raises_openBlock (body : List Stmt) (outer : EnvironmentId) :
    Raises A (fun fault => fault.Final ∨ fault.Repeats body)
      (openBlock (blockScope body) outer) := by
  unfold openBlock
  split
  · exact raises_pure _
  · intro m fault m' run
    rw [eval_bind, eval_perform, proceed_ok, eval_bind] at run
    have opened : ((Effect.enclose (.block outer)).apply m).2.store.IsBlock
        ((Effect.enclose (.block outer)).apply m).1 .empty := .enclose m.store outer
    obtain ⟨r, m₁, created, ends⟩ := A.eval_createLexicals opened (lexicalNames body)
    rw [blockScope, created] at run
    cases r with
    | error failed =>
      obtain ⟨name, -, is, absurd | twice⟩ := ends
      · cases absurd
      · cases run
        exact .inr ⟨name, twice, is⟩
    | ok u =>
      refine .inl (raises_bind (raises_createFunctionNames _ _) (fun _ => ?_) m₁ fault m' run)
      exact raises_bind (raises_createFunctions _ _) fun _ => raises_pure _

theorem openBlock_repeated {body : List Stmt}
    (twice : ¬ ((lexicalNames body).map (·.name)).Nodup) (outer : EnvironmentId) (m : Machine σ) :
    ∃ fault m', A.eval (openBlock (blockScope body) outer) m = .finished (.error fault) m' ∧
      fault.Repeats body := by
  have some : ((blockScope body).lexical.isEmpty && (blockScope body).functions.isEmpty) = false := by
    cases names : lexicalNames body with
    | nil => simp [names] at twice
    | cons x rest => simp [blockScope, names]
  have opened : ((Effect.enclose (.block outer)).apply m).2.store.IsBlock
      ((Effect.enclose (.block outer)).apply m).1 .empty := .enclose m.store outer
  obtain ⟨r, m₁, created, ends⟩ := A.eval_createLexicals opened (lexicalNames body)
  cases r with
  | ok u => exact absurd ends.2.1 twice
  | error fault =>
    obtain ⟨name, -, is, absurd | count⟩ := ends
    · cases absurd
    · refine ⟨fault, m₁, ?_, name, count, is⟩
      unfold openBlock
      rw [some, if_neg Bool.false_ne_true, eval_bind, eval_perform,
        proceed_ok, eval_bind]
      change (A.eval (createLexicals _ (lexicalNames body)) _).proceed _ = _
      rw [created]
      rfl

theorem raises_block (shortcuts : Bool) (body : List Stmt) :
    Raises A (fun fault => fault.Final ∨ fault.Repeats body)
      (block (blockScope body) (list (evalFrom shortcuts body 0))) := by
  have statements (scope : Option EnvironmentId) :
      Raises A (fun fault => fault.Final ∨ fault.Repeats body)
        (recording (.scope scope) (withinSome scope (list (evalFrom shortcuts body 0))) :
          Eval σ Completion) :=
    (raises_recording (raises_withinSome (raises_list shortcuts body) scope) _).mono
      fun _ final => .inl final
  refine raises_bind ((raises_takeRecord _).mono fun _ final => .inl final) fun taken => ?_
  cases taken with
  | some scope => exact statements scope
  | none =>
    exact raises_bind (raises_ask _) fun outer =>
      raises_bind (raises_openBlock body outer) statements

def guarded (body : Eval σ Completion) (handler : Option (Handler σ)) :
    Option TryPhase → Eval σ Completion
  | some (.finalizer pending) => pure pending
  | some (.handler environment) => match handler with
    | none => throw (.internal .noHandler)
    | some handler => runHandler handler environment
  | some .block | none => runGuarded body handler

theorem eval_tryStatement (body : Eval σ Completion) (handler : Option (Handler σ))
    (finalizer : Option (Eval σ Completion)) (m : Machine σ) :
    A.eval (tryStatement body handler finalizer) m =
      (A.eval (takeTry >>= guarded body handler) m).proceed fun completion m' =>
        A.eval (runFinalizer finalizer completion) m' := by
  rw [tryStatement, eval_bind, eval_bind, proceed_assoc]
  refine congrArg _ (funext fun phase => funext fun m₁ => ?_)
  rw [← eval_bind]
  rcases phase with _ | phase
  · rfl
  · cases phase with
    | block => rfl
    | finalizer pending => rfl
    | handler environment => cases handler <;> rfl

end Eval

structure Machine.Catches (m : Machine σ) (parameter : Option String) (thrown : Value)
    (scope : EnvironmentId) (m' : Machine σ) : Prop where
  fresh : ¬ m.store.Has scope
  outer : (m'.store.environment scope).outer = some m.lexical
  bound : ∀ name, parameter = some name → m'.store.getBinding scope name true = .ok thrown
  stack : m'.stack = m.stack

theorem Answers.eval_openHandler (parameter : Option String) (thrown : Value) (m : Machine σ) :
    ∃ scope m', A.eval (openHandler parameter thrown) m = .finished (.ok scope) m' ∧
      m.Catches parameter thrown scope m' := by
  have opened : ((Effect.enclose (.block (some m.lexical))).apply m).2.store.IsBlock
      ((Effect.enclose (.block (some m.lexical))).apply m).1 .empty := .enclose m.store _
  have fresh : ¬ m.store.Has ((Effect.enclose (.block (some m.lexical))).apply m).1 :=
    Nat.lt_irrefl _
  have outer : (((Effect.enclose (.block (some m.lexical))).apply m).2.store.environment
      ((Effect.enclose (.block (some m.lexical))).apply m).1).outer = some m.lexical := by
    let env := Environment.block (some m.lexical)
    change ((m.store.enclose env).2.environment (m.store.enclose env).1).outer = some m.lexical
    rw [Store.environment_enclose, if_pos (by rfl)]
    rfl
  have stack : ((Effect.enclose (.block (some m.lexical))).apply m).2.stack = m.stack := rfl
  rw [openHandler, eval_bind, eval_ask, proceed_ok, eval_bind, eval_perform,
    proceed_ok]
  generalize (Effect.enclose (.block (some m.lexical))).apply m = entered at *
  obtain ⟨scope, m₁⟩ := entered
  dsimp only at *
  cases parameter with
  | none => exact ⟨scope, m₁, rfl, fresh, outer, nofun, stack⟩
  | some name =>
    let x : LexicalName := ⟨name, false⟩
    let declared : Bindings := Table.empty.insert name x.binding
    let bindings : Bindings :=
      declared.insert name { x.binding with value := thrown, initialized := true }
    have created : A.eval (attempt (.createMutable scope name false)) m₁ =
        .finished (.ok ()) (m₁.setBindings scope declared) :=
      A.eval_createLexical opened x
    have block := opened.setBindings declared
    have initialized : A.eval (attempt (.initBinding scope name thrown))
        (m₁.setBindings scope declared) =
          .finished (.ok ()) ((m₁.setBindings scope declared).setBindings scope bindings) :=
      A.eval_initBinding block (by rw [Table.find?_insert, if_pos rfl]) thrown
    have bound := block.setBindings bindings
    refine ⟨scope, (m₁.setBindings scope declared).setBindings scope bindings, ?_, fresh, ?_, ?_,
      stack⟩
    · simp only [eval_bind, created, proceed_ok, initialized, eval_pure]
    · exact (Store.outer_apply _ _ block.has).trans ((Store.outer_apply _ _ opened.has).trans outer)
    · rintro _ ⟨⟩
      simp only [Store.getBinding, bound.record, Bindings.get, bindings, Table.find?_insert, if_true]

/-! ## Every `try` statement -/

def evalBlock (shortcuts : Bool) (body : List Stmt) : Eval σ Completion :=
  Eval.block (blockScope body) (list (evalFrom shortcuts body 0))

theorem evalHandler_some (shortcuts : Bool) (clause : CatchClause) :
    evalHandler (σ := σ) shortcuts (some clause) =
      some ⟨clause.parameter, evalBlock shortcuts clause.body⟩ := by
  obtain ⟨parameter, body⟩ := clause
  rfl

def tryLists (body : List Stmt) (handler : Option CatchClause) (finalizer : Option (List Stmt)) :
    List (List Stmt) :=
  body :: (handler.map (·.body)).toList ++ finalizer.toList

section

variable (A : Answers σ) (shortcuts : Bool) (body : List Stmt) (handler : Option CatchClause)
  (finalizer : Option (List Stmt))

def Fault.LeavesTry (fault : Fault) : Prop :=
  fault.Final ∨ ∃ list ∈ tryLists body handler finalizer, fault.Repeats list

theorem Eval.raises_evalBlock {list : List Stmt} (member : list ∈ tryLists body handler finalizer) :
    Raises A (Fault.LeavesTry body handler finalizer)
      (evalBlock shortcuts list : Eval σ Completion) :=
  (raises_block shortcuts list).mono fun _ => Or.imp_right fun repeats => ⟨list, member, repeats⟩

theorem Eval.raises_guarded (phase : Option TryPhase) :
    Raises A (Fault.LeavesTry body handler finalizer)
      (guarded (evalBlock shortcuts body) (evalHandler shortcuts handler) phase) := by
  have handled {clause : CatchClause} (is : handler = some clause) (scope : Option EnvironmentId) :
      Raises A (Fault.LeavesTry body handler finalizer)
        (runHandler ⟨clause.parameter, evalBlock shortcuts clause.body⟩ scope) :=
    raises_recording (raises_withinSome
      (raises_evalBlock A shortcuts body handler finalizer (by simp [tryLists, is])) scope) _
  have fresh : Raises A (Fault.LeavesTry body handler finalizer)
      (runGuarded (evalBlock shortcuts body) (evalHandler shortcuts handler)) := by
    refine raises_bind (raises_recording
      (raises_evalBlock A shortcuts body handler finalizer (by simp [tryLists])) _) fun completion => ?_
    split
    · rename_i h found
      obtain _ | clause := handler
      · cases found
      · rw [evalHandler_some] at found
        cases found
        refine raises_bind ?_ fun scope => handled rfl (some scope)
        intro m fault m' run
        obtain ⟨scope, m₁, opened, -⟩ :=
          A.eval_openHandler clause.parameter completion.valueOrUndefined m
        cases opened.symm.trans run
    · exact raises_pure _
  rcases phase with _ | phase
  · exact fresh
  · cases phase with
    | block => exact fresh
    | finalizer pending => exact raises_pure _
    | handler scope =>
      obtain _ | clause := handler
      · exact raises_throw (.inl (.inl rfl))
      · rw [evalHandler_some]
        exact handled rfl scope

theorem Eval.raises_runFinalizer (pending : Completion) :
    Raises A (Fault.LeavesTry body handler finalizer)
      (runFinalizer (evalFinalizer shortcuts finalizer) pending) := by
  obtain _ | list := finalizer
  · exact raises_pure _
  · exact raises_bind (raises_recording (raises_evalBlock A shortcuts body handler (some list)
      (by simp [tryLists])) _) fun _ => raises_pure _

end

theorem Machine.takeResumePoint_again (nothing : (Effect.takeResumePoint.apply m).1 = none) :
    (Effect.takeResumePoint.apply (Effect.takeResumePoint.apply m).2).1 = none := by
  cases running : m.runningGenerator? with
  | none => simp [Effect.apply, running]
  | some g =>
    have running' (change : Generator → Generator) :
        (m.modifyGenerator g change).runningGenerator? = some g := running
    simp only [Effect.apply, running, running', generator?_modifyGenerator, if_true] at nothing ⊢
    cases found : m.generator? g with
    | none => rfl
    | some generator => simp_all

theorem Answers.eval_takeRecord_none (reading : ResumePoint → Option α)
    (nothing : (Effect.takeResumePoint.apply m).1 = none) :
    A.eval (takeRecord reading) m = .finished (.ok none) (Effect.takeResumePoint.apply m).2 := by
  rw [takeRecord, eval_bind, eval_perform, proceed_ok, nothing]
  rfl

theorem Eval.eval_evalBlock_repeated (shortcuts : Bool) {body : List Stmt}
    (twice : ¬ ((lexicalNames body).map (·.name)).Nodup)
    (nothing : (Effect.takeResumePoint.apply m).1 = none) :
    ∃ fault m', A.eval (evalBlock shortcuts body) m = .finished (.error fault) m' ∧
      fault.Repeats body := by
  obtain ⟨fault, m', failed, repeats⟩ := openBlock_repeated (A := A) twice
    (Effect.takeResumePoint.apply m).2.lexical (Effect.takeResumePoint.apply m).2
  refine ⟨fault, m', ?_, repeats⟩
  rw [evalBlock, block, eval_bind, takeScope, A.eval_takeRecord_none _ nothing,
    proceed_ok]
  dsimp only
  rw [eval_bind, eval_ask, proceed_ok, eval_bind, failed]
  rfl

/-- What a `try` statement receives, in every state. The faults that leave it are host aborts,
suspensions, and those of entering one of its lists that declares a lexical name twice. -/
theorem try_receives_errors (engine : Engine σ) (fuel : Nat) (body : List Stmt)
    (handler : Option CatchClause) (finalizer : Option (List Stmt)) (span : Span)
    (labels : List String) (m : Machine σ) :
    let statement : Eval σ Completion :=
      (Stmt.tryCatch body handler finalizer span).eval engine.shortcuts labels
    let before : Eval σ Completion := takeTry >>= guarded (evalBlock engine.shortcuts body)
      (evalHandler engine.shortcuts handler)
    let after (completion : Completion) : Eval σ Completion :=
      runFinalizer (evalFinalizer engine.shortcuts finalizer) completion
    (∀ fault m', engine.run fuel statement m = .finished (.error fault) m' →
      fault.Final ∨ ∃ list ∈ tryLists body handler finalizer, fault.Repeats list) ∧
    (∀ clause phase m₁ completion m₂, handler = some clause →
      engine.run fuel takeTry m = .finished (.ok phase) m₁ → phase = none ∨ phase = some .block →
      engine.run fuel (evalBlock engine.shortcuts body) m₁ = .finished (.ok completion) m₂ →
      completion.kind = .throw →
      ∃ scope m₃, m₂.Catches clause.parameter completion.valueOrUndefined scope m₃ ∧
        engine.run fuel statement m = (engine.run fuel (runHandler
          ⟨clause.parameter, evalBlock engine.shortcuts clause.body⟩ (some scope)) m₃).proceed
            fun completion m₄ => engine.run fuel (after completion) m₄) ∧
    (∀ list completion m', finalizer = some list →
      engine.run fuel statement m = .finished (.ok completion) m' →
      ∃ pending m₁ last, engine.run fuel before m = .finished (.ok pending) m₁ ∧
        engine.run fuel (evalBlock engine.shortcuts list) m₁ = .finished (.ok last) m' ∧
        completion = if last.kind = .normal then pending else last) ∧
    (¬ ((lexicalNames body).map (·.name)).Nodup → (Effect.takeResumePoint.apply m).1 = none →
      ∃ fault m', engine.run fuel statement m = .finished (.error fault) m' ∧ fault.Repeats body) := by
  intro statement before after
  have split : engine.run fuel statement m = (engine.run fuel before m).proceed
      fun completion m' => engine.run fuel (after completion) m' :=
    eval_tryStatement (A := engine.answers fuel) _ _ _ m
  have raises : Raises (engine.answers fuel) (Fault.LeavesTry body handler finalizer) before :=
    raises_bind ((raises_takeRecord _).mono fun _ => .inl)
      (raises_guarded _ engine.shortcuts body handler finalizer)
  refine ⟨fun fault m' run => ?_, ?_, ?_, ?_⟩
  · rw [split, Outcome.proceed, Outcome.andThen_eq_finished] at run
    obtain ⟨r, m₁, first, rest⟩ := run
    cases r with
    | error fault₁ =>
        cases rest
        exact raises m fault m' first
    | ok pending =>
        exact raises_runFinalizer (engine.answers fuel) engine.shortcuts body handler finalizer pending
          m₁ fault m' rest
  · rintro clause phase m₁ completion m₂ rfl taken fresh block throws
    obtain ⟨scope, m₃, opened, catches⟩ := (engine.answers fuel).eval_openHandler clause.parameter
      completion.valueOrUndefined m₂
    refine ⟨scope, m₃, catches, split.trans (congrArg (Outcome.proceed · _) ?_)⟩
    have guards : guarded (evalBlock engine.shortcuts body)
        (evalHandler engine.shortcuts (some clause)) phase =
          (runGuarded (evalBlock engine.shortcuts body)
            (evalHandler engine.shortcuts (some clause)) : Eval σ Completion) := by
      rcases fresh with rfl | rfl <;> rfl
    rw [engine.run_eq] at taken block ⊢
    rw [Answers.eval_bind, taken, Outcome.proceed_ok, guards, runGuarded, Answers.eval_bind,
      Answers.eval_recording, block, Outcome.andThen_finished, Outcome.proceed_ok, evalHandler_some,
      throws]
    dsimp only
    rw [Answers.eval_bind, opened, Outcome.proceed_ok]
    rfl
  · rintro list completion m' rfl run
    rw [split, Outcome.proceed_eq_ok] at run
    obtain ⟨pending, m₁, first, last⟩ := run
    have last : (engine.answers fuel).eval (recording (.tryCatch (.finalizer pending))
        (evalBlock engine.shortcuts list) >>= fun result =>
          pure (if result.kind = .normal then pending else result)) m₁ =
        .finished (.ok completion) m' := last
    rw [Answers.eval_bind, Outcome.proceed_eq_ok] at last
    obtain ⟨result, m₂, final, ends⟩ := last
    rw [Answers.eval_recording, Outcome.andThen_eq_finished] at final
    obtain ⟨r, m₃, final, rest⟩ := final
    cases rest
    cases ends
    exact ⟨pending, m₁, result, first, final, rfl⟩
  · intro twice nothing
    obtain ⟨fault, m', failed, repeats⟩ := eval_evalBlock_repeated (engine.answers fuel)
      engine.shortcuts twice (Machine.takeResumePoint_again nothing)
    refine ⟨fault, m', ?_, repeats⟩
    obtain ⟨name, -, rfl⟩ := repeats
    rw [split, engine.run_eq, Answers.eval_bind, takeTry,
      Answers.eval_takeRecord_none _ _ nothing, Outcome.proceed_ok]
    change ((Answers.eval _ (runGuarded _ _) _).proceed _) = _
    rw [runGuarded, Answers.eval_bind, Answers.eval_recording, failed]
    rfl

/-- A catch clause and a finalizer do not help against `let x; let x;` in the block. -/
theorem try_receives_errors_repeated :
    let body : List Stmt :=
      [.declare ⟨.let, [⟨"x", none⟩], {}⟩, .declare ⟨.let, [⟨"x", none⟩], {}⟩]
    ∃ fault m', ({} : Engine Unit).run 0
        ((Stmt.tryCatch body (some ⟨some "e", []⟩) (some []) {}).eval true []) Machine.bare =
      .finished (.error fault) m' ∧ fault.Repeats body := by
  intro body
  have receives := try_receives_errors ({} : Engine Unit) 0 body (some ⟨some "e", []⟩) (some []) {} []
    Machine.bare
  exact receives.2.2.2 (by decide) rfl

end ScriptEngine
