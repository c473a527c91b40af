import ScriptEngine.Proofs.Interpretation

/-!
# Plain evaluations

Expressions, declarations and the helpers they use change objects, scopes and bindings, and leave
generators and limits alone; they make calls but start no frames and no loops, and of themselves
they never suspend.
-/

namespace ScriptEngine

variable {σ α β : Type} (o : ObjectId) (key : String)

def Unsuspended (r : Except Fault α) : Prop := ∀ v, r ≠ .error (.suspended v)

theorem unsuspended_ok (a : α) : Unsuspended (.ok a) := nofun

theorem unsuspended_error {fault : Fault} :
    Unsuspended (.error fault : Except Fault α) ↔ ∀ v, fault ≠ .suspended v := by
  simp [Unsuspended]

def Except.fault? : Except Fault α → Option Fault
  | .ok _ => none
  | .error fault => some fault

def Effect.Plain : Effect σ β → Prop
  | .allocate object => ∀ f, object.kind ≠ .function (.bound f)
  | .createGenerator .. | .startRun .. | .suspend .. | .complete _ | .takeResumePoint
  | .pushResumePoint _ | .takeResumption | .checkLimits | .resetLimits => False
  | _ => True

def Action.Plain : {α : Type} → Action σ α → (received : Option Fault) →
    (ok : α → Option Fault → Prop) → Prop
  | _, .pure a, received, ok => ok a received
  | _, .read view next, received, ok => received = none ∧ ∀ m, Plain (next (view m)) none ok
  | _, .perform effect next, received, ok =>
    received = none ∧ effect.Plain ∧ ∀ m, Plain (next (effect.apply m).1) none ok
  | _, .inScope _ _ body next, received, ok =>
    Plain body received fun b received => Plain (next b) received ok
  | _, .inFrame .., _, _ => False
  | _, .invoke _ next, received, ok => received = none ∧ ∀ r, Plain (next r) (Except.fault? r) ok
  | _, .loop .., _, _ => False

theorem Action.Plain.mono {x : Action σ α} {received : Option Fault}
    {ok ok' : α → Option Fault → Prop} (h : x.Plain received ok)
    (weaker : ∀ a received, ok a received → ok' a received) : x.Plain received ok' := by
  induction x generalizing received with
  | pure a => exact weaker a received h
  | read view next ih => exact ⟨h.1, fun m => ih _ (h.2 m) weaker⟩
  | perform effect next ih => exact ⟨h.1, h.2.1, fun m => ih _ (h.2.2 m) weaker⟩
  | inScope lexical varScope body next ihBody ih =>
    exact ihBody h fun b received hb => ih b hb weaker
  | inFrame frame body next _ _ => exact h
  | invoke invocation next ih => exact ⟨h.1, fun r => ih r (h.2 r) weaker⟩
  | loop l next ih => exact h

theorem Action.plain_bind {x : Action σ α} {f : α → Action σ β} {received : Option Fault}
    {ok : β → Option Fault → Prop} :
    (x.bind f).Plain received ok ↔
      x.Plain received fun a received => (f a).Plain received ok := by
  induction x generalizing received with
  | pure a => rfl
  | read view next ih | perform effect next ih | inScope lexical varScope body next _ ih
  | invoke invocation next ih => simp only [Action.bind, Action.Plain, ih]
  | inFrame | loop => rfl

namespace Eval

def Passes (r : Except Fault α) : Option Fault → Prop
  | some fault => r = .error fault
  | none => Unsuspended r

def Plain (x : Eval σ α) : Prop := x.run.Plain none Passes

/-! ## The operations of evaluations -/

@[grind .]
theorem plain_pure (a : α) : Plain (pure a : Eval σ α) := nofun

@[grind ←]
theorem plain_ofExcept {r : Except Fault α} (h : Unsuspended r) : Plain (ofExcept r : Eval σ α) := h

theorem plain_throw {fault : Fault} (h : ∀ v, fault ≠ .suspended v) :
    Plain (throw fault : Eval σ α) := unsuspended_error.2 h

@[grind .]
theorem plain_typeError (issue : TypeIssue) : Plain (typeError issue : Eval σ α) :=
  plain_throw nofun

@[grind .]
theorem plain_throw_syntaxError (issue : SyntaxIssue) (location : Option Span) :
    Plain (throw (.syntaxError issue location) : Eval σ α) := plain_throw nofun

@[grind ←]
theorem plain_bind {x : Eval σ α} {f : α → Eval σ β} (hx : Plain x) (hf : ∀ a, Plain (f a)) :
    Plain (x >>= f) := by
  refine Action.plain_bind.2 (hx.mono fun r received h => ?_)
  cases received with
  | some fault =>
    cases h
    rfl
  | none => cases r with
    | ok a => exact hf a
    | error fault => exact plain_throw (unsuspended_error.1 h)

@[grind .]
theorem plain_ask (view : Machine σ → α) : Plain (ask view) := ⟨rfl, fun _ => nofun⟩

@[grind ←]
theorem plain_askFor {view : Machine σ → Except Fault α} (h : ∀ m, Unsuspended (view m)) :
    Plain (askFor view) := ⟨rfl, h⟩

@[grind ←]
theorem plain_perform {effect : Effect σ α} (h : effect.Plain) : Plain (perform effect) :=
  ⟨rfl, h, fun _ => nofun⟩

theorem plain_attempt {effect : Effect σ (Except Fault α)} (h : effect.Plain)
    (unsuspended : ∀ m, Unsuspended (effect.apply m).1) : Plain (attempt effect) :=
  ⟨rfl, h, unsuspended⟩

@[grind ←]
theorem plain_within (scope : EnvironmentId) {x : Eval σ α} (h : Plain x) :
    Plain (within scope x) := h

theorem plain_request (r : Except Fault α) : Passes r (Except.fault? r) := by
  cases r with
  | ok a => nofun
  | error fault => rfl

@[grind .]
theorem plain_call (callee this : Value) (arguments : List Value) :
    Plain (call callee this arguments : Eval σ Value) := ⟨rfl, plain_request⟩

@[grind .]
theorem plain_construct (callee : Value) (arguments : List Value) (newTarget : Option Value) :
    Plain (construct callee arguments newTarget : Eval σ Value) := ⟨rfl, plain_request⟩

end Eval

@[grind =]
theorem Effect.plain_allocate (object : Object) :
    (Effect.allocate object : Effect σ ObjectId).Plain ↔
      ∀ f, object.kind ≠ .function (.bound f) := .rfl

@[grind .]
theorem Effect.plain_define (property : Property) :
    (Effect.define o key property : Effect σ Unit).Plain := trivial

@[grind .]
theorem Effect.plain_write (value : Value) :
    (Effect.write o key value : Effect σ Bool).Plain := trivial

@[grind .]
theorem Effect.plain_remove :
    (Effect.remove o key : Effect σ Bool).Plain := trivial

@[grind .]
theorem Effect.plain_enclose (environment : Environment) :
    (Effect.enclose environment : Effect σ EnvironmentId).Plain := trivial

@[grind .]
theorem Effect.plain_deleteBinding (e : EnvironmentId) (name : String) :
    (Effect.deleteBinding e name : Effect σ Bool).Plain := trivial

/-! ## Bindings do not suspend -/

theorem unsuspended_map {r : Except Fault α} (h : Unsuspended r) (f : α → β) :
    Unsuspended (r.map f) := by
  cases r with
  | ok a => nofun
  | error fault => exact unsuspended_error.2 (unsuspended_error.1 h)

namespace Bindings

variable (b : Bindings) (name : String)

theorem create_unsuspended (binding : Binding) : Unsuspended (create b name binding) := by
  unfold create
  split <;> nofun

theorem initBinding_unsuspended (value : Value) : Unsuspended (initBinding b name value) := by
  unfold initBinding
  split <;> nofun

theorem assign_unsuspended (value : Value) (strict : Bool) :
    Unsuspended (assign b name value strict) := by
  unfold assign
  repeat' split
  all_goals nofun

theorem get_unsuspended : Unsuspended (get b name) := by
  unfold get
  repeat' split
  all_goals nofun

end Bindings

namespace Store

variable (s : Store) (e : EnvironmentId) (name : String) (value : Value) (deletable : Bool)
  (strict : Bool)

theorem changeBindings_unsuspended {change : Bindings → Except Fault Bindings}
    (h : ∀ b, Unsuspended (change b)) : Unsuspended (s.changeBindings e change) := by
  unfold changeBindings
  split
  all_goals first | exact unsuspended_map (h _) _ | exact unsuspended_ok _

theorem assignProperty_unsuspended (o : ObjectId) (strict : Bool) :
    Unsuspended (s.assignProperty o name value strict) := by
  unfold assignProperty
  repeat' split
  all_goals nofun

theorem createMutable_unsuspended : Unsuspended (s.createMutable e name deletable) := by
  unfold createMutable
  split
  · nofun
  · exact s.changeBindings_unsuspended e fun b => Bindings.create_unsuspended b name _

theorem createImmutable_unsuspended : Unsuspended (s.createImmutable e name strict) := by
  unfold createImmutable
  split
  · nofun
  · exact s.changeBindings_unsuspended e fun b => Bindings.create_unsuspended b name _

theorem initBinding_unsuspended : Unsuspended (s.initBinding e name value) := by
  have change := s.changeBindings_unsuspended e fun b => Bindings.initBinding_unsuspended b name value
  unfold initBinding
  repeat' split
  all_goals first | exact change | exact s.assignProperty_unsuspended name value _ _

theorem assign_unsuspended : Unsuspended (s.assign e name value strict) := by
  have change := s.changeBindings_unsuspended e fun b => Bindings.assign_unsuspended b name value strict
  unfold assign
  repeat' split
  all_goals first | exact change | exact s.assignProperty_unsuspended name value _ _

theorem readProperty_unsuspended (o : ObjectId) (strict : Bool) :
    Unsuspended (s.readProperty o name strict) := by
  unfold readProperty
  repeat' split
  all_goals nofun

@[grind .]
theorem getBinding_unsuspended : Unsuspended (s.getBinding e name strict) := by
  unfold getBinding
  repeat' split
  all_goals
    first | exact Bindings.get_unsuspended _ name | exact s.readProperty_unsuspended name _ strict

theorem bindThis_unsuspended : Unsuspended (s.bindThis e value) := by
  unfold bindThis
  repeat' split
  all_goals nofun

theorem declareVar_unsuspended : Unsuspended (s.declareVar e name deletable) := by
  unfold declareVar
  split <;> nofun

theorem declareFunction_unsuspended : Unsuspended (s.declareFunction e name value deletable) := by
  unfold declareFunction
  split
  · dsimp only
    split <;> nofun
  · nofun

theorem commit_unsuspended {r : Except Fault Change} (h : Unsuspended r) :
    Unsuspended (s.commit r).1 := by
  cases r with
  | ok change => nofun
  | error fault => exact unsuspended_error.2 (unsuspended_error.1 h)

end Store

@[grind .]
theorem Environment.getThis_unsuspended (env : Environment) : Unsuspended env.getThis := by
  unfold getThis
  repeat' split
  all_goals nofun

@[grind .]
theorem Machine.getThis_unsuspended (m : Machine σ) : Unsuspended m.getThis :=
  (m.store.environment m.thisScope).getThis_unsuspended

@[grind .]
theorem Machine.getReference_unsuspended (m : Machine σ) (r : Reference) :
    Unsuspended (m.getReference r) := by
  unfold getReference
  split
  · nofun
  · exact m.store.getBinding_unsuspended _ r.name r.strict

end ScriptEngine
