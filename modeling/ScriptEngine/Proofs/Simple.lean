import ScriptEngine.Proofs.Plain

/-!
# How expressions are put together

Expressions, declarations and the helpers they use are sequences of looks at the machine, of effects
on objects, scopes and bindings, and of calls. None of their looks depends on the limits that the
host has set.
-/

namespace ScriptEngine

variable {σ α β : Type}

/-! ## Looks that do not depend on the limits -/

def Machine.relaxed (m : Machine σ) (limits : List Limit) (depth : Option Nat) : Machine σ :=
  { m with limits, options := { m.options with maxRecursionDepth := depth } }

def Blind (view : Machine σ → α) : Prop :=
  ∀ m limits depth, view (m.relaxed limits depth) = view m

namespace Machine

variable (m : Machine σ) (limits : List Limit) (depth : Option Nat)

@[simp, grind =] theorem relaxed_store : (m.relaxed limits depth).store = m.store := rfl

@[simp, grind =] theorem relaxed_heap : (m.relaxed limits depth).heap = m.heap := rfl

@[simp, grind =] theorem relaxed_realm : (m.relaxed limits depth).realm = m.realm := rfl

@[simp, grind =] theorem relaxed_lexical : (m.relaxed limits depth).lexical = m.lexical := rfl

@[simp, grind =] theorem relaxed_strict : (m.relaxed limits depth).strict = m.strict := rfl

@[simp, grind =] theorem relaxed_thisScope : (m.relaxed limits depth).thisScope = m.thisScope := rfl

@[simp, grind =] theorem relaxed_getThis : (m.relaxed limits depth).getThis = m.getThis := rfl

@[simp, grind =] theorem relaxed_reference (name : String) :
    (m.relaxed limits depth).reference name = m.reference name := rfl

@[simp, grind =] theorem relaxed_getReference (r : Reference) :
    (m.relaxed limits depth).getReference r = m.getReference r := rfl

@[simp, grind =] theorem relaxed_getGlobal? (name : String) :
    (m.relaxed limits depth).getGlobal? name = m.getGlobal? name := rfl

@[simp, grind =] theorem relaxed_stackText (error : ObjectId) (skip : Nat) :
    (m.relaxed limits depth).stackText error skip = m.stackText error skip := rfl

end Machine

@[grind =]
theorem blind_iff {view : Machine σ → α} :
    Blind view ↔ ∀ m limits depth, view (m.relaxed limits depth) = view m := .rfl

namespace Eval

inductive Simple : {α : Type} → Eval σ α → Prop where
  | ofExcept {α : Type} {r : Except Fault α} (h : Unsuspended r) : Simple (ofExcept r)
  | ask {α : Type} {view : Machine σ → α} (blind : Blind view) : Simple (ask view)
  | askFor {α : Type} {view : Machine σ → Except Fault α} (blind : Blind view)
      (h : ∀ m, Unsuspended (view m)) : Simple (askFor view)
  | perform {α : Type} {effect : Effect σ α} (h : effect.Plain) : Simple (perform effect)
  | attempt {α : Type} {effect : Effect σ (Except Fault α)} (h : effect.Plain)
      (unsuspended : ∀ m, Unsuspended (effect.apply m).1) : Simple (attempt effect)
  | bind {α β : Type} {x : Eval σ α} {f : α → Eval σ β} (hx : Simple x)
      (hf : ∀ a, Simple (f a)) : Simple (x >>= f)
  | within {α : Type} (scope : EnvironmentId) {x : Eval σ α} (h : Simple x) :
      Simple (within scope x)
  | call (callee this : Value) (arguments : List Value) : Simple (call callee this arguments)
  | construct (callee : Value) (arguments : List Value) (newTarget : Option Value) :
      Simple (construct callee arguments newTarget)

@[grind ←]
theorem Simple.plain {x : Eval σ α} (h : Simple x) : Plain x := by
  induction h with
  | ofExcept h => exact plain_ofExcept h
  | ask _ => exact plain_ask _
  | askFor _ h => exact plain_askFor h
  | perform h => exact plain_perform h
  | attempt h unsuspended => exact plain_attempt h unsuspended
  | bind _ _ ihx ihf => exact plain_bind ihx ihf
  | within scope _ ih => exact plain_within scope ih
  | call callee this arguments => exact plain_call callee this arguments
  | construct callee arguments newTarget => exact plain_construct callee arguments newTarget

/-! ## The operations of evaluations -/

@[grind .]
theorem simple_pure (a : α) : Simple (pure a : Eval σ α) := .ofExcept (unsuspended_ok a)

attribute [grind ←] Simple.ofExcept Simple.ask Simple.askFor Simple.perform Simple.bind
  Simple.within

attribute [grind .] Simple.call Simple.construct

theorem simple_throw {fault : Fault} (h : ∀ v, fault ≠ .suspended v) :
    Simple (throw fault : Eval σ α) := .ofExcept (unsuspended_error.2 h)

@[grind .]
theorem simple_typeError (issue : TypeIssue) : Simple (typeError issue : Eval σ α) :=
  simple_throw nofun

@[grind .]
theorem simple_throw_typeError (issue : TypeIssue) (location : Option Span) :
    Simple (throw (.typeError issue location) : Eval σ α) := simple_throw nofun

@[grind .]
theorem simple_throw_syntaxError (issue : SyntaxIssue) (location : Option Span) :
    Simple (throw (.syntaxError issue location) : Eval σ α) := simple_throw nofun

@[grind .]
theorem simple_throw_referenceError (issue : ReferenceIssue) :
    Simple (throw (.referenceError issue) : Eval σ α) := simple_throw nofun

section

variable (e : EnvironmentId) (name : String) (value : Value) (deletable : Bool)

@[grind .]
theorem simple_createMutable : Simple (attempt (.createMutable e name deletable) : Eval σ Unit) :=
  .attempt trivial fun m => m.store.commit_unsuspended
    (m.store.createMutable_unsuspended e name deletable)

@[grind .]
theorem simple_createImmutable (strict : Bool) :
    Simple (attempt (.createImmutable e name strict) : Eval σ Unit) :=
  .attempt trivial fun m => m.store.commit_unsuspended
    (m.store.createImmutable_unsuspended e name strict)

@[grind .]
theorem simple_initBinding : Simple (attempt (.initBinding e name value) : Eval σ Unit) :=
  .attempt trivial fun m => m.store.commit_unsuspended
    (m.store.initBinding_unsuspended e name value)

@[grind .]
theorem simple_assign (strict : Bool) :
    Simple (attempt (.assign e name value strict) : Eval σ Unit) :=
  .attempt trivial fun m => m.store.commit_unsuspended
    (m.store.assign_unsuspended e name value strict)

@[grind .]
theorem simple_attempt_bindThis : Simple (attempt (.bindThis e value) : Eval σ Unit) :=
  .attempt trivial fun m => m.store.commit_unsuspended (m.store.bindThis_unsuspended e value)

@[grind .]
theorem simple_declareVar : Simple (attempt (.declareVar e name deletable) : Eval σ Unit) :=
  .attempt trivial fun m => m.store.commit_unsuspended
    (m.store.declareVar_unsuspended e name deletable)

@[grind .]
theorem simple_declareFunction :
    Simple (attempt (.declareFunction e name value deletable) : Eval σ Unit) :=
  .attempt trivial fun m => m.store.commit_unsuspended
    (m.store.declareFunction_unsuspended e name value deletable)

end

end Eval

end ScriptEngine
