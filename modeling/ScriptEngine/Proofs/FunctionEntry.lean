import ScriptEngine.Proofs.Additions
import ScriptEngine.Proofs.BlockEntry
import ScriptEngine.Proofs.Pledges.Machine

/-!
# Entering a function

Before the body of a function runs, its parameters get their values and the names that the body
declares are created. Only the parameters run code of the script.
-/

namespace ScriptEngine

open Eval

variable {σ : Type} {A : Answers σ} {scope : EnvironmentId} {node : FunctionNode}
  {m m' : Machine σ} {name : String}

/-! ## The scope of a function -/

def Record.IsLocal : Record → Prop
  | .declarative _ | .function _ => True
  | _ => False

def Store.bindings (s : Store) (e : EnvironmentId) (name : String) : Option Binding :=
  s.binding? (e, name)

structure Store.IsLocal (s : Store) (e : EnvironmentId) : Prop where
  has : s.Has e
  record : (s.environment e).record.IsLocal

namespace Store

variable {s s' : Store} {e : EnvironmentId}

variable (h : s.IsLocal e)

include h

theorem IsLocal.table : ∃ b : Bindings, (∀ name, b.find? name = s.bindings e name) ∧
    ∀ op : Bindings → Except Fault Bindings, ∃ set : Bindings → Record,
      s.changeBindings e op = (op b).map (fun b' => .ofRecord e (set b')) ∧
        ∀ b', (set b').IsLocal ∧ ∀ name, (set b').binding? name = b'.find? name := by
  obtain ⟨has, record⟩ := h
  unfold changeBindings
  cases found : (s.environment e).record with
  | declarative b =>
    refine ⟨b, fun name => ?_, fun op => ⟨_, rfl, fun _ => ⟨trivial, fun _ => rfl⟩⟩⟩
    rw [bindings, binding?, found]
    rfl
  | function r =>
    refine ⟨r.bindings, fun name => ?_, fun op => ⟨_, rfl, fun _ => ⟨trivial, fun _ => rfl⟩⟩⟩
    rw [bindings, binding?, found]
    rfl
  | _ => simp [found, Record.IsLocal] at record

theorem IsLocal.hasBinding (name : String) : s.hasBinding e name = (s.bindings e name).isSome := by
  have record := h.record
  unfold Store.hasBinding Store.bindings Store.binding?
  cases found : (s.environment e).record with
  | declarative | function => rfl
  | _ => simp [found, Record.IsLocal] at record

def Held (s : Store) (e : EnvironmentId) (name : String) (v : Value) : Prop :=
  ∃ b, s.bindings e name = some b ∧ b.initialized = true ∧ b.value = v

theorem IsLocal.getBinding (strict : Bool) {v : Value} (held : s.Held e name v) :
    s.getBinding e name strict = .ok v := by
  obtain ⟨b, bound, initialized, rfl⟩ := held
  have record := h.record
  unfold Store.getBinding
  unfold Store.bindings Store.binding? at bound
  cases found : (s.environment e).record with
  | declarative b' | function r =>
    simp only [found, Record.binding?, Record.table?, Option.bind_some] at bound
    simp only [Bindings.get, bound, initialized, if_true]
  | _ => simp [found, Record.IsLocal] at record

theorem IsLocal.operations :
    (∀ name deletable, s.createMutable e name deletable =
      s.changeBindings e (Bindings.createMutable · name deletable)) ∧
    (∀ name strict, s.createImmutable e name strict =
      s.changeBindings e (Bindings.createImmutable · name strict)) ∧
    (∀ name value, s.initBinding e name value =
      s.changeBindings e (Bindings.initBinding · name value)) ∧
    ∀ name value strict, s.assign e name value strict =
      s.changeBindings e (Bindings.assign · name value strict) := by
  have record := h.record
  unfold createMutable createImmutable initBinding assign
  cases found : (s.environment e).record with
  | declarative | function => exact ⟨fun _ _ => rfl, fun _ _ => rfl, fun _ _ => rfl, fun _ _ _ => rfl⟩
  | _ => simp [found, Record.IsLocal] at record

theorem IsLocal.grows (grows : s.Grows s') : s'.IsLocal e := by
  refine ⟨grows.has h.has, ?_⟩
  have record := h.record
  have extended := grows.record h.has
  cases before : (s.environment e).record <;> cases after : (s'.environment e).record <;>
    simp_all [Record.IsLocal, Record.Extends]

theorem IsLocal.enclose {own : EnvironmentId} (entered : s.enclose (.block (some e)) = (own, s')) :
    s'.IsLocal own ∧ s'.bindings own = (fun _ => none) ∧ (s'.environment own).outer = some e ∧
      e ≠ own ∧ s'.environment e = s.environment e := by
  have block := IsBlock.enclose s (some e)
  have environment := environment_enclose s (.block (some e))
  have new : own.index = s.environments.size := by
    cases entered
    rfl
  have older : e.index ≠ s.environments.size := Nat.ne_of_lt h.has
  rw [entered] at block environment
  refine ⟨⟨block.has, by rw [block.record]; trivial⟩, funext fun name => ?_, ?_,
    fun eq => older (eq ▸ new), by rw [environment, if_neg older]⟩
  · rw [bindings, binding?, block.record]
    rfl
  · rw [environment, if_pos new]
    rfl

end Store

/-! ## Filling a scope -/

structure Machine.Fills (e : EnvironmentId) (m m' : Machine σ) : Prop where
  isLocal : m.store.IsLocal e → m'.store.IsLocal e
  others : ∀ e', e' ≠ e → m'.store.environment e' = m.store.environment e'
  outer : (m'.store.environment e).outer = (m.store.environment e).outer
  scopes : m'.store.environments.size = m.store.environments.size
  grown : m.heap.objects.size ≤ m'.heap.objects.size
  objects : ∀ i, i < m.heap.objects.size → m'.heap.objects[i]? = m.heap.objects[i]?

namespace Machine.Fills

variable {m₁ m₂ : Machine σ} {e : EnvironmentId}

theorem refl (e : EnvironmentId) (m : Machine σ) : m.Fills e m :=
  ⟨fun h => h, fun _ _ => rfl, rfl, rfl, Nat.le_refl _, fun _ _ => rfl⟩

variable (h : m.Fills e m₁)

include h

theorem trans (h' : m₁.Fills e m₂) : m.Fills e m₂ where
  isLocal here := h'.isLocal (h.isLocal here)
  others e' other := (h'.others e' other).trans (h.others e' other)
  outer := h'.outer.trans h.outer
  scopes := h'.scopes.trans h.scopes
  grown := Nat.le_trans h.grown h'.grown
  objects i old := (h'.objects i (Nat.lt_of_lt_of_le old h.grown)).trans (h.objects i old)

theorem held {e' : EnvironmentId} (other : e' ≠ e) {name : String} {v : Value}
    (held : m.store.Held e' name v) : m₁.store.Held e' name v := by
  rwa [Store.Held, Store.bindings, Store.binding?, h.others e' other]

theorem elsewhere {e' : EnvironmentId} (other : e' ≠ e) (here : m.store.IsLocal e') :
    m₁.store.IsLocal e' := by
  refine ⟨?_, by rw [h.others e' other]; exact here.record⟩
  rw [Store.Has, h.scopes]
  exact here.has

theorem get {o : ObjectId} (old : o.index < m.heap.objects.size) :
    m₁.heap.get o = m.heap.get o := by
  unfold Heap.get
  rw [Array.getD_eq_getD_getElem?, Array.getD_eq_getD_getElem?, h.objects o.index old]

end Machine.Fills

theorem Machine.Adds.fills {m₁ : Machine σ} (h : m.Adds m₁) (e : EnvironmentId) :
    m.Fills e m₁ ∧ m₁.store.bindings e = m.store.bindings e := by
  have same (e' : EnvironmentId) : m₁.store.environment e' = m.store.environment e' := by
    unfold Store.environment
    rw [h.environments]
  refine ⟨⟨fun here => ⟨?_, ?_⟩, fun e' _ => same e', ?_, ?_, h.size, h.objects⟩, ?_⟩
  · simpa [Store.Has, h.environments] using here.has
  · rw [same]
    exact here.record
  · rw [same]
  · rw [h.environments]
  · funext name
    rw [Store.bindings, Store.bindings, Store.binding?, Store.binding?, same]

/-- Run in a local scope, the evaluation leaves the given bindings there, and it changes nothing
else. -/
def Eval.Fills (A : Answers σ) (e : EnvironmentId) (m : Machine σ) (x : Eval σ Unit)
    (t : String → Option Binding) : Prop :=
  ∃ m', A.eval x m = .finished (.ok ()) m' ∧ m.Fills e m' ∧ m'.store.bindings e = t

namespace Eval

variable {e : EnvironmentId} {t : String → Option Binding}

theorem Fills.pure : Fills A e m (pure ()) (m.store.bindings e) := ⟨m, rfl, .refl e m, rfl⟩

theorem Fills.bind {x : Eval σ Unit} {f : Unit → Eval σ Unit} {t' : String → Option Binding}
    (hx : Fills A e m x t)
    (hf : ∀ m', m.Fills e m' → m'.store.bindings e = t → Fills A e m' (f ()) t') :
    Fills A e m (x >>= f) t' := by
  obtain ⟨m₁, first, fills, bound⟩ := hx
  obtain ⟨m₂, second, fills', bound'⟩ := hf m₁ fills bound
  exact ⟨m₂, by rw [eval_bind, first, proceed_ok, second], fills.trans fills', bound'⟩

theorem fills_insert (effect : Effect σ (Except Fault Unit)) (op : Store → Except Fault Change)
    (is : ∀ m, effect.apply m = m.onStore fun s => s.commit (op s))
    {change : Bindings → Except Fault Bindings} (here : m.store.IsLocal e)
    (same : op m.store = m.store.changeBindings e change) {binding : Binding}
    (made : ∀ b : Bindings, b.find? name = m.store.bindings e name →
      change b = .ok (b.insert name binding)) :
    Fills A e m (attempt effect) (Function.update (m.store.bindings e) name (some binding)) := by
  obtain ⟨b, table, changed⟩ := here.table
  obtain ⟨set, changed, stays⟩ := changed change
  rw [made b (table name)] at changed
  have environment (e' : EnvironmentId) (has : m.store.Has e') :=
    Store.environment_apply m.store (.ofRecord e (set (b.insert name binding))) has
  refine ⟨{ m with store := m.store.apply (.ofRecord e (set (b.insert name binding))) }, ?_, ?_, ?_⟩
  · rw [A.eval_commit op is, same, changed]
    rfl
  · refine ⟨fun _ => ⟨(Store.has_apply ..).2 here.has, ?_⟩, fun e' other => ?_, ?_, ?_,
      Nat.le_refl _, fun _ _ => rfl⟩
    · rw [environment e here.has]
      simpa [Change.ofRecord] using (stays _).1
    · by_cases has : m.store.Has e'
      · rw [environment e' has]
        simp [Change.ofRecord, other]
      · rw [Store.environment_of_not_has has,
          Store.environment_of_not_has (mt (Store.has_apply ..).1 has)]
    · exact m.store.outer_apply _ here.has
    · simp [Store.apply, Change.ofRecord, Store.setRecord]
  · funext other
    rw [Store.bindings, Store.binding?, environment e here.has]
    simp only [Change.ofRecord, if_true, (stays _).2, Table.find?_insert, Function.update_apply,
      table]

section

variable (here : m.store.IsLocal e)

include here

theorem fills_createMutable (absent : m.store.bindings e name = none) :
    Fills A e m (attempt (.createMutable e name false))
      (Function.update (m.store.bindings e) name (some { mutable := true })) :=
  fills_insert (.createMutable e name false) (·.createMutable e name false) (fun _ => rfl) here
    (here.operations.1 name false) fun b found => by
      simp [Bindings.createMutable, Bindings.create, Table.contains, found, absent]

theorem fills_createLexical (x : LexicalName) (absent : m.store.bindings e x.name = none) :
    Fills A e m (createLexical e x.name x.constant)
      (Function.update (m.store.bindings e) x.name (some x.binding)) := by
  obtain ⟨name, constant⟩ := x
  cases constant with
  | true =>
    refine fills_insert (.createImmutable e name true) (·.createImmutable e name true)
      (fun _ => rfl) here (here.operations.2.1 name true) fun b found => ?_
    simp_all [Bindings.createImmutable, Bindings.create, Table.contains, LexicalName.binding]
  | false => exact fills_createMutable here absent

theorem fills_initBinding {b : Binding} (bound : m.store.bindings e name = some b) (value : Value) :
    Fills A e m (attempt (.initBinding e name value)) (Function.update (m.store.bindings e) name
      (some { b with value, initialized := true })) :=
  fills_insert (.initBinding e name value) (·.initBinding e name value) (fun _ => rfl) here
    (here.operations.2.2.1 name value) fun b found => by simp [Bindings.initBinding, found, bound]

theorem fills_assign {b : Binding} (bound : m.store.bindings e name = some b)
    (mutable : b.mutable = true) (initialized : b.initialized = true) (value : Value) :
    Fills A e m (attempt (.assign e name value false)) (Function.update (m.store.bindings e) name
      (some { b with value })) :=
  fills_insert (.assign e name value false) (·.assign e name value false) (fun _ => rfl) here
    (here.operations.2.2.2 name value false) fun b found => by
      simp [Bindings.assign, found, bound, mutable, initialized]

end

/-! ## The loops of an entry -/

end Eval

def Binding.variable (value : Value) : Binding := { value, mutable := true, initialized := true }

namespace Eval

variable {e : EnvironmentId} {t : String → Option Binding}

theorem fills_variable (here : m.store.IsLocal e) (absent : m.store.bindings e name = none)
    (value : Value) {rest : Eval σ Unit}
    (next : ∀ m', m.Fills e m' →
      m'.store.bindings e = Function.update (m.store.bindings e) name (some (.variable value)) →
      Fills A e m' rest t) :
    Fills A e m (attempt (.createMutable e name false) >>= fun _ =>
      attempt (.initBinding e name value) >>= fun _ => rest) t := by
  refine (fills_createMutable here absent).bind fun m₁ fills bound => ?_
  have created : m₁.store.bindings e name = some { mutable := true } := by
    rw [bound, Function.update_self]
  refine (fills_initBinding (fills.isLocal here) created value).bind fun m₂ fills' bound' =>
    next m₂ (fills.trans fills') ?_
  rw [bound', bound, Function.update_idem]
  rfl

def withMissing (t : String → Option Binding) (names : List String) (new : String → Binding) :
    String → Option Binding :=
  fun name => (t name).or (if name ∈ names then some (new name) else none)

theorem withMissing_nil (t : String → Option Binding) (new : String → Binding) :
    withMissing t [] new = t := by
  funext name
  simp [withMissing]

theorem withMissing_cons (t : String → Option Binding) (name : String) (rest : List String)
    (new : String → Binding) :
    withMissing t (name :: rest) new = withMissing (withMissing t [name] new) rest new := by
  funext other
  unfold withMissing
  by_cases here : other = name <;> cases t other <;> simp [here]

theorem withMissing_single (t : String → Option Binding) (name : String) (new : String → Binding) :
    withMissing t [name] new =
      if (t name).isSome then t else Function.update t name (some (new name)) := by
  funext other
  unfold withMissing
  by_cases here : other = name
  · subst here
    cases bound : t other <;> simp [bound]
  · cases t name <;> simp [here]

variable (here : m.store.IsLocal e)

include here

theorem fills_unlessBound {create rest : Eval σ Unit} {names : List String} {new : String → Binding}
    (missing : m.store.bindings e name = none → Fills A e m create
      (withMissing (Function.update (m.store.bindings e) name (some (new name))) names new))
    (next : Fills A e m rest (withMissing (m.store.bindings e) names new)) :
    Fills A e m (ask (fun m => m.store.hasBinding e name) >>= fun bound =>
        if !bound then create else rest)
      (withMissing (m.store.bindings e) (name :: names) new) := by
  rw [withMissing_cons, withMissing_single]
  unfold Fills
  rw [eval_bind, eval_ask, proceed_ok, here.hasBinding]
  cases bound : m.store.bindings e name with
  | some b => exact next
  | none => exact missing bound

theorem fills_createMissing (names : List String) :
    Fills A e m (createMissing e names)
      (withMissing (m.store.bindings e) names fun _ => { mutable := true }) := by
  induction names generalizing m with
  | nil => exact (withMissing_nil _ _).symm ▸ .pure
  | cons name rest ih =>
    refine fills_unlessBound here (fun absent => ?_) (ih here)
    exact (fills_createMutable here absent).bind fun m₁ fills bound =>
      bound ▸ ih (fills.isLocal here)

theorem fills_declareVariables (names : List String) :
    Fills A e m (declareVariables e names)
      (withMissing (m.store.bindings e) names fun _ => .variable .undefined) := by
  induction names generalizing m with
  | nil => exact (withMissing_nil _ _).symm ▸ .pure
  | cons name rest ih =>
    refine fills_unlessBound here (fun absent => ?_) (ih here)
    exact fills_variable here absent .undefined fun m₁ fills bound =>
      bound ▸ ih (fills.isLocal here)

theorem fills_copyVariables {parameters : EnvironmentId} (there : m.store.IsLocal parameters)
    (apart : parameters ≠ e) {parameterNames : List String} (value : String → Value)
    (held : ∀ name ∈ parameterNames, m.store.Held parameters name (value name))
    {names : List String} (distinct : names.Nodup)
    (absent : ∀ name ∈ names, m.store.bindings e name = none) :
    Fills A e m (copyVariables parameters e parameterNames names)
      (withMissing (m.store.bindings e) names fun name =>
        .variable (if name ∈ parameterNames then value name else .undefined)) := by
  induction names generalizing m with
  | nil => exact (withMissing_nil _ _).symm ▸ .pure
  | cons name rest ih =>
    obtain ⟨new, distinct⟩ := List.nodup_cons.1 distinct
    have first : m.store.bindings e name = none := absent name List.mem_cons_self
    rw [withMissing_cons, withMissing_single, first, if_neg (by simp)]
    have given : A.eval (copyVariables parameters e parameterNames (name :: rest)) m =
        A.eval (attempt (.createMutable e name false) >>= fun _ => attempt (.initBinding e name
          (if name ∈ parameterNames then value name else .undefined)) >>= fun _ =>
            copyVariables parameters e parameterNames rest) m := by
      rw [copyVariables]
      by_cases parameter : name ∈ parameterNames
      · rw [if_pos (List.contains_iff_mem.2 parameter), if_pos parameter, eval_bind,
          eval_askFor, there.getBinding false (held name parameter), proceed_ok]
      · rw [if_neg (mt List.contains_iff_mem.1 parameter), if_neg parameter, eval_bind,
          eval_pure, proceed_ok]
    unfold Fills
    rw [given]
    refine fills_variable here first _ fun m₁ fills bound => ?_
    have next := ih (fills.isLocal here) (fills.elsewhere apart there)
      (fun x member => fills.held apart (held x member)) distinct fun x member => by
        have other : x ≠ name := fun same => new (same ▸ member)
        rw [bound, Function.update_of_ne other]
        exact absent x (List.mem_cons_of_mem _ member)
    rwa [bound] at next

theorem fills_createLexicals {names : List LexicalName} (distinct : (names.map (·.name)).Nodup)
    (absent : ∀ x ∈ names, m.store.bindings e x.name = none) :
    ∃ t, Fills A e m (createLexicals e names) t ∧ (∀ x ∈ names, t x.name = some x.binding) ∧
      ∀ name, name ∉ names.map (·.name) → t name = m.store.bindings e name := by
  induction names generalizing m with
  | nil => exact ⟨_, .pure, nofun, fun _ _ => rfl⟩
  | cons x rest ih =>
    obtain ⟨new, distinct⟩ := List.nodup_cons.1 distinct
    obtain ⟨m₁, first, fills, bindings⟩ :=
      fills_createLexical (A := A) here x (absent x List.mem_cons_self)
    have absent' : ∀ y ∈ rest, m₁.store.bindings e y.name = none := by
      intro y member
      have other : y.name ≠ x.name := fun same =>
        new (List.mem_map.2 ⟨y, member, same⟩)
      rw [bindings, Function.update_of_ne other]
      exact absent y (List.mem_cons_of_mem _ member)
    obtain ⟨t, filled, found, others⟩ := ih (fills.isLocal here) distinct absent'
    obtain ⟨m₂, second, fills', bindings'⟩ := filled
    refine ⟨t, ⟨m₂, ?_, fills.trans fills', bindings'⟩, fun y member => ?_, fun name other => ?_⟩
    · rw [createLexicals, eval_bind, first, proceed_ok, second]
    · rcases List.mem_cons.1 member with rfl | member
      · rw [others _ new, bindings, Function.update_self]
      · exact found y member
    · simp only [List.map_cons, List.mem_cons, not_or] at other
      rw [others name other.2, bindings, Function.update_of_ne other.1]

end Eval

def Machine.Denotes (m : Machine σ) (o : ObjectId) (node : FunctionNode) (scope : EnvironmentId) :
    Prop :=
  ∃ closure : Closure, (m.heap.get o).callable? =
      some (if node.generator then .generator closure else .script closure) ∧
    closure.node = node ∧ closure.environment = scope

theorem Machine.Denotes.extends {o : ObjectId} (h : m.Denotes o node scope)
    (extended : m.heap.Extends m'.heap) : m'.Denotes o node scope := by
  obtain ⟨closure, kind, made⟩ := h
  refine ⟨closure, ?_, made⟩
  rw [Object.callable?_eq_some] at kind ⊢
  have old : o.index < m.heap.objects.size := by
    refine Nat.lt_of_not_le fun beyond => ?_
    rw [Heap.get_of_size_le beyond] at kind
    cases kind
  rw [extended.kind o old, kind]

theorem Machine.Fills.extends {e : EnvironmentId} (h : m.Fills e m') :
    m.heap.Extends m'.heap := ⟨h.grown, fun _ old => by rw [h.get old]⟩

namespace Eval

variable {e : EnvironmentId} {t : String → Option Binding}

theorem createFunction_denotes (node : FunctionNode) (scope : EnvironmentId) (m : Machine σ) :
    ∃ o m', A.eval (createFunction node scope) m = .finished (.ok o) m' ∧ m.Adds m' ∧
      m'.Denotes o node scope := by
  obtain ⟨o, m', run, adds, -⟩ := createFunction_additive (A := A) node scope {} m (.refl m)
  refine ⟨o, m', run, adds, ?_⟩
  simp only [createFunction, eval_bind, eval_ask, eval_perform,
    proceed_ok] at run
  have made {object : Object} {callable : Callable} (kind : object.kind = .function callable)
      (is : callable = if node.generator then .generator (FunctionUse.closure {} node scope m.strict)
        else .script (FunctionUse.closure {} node scope m.strict)) :
      ((Effect.allocate object).apply m).2.Denotes ((Effect.allocate object).apply m).1 node
        scope := by
    refine ⟨FunctionUse.closure {} node scope m.strict, ?_, rfl, rfl⟩
    rw [Object.callable?_eq_some, ← is, ← kind]
    exact congrArg Object.kind ((m.heap.get_allocate ..).trans (if_pos rfl))
  have more {m₁ m₂ : Machine σ} (object : Object) (o : ObjectId) (property : Property)
      (is : m₂.heap = (m₁.heap.allocate object).2.define o "prototype" property) :
      m₁.heap.Extends m₂.heap := by
    rw [is]
    exact (Heap.extends_allocate ..).trans (Heap.alike_define ..).extends
  split at run
  · rename_i generator
    cases run
    exact (made rfl (if_pos generator).symm).extends (more _ _ _ rfl)
  · rename_i script
    split at run
    · cases run
      exact (made rfl (if_neg script).symm).extends (more _ _ _ rfl)
    · cases run
      exact made rfl (if_neg script).symm

theorem replace_variable (here : m.store.IsLocal e) (name : String)
    (free : ∀ b, m.store.bindings e name = some b → b.mutable = true ∧ b.initialized = true)
    (v : Value) :
    ∃ m', m.Fills e m' ∧ m'.store.Held e name v ∧
      (∀ other, other ≠ name → m'.store.bindings e other = m.store.bindings e other) ∧
      ∀ rest : Eval σ Unit, A.eval (if m.store.hasBinding e name then
          attempt (.assign e name v false) >>= fun _ => rest
        else attempt (.createMutable e name false) >>= fun _ =>
          attempt (.initBinding e name v) >>= fun _ => rest) m = A.eval rest m' := by
  rw [here.hasBinding]
  cases bound : m.store.bindings e name with
  | some b =>
    obtain ⟨mutable, initialized⟩ := free b bound
    obtain ⟨m', wrote, fills, after⟩ := fills_assign (A := A) here bound mutable initialized v
    refine ⟨m', fills, ⟨{ b with value := v }, by rw [after, Function.update_self], initialized,
      rfl⟩, fun other apart => by rw [after, Function.update_of_ne apart], fun rest => ?_⟩
    rw [if_pos (by simp), eval_bind, wrote, proceed_ok]
  | none =>
    obtain ⟨m₁, created, fills, after⟩ := fills_createMutable (A := A) here bound
    obtain ⟨m', wrote, fills', after'⟩ := fills_initBinding (A := A) (fills.isLocal here)
      (after ▸ Function.update_self ..) v
    rw [after, Function.update_idem] at after'
    refine ⟨m', fills.trans fills', ⟨_, after' ▸ Function.update_self .., rfl, rfl⟩,
      fun other apart => by rw [after', Function.update_of_ne apart], fun rest => ?_⟩
    rw [if_neg (by simp), eval_bind, created, proceed_ok, eval_bind, wrote,
      proceed_ok]

theorem fills_declareFunctions (here : m.store.IsLocal e) {functions : List FunctionNode}
    (distinct : functions.Pairwise fun f g => f.name ≠ g.name)
    (free : ∀ f ∈ functions, ∀ name b, f.name = some name → m.store.bindings e name = some b →
      b.mutable = true ∧ b.initialized = true) :
    ∃ m', A.eval (declareFunctions e functions) m = .finished (.ok ()) m' ∧ m.Fills e m' ∧
      (∀ f ∈ functions, ∀ name, f.name = some name →
        ∃ o, m'.store.Held e name (.object o) ∧ m'.Denotes o f e) ∧
      ∀ name, (∀ f ∈ functions, f.name ≠ some name) →
        m'.store.bindings e name = m.store.bindings e name := by
  induction functions generalizing m with
  | nil => exact ⟨m, rfl, .refl e m, nofun, fun _ _ => rfl⟩
  | cons f rest ih =>
    obtain ⟨new, distinct⟩ := List.pairwise_cons.1 distinct
    cases named : f.name with
    | none =>
      obtain ⟨m', run, fills, made, others⟩ :=
        ih here distinct fun g member => free g (List.mem_cons_of_mem _ member)
      refine ⟨m', ?_, fills, ?_, fun name other =>
        others name fun g member => other g (List.mem_cons_of_mem _ member)⟩
      · rw [declareFunctions, named]
        exact run
      · intro g member name is
        rcases List.mem_cons.1 member with rfl | member
        · simp [named] at is
        · exact made g member name is
    | some name =>
      obtain ⟨o, m₁, created, adds, denotes⟩ := createFunction_denotes (A := A) f e m
      obtain ⟨fills, same⟩ := adds.fills e
      obtain ⟨m₂, fills₂, held, after, wrote⟩ := replace_variable (A := A)
        (fills.isLocal here) name (fun b bound =>
          free f List.mem_cons_self name b named (same ▸ bound)) (.object o)
      rw [same] at after
      obtain ⟨m', run, fills₃, made, others⟩ := ih ((fills.trans fills₂).isLocal here) distinct
        fun g member other b is bound => free g (List.mem_cons_of_mem _ member) other b is (by
          rwa [← after other (fun eq => new g member (by rw [named, is, eq]))])
      refine ⟨m', ?_, (fills.trans fills₂).trans fills₃, ?_, ?_⟩
      · rw [declareFunctions, named]
        dsimp only
        rw [eval_bind, created, proceed_ok, eval_bind, eval_ask,
          proceed_ok]
        exact (wrote _).trans run
      · intro g member other is
        rcases List.mem_cons.1 member with rfl | member
        · cases named.symm.trans is
          refine ⟨o, ?_, denotes.extends (fills₂.trans fills₃).extends⟩
          rwa [Store.Held, others name fun g member is => new g member (named.trans is.symm)]
        · exact made g member other is
      · intro other apart
        rw [others other fun g member => apart g (List.mem_cons_of_mem _ member)]
        exact after other fun eq => apart f List.mem_cons_self (eq ▸ named)

end Eval

/-! ## Parameters -/

structure Machine.Stores (e : EnvironmentId) (name : String) (v : Value) (m m' : Machine σ) :
    Prop where
  fills : m.Fills e m'
  held : m'.store.Held e name v
  others : ∀ other, other ≠ name → m'.store.bindings e other = m.store.bindings e other

/-- How parameters get their values, from left to right: the fallback of a parameter is evaluated
where its argument is `undefined`, and one that fails is the last thing that happens. -/
inductive Engine.Binds (engine : Engine σ) (fuel : Nat) (scope : EnvironmentId) :
    List Parameter → List Value → Machine σ → Except Fault Unit → Machine σ → Prop
  | done {arguments : List Value} {m : Machine σ} : Binds engine fuel scope [] arguments m (.ok ()) m
  | given {p : Parameter} {rest : List Parameter} {arguments : List Value} {m m₁ m' : Machine σ}
      {r : Except Fault Unit}
      (present : p.fallback = none ∨ arguments.headD .undefined ≠ .undefined)
      (stored : m.Stores scope p.name (arguments.headD .undefined) m₁)
      (next : Binds engine fuel scope rest arguments.tail m₁ r m') :
      Binds engine fuel scope (p :: rest) arguments m r m'
  | fallback {p : Parameter} {rest : List Parameter} {arguments : List Value}
      {m m₁ m₂ m' : Machine σ} {r : Except Fault Unit} {e : Expr} {v : Value}
      (missing : p.fallback = some e ∧ arguments.headD .undefined = .undefined)
      (run : engine.run fuel (e.eval (some p.name)) m = .finished (.ok v) m₁)
      (stored : m₁.Stores scope p.name v m₂)
      (next : Binds engine fuel scope rest arguments.tail m₂ r m') :
      Binds engine fuel scope (p :: rest) arguments m r m'
  | failed {p : Parameter} {rest : List Parameter} {arguments : List Value} {m m' : Machine σ}
      {fault : Fault} {e : Expr}
      (missing : p.fallback = some e ∧ arguments.headD .undefined = .undefined)
      (run : engine.run fuel (e.eval (some p.name)) m = .finished (.error fault) m') :
      Binds engine fuel scope (p :: rest) arguments m (.error fault) m'

namespace Engine.Binds

variable {engine : Engine σ} {fuel : Nat} {parameters : List Parameter} {arguments : List Value}
  {r : Except Fault Unit}

theorem positions (h : engine.Binds fuel scope parameters arguments m r m')
    (plain : ∀ p ∈ parameters, p.fallback = none) :
    (∀ i name, (parameters.map (·.name))[i]? = some name →
      (∀ j, i < j → (parameters.map (·.name))[j]? ≠ some name) →
      m'.store.Held scope name (arguments.getD i .undefined)) ∧
    ∀ name, name ∉ parameters.map (·.name) →
      m'.store.bindings scope name = m.store.bindings scope name := by
  induction h with
  | done => exact ⟨fun i name found => by simp at found, fun _ _ => rfl⟩
  | given present stored next ih =>
    obtain ⟨held, others⟩ := ih fun p member => plain p (List.mem_cons_of_mem _ member)
    refine ⟨fun i name found last => ?_, fun name absent => ?_⟩
    · cases i with
      | zero =>
        cases found
        rename_i p rest arguments m m₁ m' r
        have once : p.name ∉ rest.map (·.name) := by
          intro again
          obtain ⟨j, at'⟩ := List.mem_iff_getElem?.1 again
          exact last (j + 1) (Nat.succ_pos j) at'
        have := stored.held
        rw [Store.Held, others _ once]
        cases arguments <;> exact this
      | succ i =>
        have := held i name found fun j later => last (j + 1) (Nat.succ_lt_succ later)
        rename_i arguments _ _ _ _
        cases arguments <;> exact this
    · simp only [List.map_cons, List.mem_cons, not_or] at absent
      rw [others name absent.2, stored.others name absent.1]
  | fallback missing | failed missing =>
    have := plain _ List.mem_cons_self
    rw [missing.1] at this
    cases this

end Engine.Binds

def Store.Parameter (s : Store) (scope : EnvironmentId) (seen : List String) (name : String) :
    Prop :=
  ∃ b, s.bindings scope name = some b ∧ b.mutable = true ∧ b.deletable = false ∧
    (name ∈ seen → b.initialized = true)

namespace Store.Parameter

variable {s s' : Store} {seen : List String}

theorem grows (h : s.Parameter scope seen name) (grows : s.Grows s') :
    s'.Parameter scope seen name := by
  obtain ⟨b, bound, mutable, firm, initialized⟩ := h
  obtain ⟨b', bound', lasts⟩ := grows.binding? bound firm
  exact ⟨b', bound', lasts.mutable.trans mutable, lasts.deletable.trans firm, fun member =>
    lasts.initialized (initialized member)⟩

end Store.Parameter

theorem Eval.stores_parameter (here : m.store.IsLocal scope) {seen : List String}
    (ready : m.store.Parameter scope seen name) (v : Value) :
    ∃ m', m.Stores scope name v m' ∧
      (∀ other, m.store.Parameter scope seen other →
        m'.store.Parameter scope (name :: seen) other) ∧
      ∀ rest : Eval σ Unit, A.eval (if seen.contains name then
          attempt (.assign scope name v false) >>= fun _ => rest
        else attempt (.initBinding scope name v) >>= fun _ => rest) m = A.eval rest m' := by
  obtain ⟨b, bound, mutable, firm, initialized⟩ := ready
  obtain ⟨m', fills, after, run⟩ : ∃ m', m.Fills scope m' ∧ m'.store.bindings scope =
      Function.update (m.store.bindings scope) name (some { b with value := v, initialized := true }) ∧
      ∀ rest : Eval σ Unit, A.eval (if seen.contains name then
          attempt (.assign scope name v false) >>= fun _ => rest
        else attempt (.initBinding scope name v) >>= fun _ => rest) m = A.eval rest m' := by
    by_cases before : name ∈ seen
    · obtain ⟨m', wrote, fills, after⟩ :=
        fills_assign (A := A) here bound mutable (initialized before) v
      rw [initialized before] at after
      refine ⟨m', fills, after, fun rest => ?_⟩
      rw [if_pos (List.contains_iff_mem.2 before), eval_bind, wrote, proceed_ok]
    · obtain ⟨m', wrote, fills, after⟩ := fills_initBinding (A := A) here bound v
      refine ⟨m', fills, after, fun rest => ?_⟩
      rw [if_neg (mt List.contains_iff_mem.1 before), eval_bind, wrote, proceed_ok]
  have same : m'.store.bindings scope name = some { b with value := v, initialized := true } := by
    rw [after, Function.update_self]
  have others (other : String) (apart : other ≠ name) :
      m'.store.bindings scope other = m.store.bindings scope other := by
    rw [after, Function.update_of_ne apart]
  refine ⟨m', ⟨fills, ⟨_, same, rfl, rfl⟩, others⟩, fun other parameter => ?_, run⟩
  by_cases this : other = name
  · subst this
    exact ⟨_, same, mutable, firm, fun _ => rfl⟩
  · obtain ⟨b', bound', mutable', firm', initialized'⟩ := parameter
    exact ⟨b', (others other this).trans bound', mutable', firm', fun member =>
      initialized' ((List.mem_cons.1 member).resolve_left this)⟩

theorem Value.isUndefined_iff {v : Value} : v.isUndefined = true ↔ v = .undefined := by
  cases v <;> simp [isUndefined]

theorem Engine.bindParameters_binds (engine : Engine σ) {fuel : Nat} {seen : List String}
    {parameters : List Parameter} {arguments : List Value} {r : Except Fault Unit}
    (here : m.store.IsLocal scope) (ready : ∀ p ∈ parameters, m.store.Parameter scope seen p.name)
    (run : engine.run fuel (bindParameters scope seen parameters arguments) m = .finished r m') :
    engine.Binds fuel scope parameters arguments m r m' ∧
      (r = .ok () → ∀ p ∈ parameters, m'.store.Parameter scope [p.name] p.name) := by
  induction parameters generalizing seen arguments m with
  | nil =>
    cases run
    exact ⟨.done, nofun⟩
  | cons p rest ih =>
    -- What happens once the value of `p` is there, at a machine where all that was known still holds.
    have store {m₁ : Machine σ} (grows : m.store.Grows m₁.store) (v : Value)
        (run : engine.run fuel (if seen.contains p.name then
            attempt (.assign scope p.name v false) >>= fun _ =>
              bindParameters scope (p.name :: seen) rest arguments.tail
          else attempt (.initBinding scope p.name v) >>= fun _ =>
            bindParameters scope (p.name :: seen) rest arguments.tail) m₁ = .finished r m') :
        ∃ m₂, m₁.Stores scope p.name v m₂ ∧
          engine.Binds fuel scope rest arguments.tail m₂ r m' ∧
          (r = .ok () → ∀ q ∈ p :: rest, m'.store.Parameter scope [q.name] q.name) := by
      have known (q : Parameter) (member : q ∈ p :: rest) := (ready q member).grows grows
      obtain ⟨m₂, stored, kept, wrote⟩ := stores_parameter (A := engine.answers fuel)
        (here.grows grows) (known p List.mem_cons_self) v
      have run' := (wrote _).symm.trans run
      obtain ⟨binds, bound⟩ := ih (stored.fills.isLocal (here.grows grows))
        (fun q member => kept q.name (known q (List.mem_cons_of_mem _ member))) run'
      refine ⟨m₂, stored, binds, fun ok q member => ?_⟩
      rcases List.mem_cons.1 member with rfl | member
      · obtain ⟨b, found, mutable, firm, initialized⟩ := kept q.name (known q List.mem_cons_self)
        have : m₂.store.Parameter scope [q.name] q.name :=
          ⟨b, found, mutable, firm, fun _ => initialized List.mem_cons_self⟩
        exact this.grows (scopes_kept.run engine run')
      · exact bound ok q member
    rw [engine.run_eq, bindParameters, eval_bind] at run
    have given (present : p.fallback = none ∨ arguments.headD .undefined ≠ .undefined) :
        (engine.answers fuel).eval (argumentFor p (arguments.headD .undefined)) m =
          .finished (.ok (arguments.headD .undefined)) m := by
      unfold argumentFor
      split
      · rename_i e some
        rw [if_neg (mt Value.isUndefined_iff.1 (present.resolve_left (by simp [some])))]
        rfl
      · rfl
    by_cases present : p.fallback = none ∨ arguments.headD .undefined ≠ .undefined
    · rw [given present, proceed_ok] at run
      obtain ⟨m₂, stored, binds, bound⟩ := store (.refl _) _ run
      exact ⟨.given present stored binds, bound⟩
    · rw [not_or, not_not] at present
      obtain ⟨e, has⟩ := Option.ne_none_iff_exists'.1 present.1
      have evaluated : argumentFor (σ := σ) p (arguments.headD .undefined) =
          e.eval (some p.name) := by
        rw [argumentFor, has, present.2]
        rfl
      rw [evaluated] at run
      cases value : (engine.answers fuel).eval (e.eval (some p.name)) m with
      | exhausted =>
        rw [value] at run
        cases run
      | finished result m₁ =>
        rw [value] at run
        cases result with
        | error fault =>
          cases run
          exact ⟨.failed ⟨has, present.2⟩ value, nofun⟩
        | ok v =>
          obtain ⟨m₂, stored, binds, bound⟩ := store (scopes_kept.run engine value) v run
          exact ⟨.fallback ⟨has, present.2⟩ value stored binds, bound⟩

/-! ## The scope of the body -/

theorem nodup_eraseDups (names : List String) : names.eraseDups.Nodup := by
  induction size : names.length using Nat.strongRecOn generalizing names with
  | ind n ih =>
    cases names with
    | nil => exact List.nodup_nil
    | cons name rest =>
      rw [List.eraseDups_cons, List.nodup_cons]
      have shorter := List.length_filter_le (fun b => !b == name) rest
      refine ⟨fun again => ?_, ih _ (by simp_all; omega) _ rfl⟩
      simp [List.mem_eraseDups] at again

theorem FunctionNode.nodup_varNames (node : FunctionNode) : node.scope.varNames.Nodup := by
  unfold FunctionNode.scope
  split
  · exact nodup_eraseDups _
  · exact List.nodup_nil

def Store.Sees (s : Store) (e : EnvironmentId) (name : String) (v : Value) : Prop :=
  s.Held e name v ∨ s.bindings e name = none ∧ ∃ outer, (s.environment e).outer = some outer ∧
    outer ≠ e ∧ s.IsLocal outer ∧ s.Held outer name v

def Store.Finds (s : Store) (e : EnvironmentId) (name : String) (v : Value) : Prop :=
  ∃ holder, s.resolve e name = some holder ∧ ∀ strict, s.getBinding holder name strict = .ok v

namespace Store

variable {s : Store} {e : EnvironmentId} {v : Value}

theorem Held.isSome (h : s.Held e name v) : (s.bindings e name).isSome := by
  obtain ⟨b, bound, -⟩ := h
  rw [bound]
  rfl

theorem IsLocal.resolve (here : s.IsLocal e) (bound : (s.bindings e name).isSome) :
    s.resolve e name = some e := by
  rw [Store.resolve, Store.bound, resolveWithin, here.hasBinding, if_pos bound]

theorem Sees.finds (here : s.IsLocal e) (h : s.Sees e name v) : s.Finds e name v := by
  rcases h with held | ⟨absent, outer, is, -, there, held⟩
  · exact ⟨e, here.resolve held.isSome, fun strict => here.getBinding strict held⟩
  · refine ⟨outer, ?_, fun strict => there.getBinding strict held⟩
    obtain ⟨n, size⟩ : ∃ n, s.environments.size = n + 1 :=
      Nat.exists_eq_add_one.2 (Nat.zero_lt_of_lt here.has)
    rw [Store.resolve, Store.bound, size, resolveWithin, here.hasBinding, absent,
      if_neg (by simp), is, Option.bind_some, resolveWithin, there.hasBinding, if_pos held.isSome]

end Store

theorem Machine.Fills.sees {e : EnvironmentId} {v : Value} (fills : m.Fills e m')
    (same : m'.store.bindings e name = m.store.bindings e name) (h : m.store.Sees e name v) :
    m'.store.Sees e name v := by
  rcases h with held | ⟨absent, outer, is, apart, there, held⟩
  · exact .inl (by rwa [Store.Held, same])
  · exact .inr ⟨same.trans absent, outer, fills.outer.trans is, apart, fills.elsewhere apart there,
      fills.held apart held⟩

structure FunctionNode.Opened (node : FunctionNode) (scope own : EnvironmentId)
    (m m' : Machine σ) : Prop where
  isLocal : m'.store.IsLocal own
  parameters : ∀ name ∈ node.parameterNames, ∀ v, m.store.Held scope name v →
    m'.store.Sees own name v
  hoisted : ∀ name ∈ node.scope.varNames, name ∉ node.parameterNames →
    m'.store.Held own name .undefined
  bound : ∀ name b, m'.store.bindings own name = some b →
    (name ∈ node.parameterNames ∨ name ∈ node.scope.varNames) ∧
      b.mutable = true ∧ b.initialized = true

theorem Eval.openVariables_opens (here : m.store.IsLocal scope)
    (ready : ∀ name ∈ node.parameterNames, m.store.Parameter scope [name] name)
    (empty : node.hasParameterExpressions = false → ∀ name, name ∉ node.parameterNames → m.store.bindings scope name = none) :
    ∃ own m', A.eval (openVariables node scope) m = .finished (.ok own) m' ∧
      node.Opened scope own m m' := by
  unfold openVariables
  cases apart : node.hasParameterExpressions with
  | false =>
    obtain ⟨m', run, fills, after⟩ := fills_declareVariables (A := A) here node.scope.varNames
    refine ⟨scope, m', ?_, fills.isLocal here, fun name member v held => ?_,
      fun name member other => ?_, fun name b bound => ?_⟩
    · rw [if_neg (by simp), eval_bind, run, proceed_ok, eval_pure]
    · obtain ⟨b, bound, is⟩ := held
      exact .inl ⟨b, by simp [after, withMissing, bound], is⟩
    · exact ⟨_, by rw [after, withMissing, empty apart name other, Option.none_or, if_pos member],
        rfl, rfl⟩
    · rw [after, withMissing] at bound
      by_cases parameter : name ∈ node.parameterNames
      · obtain ⟨b', found, mutable, -, initialized⟩ := ready name parameter
        rw [found, Option.some_or] at bound
        cases bound
        exact ⟨.inl parameter, mutable, initialized List.mem_cons_self⟩
      · rw [empty apart name parameter, Option.none_or] at bound
        split at bound
        · rename_i member
          cases bound
          exact ⟨.inr member, rfl, rfl⟩
        · cases bound
  | true =>
    rw [if_pos rfl, eval_bind, eval_perform, proceed_ok]
    obtain ⟨own, s, entered⟩ : ∃ own s, m.store.enclose (.block (some scope)) = (own, s) :=
      ⟨_, _, rfl⟩
    have opened : (Effect.enclose (.block (some scope))).apply m =
        (own, { m with store := s }) := by
      cases entered
      rfl
    rw [opened]
    obtain ⟨isLocal, none, outer, other, same⟩ := here.enclose entered
    have there : s.IsLocal scope := here.grows (by
      have := m.store.grows_enclose (.block (some scope))
      rwa [entered] at this)
    have held (name : String) (v : Value) : s.Held scope name v ↔ m.store.Held scope name v := by
      rw [Store.Held, Store.Held, Store.bindings, Store.bindings, Store.binding?, Store.binding?,
        same]
    let value (name : String) : Value :=
      ((m.store.bindings scope name).map (·.value)).getD .undefined
    have valued {name : String} {v : Value} (h : m.store.Held scope name v) : value name = v := by
      obtain ⟨b, bound, -, is⟩ := h
      simp [value, bound, is]
    obtain ⟨m', run, fills, after⟩ := fills_copyVariables (A := A) (m := { m with store := s })
      isLocal there other value (fun name member => by
        obtain ⟨b, bound, -, -, initialized⟩ := ready name member
        have h : m.store.Held scope name b.value :=
          ⟨b, bound, initialized List.mem_cons_self, rfl⟩
        rw [valued h]
        exact (held name _).2 h) node.nodup_varNames fun name _ => congrFun none name
    have found (name : String) : m'.store.bindings own name =
        if name ∈ node.scope.varNames then
          some (.variable (if name ∈ node.parameterNames then value name else .undefined))
        else Option.none := by
      rw [after, none, withMissing, Option.none_or]
    refine ⟨own, m', ?_, fills.isLocal isLocal, fun name member v holds => ?_,
      fun name member absent => ?_, fun name b bound => ?_⟩
    · rw [eval_bind, run, proceed_ok, eval_pure]
    · by_cases hoisted : name ∈ node.scope.varNames
      · refine .inl ⟨.variable (value name), ?_, rfl, valued holds⟩
        rw [found, if_pos hoisted, if_pos member]
      · exact .inr ⟨by rw [found, if_neg hoisted], scope, fills.outer.trans outer, other,
          fills.elsewhere other there, fills.held other ((held name v).2 holds)⟩
    · refine ⟨.variable .undefined, ?_, rfl, rfl⟩
      rw [found, if_pos member, if_neg absent]
    · rw [found] at bound
      split at bound
      · rename_i member
        cases bound
        exact ⟨.inr member, rfl, rfl⟩
      · cases bound

/-! ## Every function -/

theorem lastOfEachName_distinct (functions : List FunctionNode) :
    (lastOfEachName functions).Pairwise fun f g => f.name ≠ g.name := by
  induction functions with
  | nil => exact .nil
  | cons f rest ih =>
    unfold lastOfEachName
    split
    · exact ih
    · rename_i last
      simp only [Bool.or_eq_true, List.any_eq_true, beq_iff_eq, not_or, not_exists, not_and] at last
      exact .cons (fun g member same => last.2 g (lastOfEachName_subset member) same.symm) ih

theorem mem_lastOfEachName {f : FunctionNode} (before : List FunctionNode)
    {after : List FunctionNode} (named : f.name = some name)
    (last : ∀ g ∈ after, g.name ≠ some name) : f ∈ lastOfEachName (before ++ f :: after) := by
  induction before with
  | nil =>
    have once : ¬ (f.name.isNone || after.any (·.name == f.name)) = true := by
      simp only [named, Option.isNone_some, Bool.false_or, List.any_eq_true, beq_iff_eq, not_exists,
        not_and]
      exact last
    rw [List.nil_append, lastOfEachName, if_neg once]
    exact List.mem_cons_self
  | cons g rest ih =>
    rw [List.cons_append, lastOfEachName]
    split
    · exact ih
    · exact List.mem_cons_of_mem g ih

namespace FunctionNode

def declared (node : FunctionNode) : List FunctionNode :=
  match node.body with
  | .block statements => declaredFunctions statements
  | .concise _ => []

theorem scope_functions (node : FunctionNode) :
    node.scope.functions = lastOfEachName node.declared := by
  obtain ⟨_, _, body, _⟩ := node
  cases body <;> rfl

structure LastDeclared (node : FunctionNode) (name : String) (f : FunctionNode) : Prop where
  named : f.name = some name
  last : ∃ before after, node.declared = before ++ f :: after ∧ ∀ g ∈ after, g.name ≠ some name

structure Unambiguous (node : FunctionNode) : Prop where
  distinct : (node.scope.lexical.map (·.name)).Nodup
  apart : ∀ x ∈ node.scope.lexical, x.name ∉ node.parameterNames ∧ x.name ∉ node.scope.varNames ∧
    ∀ f ∈ node.declared, f.name ≠ some x.name

structure Entered (node : FunctionNode) (arguments : List Value) (scope own : EnvironmentId)
    (bound m : Machine σ) : Prop where
  functions : ∀ {name f}, node.LastDeclared name f →
    ∃ o, m.store.Finds own name (.object o) ∧ m.Denotes o f own
  parameters : ∀ name ∈ node.parameterNames, (∀ f ∈ node.declared, f.name ≠ some name) →
    ∃ v, bound.store.getBinding scope name false = .ok v ∧ m.store.Finds own name v
  arguments : node.hasParameterExpressions = false → ∀ i name, node.parameterNames[i]? = some name →
    (∀ j, i < j → node.parameterNames[j]? ≠ some name) →
    (∀ f ∈ node.declared, f.name ≠ some name) →
    m.store.Finds own name (arguments.getD i .undefined)
  hoisted : ∀ name ∈ node.scope.varNames, name ∉ node.parameterNames →
    (∀ f ∈ node.declared, f.name ≠ some name) → m.store.Finds own name .undefined
  lexical : ∀ x ∈ node.scope.lexical, m.store.resolve own x.name = some own ∧
    m.store.binding? (own, x.name) = some x.binding

end FunctionNode

theorem Eval.enters (arguments : List Value) (here : m.store.IsLocal scope)
    (names : node.Unambiguous)
    (ready : ∀ name ∈ node.parameterNames, m.store.Parameter scope [name] name)
    (empty : node.hasParameterExpressions = false → ∀ name, name ∉ node.parameterNames → m.store.bindings scope name = none)
    (positions : node.hasParameterExpressions = false → ∀ i name, node.parameterNames[i]? = some name → (∀ j, i < j → node.parameterNames[j]? ≠ some name) → m.store.Held scope name (arguments.getD i .undefined)) :
    ∃ own m', A.eval (openVariables node scope >>= fun own =>
        createLexicals own node.scope.lexical >>= fun _ =>
          declareFunctions own node.scope.functions >>= fun _ => pure own) m =
      .finished (.ok own) m' ∧ node.Entered arguments scope own m m' := by
  obtain ⟨own, m₁, run₁, opened⟩ := openVariables_opens (A := A) here ready empty
  have new (x : LexicalName) (member : x ∈ node.scope.lexical) :
      m₁.store.bindings own x.name = none := by
    obtain ⟨notParameter, notVariable, -⟩ := names.apart x member
    refine Option.eq_none_iff_forall_ne_some.2 fun b bound => ?_
    exact (opened.bound x.name b bound).1.elim notParameter notVariable
  obtain ⟨t, ⟨m₂, run₂, fills₂, bound₂⟩, created, others₂⟩ :=
    fills_createLexicals (A := A) opened.isLocal names.distinct new
  have declared {f : FunctionNode} (member : f ∈ node.scope.functions) : f ∈ node.declared :=
    lastOfEachName_subset (node.scope_functions ▸ member)
  have free (f : FunctionNode) (member : f ∈ node.scope.functions) (name : String) (b : Binding)
      (named : f.name = some name) (bound : m₂.store.bindings own name = some b) :
      b.mutable = true ∧ b.initialized = true := by
    have notLexical : name ∉ node.scope.lexical.map (·.name) := by
      intro again
      obtain ⟨x, there, rfl⟩ := List.mem_map.1 again
      exact (names.apart x there).2.2 f (declared member) named
    rw [bound₂, others₂ name notLexical] at bound
    exact (opened.bound name b bound).2
  obtain ⟨m₃, run₃, fills₃, made, others₃⟩ := fills_declareFunctions (A := A)
    (fills₂.isLocal opened.isLocal) (node.scope_functions ▸ lastOfEachName_distinct _) free
  have isLocal := fills₃.isLocal (fills₂.isLocal opened.isLocal)
  -- A name that is neither lexical nor a function is as it was when the variables were there.
  have kept {name : String} {v : Value} (sees : m₁.store.Sees own name v)
      (notLexical : ∀ x ∈ node.scope.lexical, x.name ≠ name)
      (notFunction : ∀ f ∈ node.declared, f.name ≠ some name) : m₃.store.Finds own name v := by
    refine Store.Sees.finds isLocal ((fills₂.trans fills₃).sees ?_ sees)
    rw [others₃ name fun f member => notFunction f (declared member), bound₂, others₂ name]
    intro again
    obtain ⟨x, member, is⟩ := List.mem_map.1 again
    exact notLexical x member is
  refine ⟨own, m₃, ?_, ?_, ?_, ?_, ?_, ?_⟩
  · rw [eval_bind, run₁, proceed_ok, eval_bind, run₂, proceed_ok,
      eval_bind, run₃, proceed_ok, eval_pure]
  · rintro name f ⟨named, before, after, split, last⟩
    have member : f ∈ node.scope.functions := by
      rw [node.scope_functions, split]
      exact mem_lastOfEachName before named last
    obtain ⟨o, held, denotes⟩ := made f member name named
    exact ⟨o, Store.Sees.finds isLocal (.inl held), denotes⟩
  · intro name member notFunction
    obtain ⟨b, bound, -, -, initialized⟩ := ready name member
    have held : m.store.Held scope name b.value :=
      ⟨b, bound, initialized List.mem_cons_self, rfl⟩
    exact ⟨b.value, here.getBinding false held, kept (opened.parameters name member _ held)
      (fun x there is => (names.apart x there).1 (is ▸ member)) notFunction⟩
  · intro plain i name found last notFunction
    have member : name ∈ node.parameterNames := List.mem_of_getElem? found
    exact kept (opened.parameters name member _ (positions plain i name found last))
      (fun x there is => (names.apart x there).1 (is ▸ member)) notFunction
  · intro name member notParameter notFunction
    exact kept (.inl (opened.hoisted name member notParameter))
      (fun x there is => (names.apart x there).2.1 (is ▸ member)) notFunction
  · intro x member
    have found : m₃.store.bindings own x.name = some x.binding := by
      rw [others₃ x.name fun f there => (names.apart x member).2.2 f (declared there), bound₂,
        created x member]
    exact ⟨isLocal.resolve (by rw [found]; rfl), found⟩

/-- What the body of a function finds under every name, for a scope that has just been opened. The
entry fails only where a fallback does. -/
theorem function_entry_binds (engine : Engine σ) {fuel : Nat} {node : FunctionNode}
    {scope : EnvironmentId} {arguments : List Value} {m m' : Machine σ}
    {r : Except Fault EnvironmentId} (names : node.Unambiguous) (here : m.store.IsLocal scope)
    (empty : ∀ name, m.store.bindings scope name = none)
    (run : engine.run fuel (instantiate node scope arguments) m = .finished r m') :
    ∃ m₁ result m₂, m.Fills scope m₁ ∧
      (∀ name, m₁.store.bindings scope name =
        if name ∈ node.parameterNames then some { mutable := true } else none) ∧
      engine.Binds fuel scope node.parameters arguments m₁ result m₂ ∧
      match r with
      | .ok own => result = .ok () ∧ node.Entered arguments scope own m₂ m'
      | .error fault => result = .error fault ∧ m' = m₂ := by
  obtain ⟨m₁, created, fills, after⟩ :=
    fills_createMissing (A := engine.answers fuel) here node.parameterNames
  have table (name : String) : m₁.store.bindings scope name =
      if name ∈ node.parameterNames then some { mutable := true } else none := by
    rw [after, withMissing, empty, Option.none_or]
  have here₁ := fills.isLocal here
  rw [engine.run_eq, instantiate, Answers.eval_bind, created, Outcome.proceed_ok, Answers.eval_bind] at run
  have ready (p : Parameter) (member : p ∈ node.parameters) :
      m₁.store.Parameter scope [] p.name :=
    ⟨_, (table p.name).trans (if_pos (List.mem_map_of_mem member)), rfl, rfl, nofun⟩
  cases parameters : (engine.answers fuel).eval
      (bindParameters scope [] node.parameters arguments) m₁ with
  | exhausted =>
      rw [parameters] at run
      cases run
  | finished result m₂ =>
      obtain ⟨binds, bound⟩ := engine.bindParameters_binds here₁ ready parameters
      refine ⟨m₁, result, m₂, fills, table, binds, ?_⟩
      rw [parameters] at run
      cases result with
      | error fault =>
          cases run
          exact ⟨rfl, rfl⟩
      | ok u =>
          have plain (none : node.hasParameterExpressions = false) (p : Parameter)
              (member : p ∈ node.parameters) : p.fallback = .none := by
            simpa using List.any_eq_false.1 none p member
          obtain ⟨own, m₃, entered, result⟩ := enters (A := engine.answers fuel)
            arguments (here₁.grows (scopes_kept.run engine parameters)) names
            (fun name member => by
              obtain ⟨p, there, rfl⟩ := List.mem_map.1 member
              exact bound rfl p there)
            (fun none name absent => by
              rw [(binds.positions (plain none)).2 name absent, table, if_neg absent])
            (fun none => (binds.positions (plain none)).1)
          rw [Outcome.proceed_ok, entered] at run
          cases run
          exact ⟨rfl, result⟩

/-- `function (x, y, x) { var v; let z; }`, called with two arguments: of the last `x` there is none. -/
theorem function_entry_binds_repeated :
    let engine : Engine Unit := {}
    let node : FunctionNode :=
      { name := none, parameters := [⟨"x", none⟩, ⟨"y", none⟩, ⟨"x", none⟩]
        body := .block [.declare ⟨.var, [⟨"v", none⟩], {}⟩, .declare ⟨.let, [⟨"z", none⟩], {}⟩]
        arrow := false, generator := false, strict := false, span := {} }
    let opened := Machine.bare.store.enclose
      { outer := some ⟨0⟩
        record := .function { this := .lexical, function := ⟨0⟩, newTarget := .undefined,
                              homeObject := none } }
    ∃ own m', engine.run 0 (instantiate node opened.1 [.null, .boolean true])
        { Machine.bare with store := opened.2 } = .finished (.ok own) m' ∧
      m'.store.Finds own "x" .undefined ∧ m'.store.Finds own "y" (.boolean true) ∧
      m'.store.Finds own "v" .undefined ∧
      m'.store.binding? (own, "z") = some { mutable := true } := by
  intro engine node opened
  have run : ∃ own m', engine.run 0 (instantiate node opened.1 [.null, .boolean true])
      { Machine.bare with store := opened.2 } = .finished (.ok own) m' := by
    apply Exists.intro
    apply Exists.intro
    cbv
  obtain ⟨own, m', run⟩ := run
  have names : node.Unambiguous := by
    refine ⟨by decide, fun x member => ?_⟩
    rw [List.mem_singleton.1 (show x ∈ [⟨"z", false⟩] from member)]
    exact ⟨by decide, by decide, List.forall_mem_nil _⟩
  have last (i : Nat) (name : String) (absent : name ∉ node.parameterNames.drop (i + 1)) (j : Nat)
      (later : i < j) : node.parameterNames[j]? ≠ some name := by
    intro found
    refine absent (List.mem_iff_getElem?.2 ⟨j - (i + 1), ?_⟩)
    rw [List.getElem?_drop, Nat.add_sub_cancel' later, found]
  have here : opened.2.IsLocal opened.1 := ⟨Nat.lt_succ_self 1, trivial⟩
  obtain ⟨m₁, result, m₂, -, -, -, -, entered⟩ :=
    function_entry_binds engine names here (fun _ => rfl) run
  have none (name : String) : ∀ f ∈ node.declared, f.name ≠ some name := List.forall_mem_nil _
  exact ⟨own, m', run, entered.arguments rfl 2 "x" rfl (last 2 "x" (by decide)) (none _),
    entered.arguments rfl 1 "y" rfl (last 1 "y" (by decide)) (none _),
    entered.hoisted "v" (by decide) (by decide) (none _),
    (entered.lexical ⟨"z", false⟩ (by decide)).2⟩

end ScriptEngine
