import ScriptEngine.Proofs.Integrity.Tree
import ScriptEngine.Proofs.Scopes

/-!
# Intact stores

In an intact store every scope but the global one has an older scope around it, constructors have
bound `this` to objects only, and the functions on the heap can be entered (`Store.Intact`).
-/

namespace ScriptEngine

variable {α : Type}

def Fault.Benign : Fault → Prop
  | .internal _ | .suspended _ => False
  | _ => True

def EndsWell (Q : α → Prop) : Except Fault α → Prop
  | .ok a => Q a
  | .error fault => fault.Benign

theorem EndsWell.mono {Q R : α → Prop} {r : Except Fault α} (h : EndsWell Q r)
    (weaker : ∀ a, Q a → R a) : EndsWell R r := by
  cases r with
  | ok a => exact weaker a h
  | error fault => exact h

theorem EndsWell.map {β : Type} {Q : β → Prop} {r : Except Fault α} {f : α → β}
    (h : EndsWell (fun a => Q (f a)) r) : EndsWell Q (r.map f) := by
  cases r with
  | ok a => exact h
  | error fault => exact h

namespace Bindings

variable {b b' : Bindings} {name : String}

theorem create_endsWell (b : Bindings) (name : String) (binding : Binding) :
    EndsWell (fun _ => True) (create b name binding) := by
  unfold create
  split <;> trivial

theorem initBinding_endsWell (bound : b.contains name = true) (value : Value) :
    EndsWell (fun _ => True) (initBinding b name value) := by
  obtain ⟨binding, found⟩ := Option.isSome_iff_exists.1 bound
  simp only [initBinding, found]
  trivial

theorem assign_endsWell (b : Bindings) (name : String) (value : Value) (strict : Bool) :
    EndsWell (fun _ => True) (assign b name value strict) := by
  unfold assign
  repeat' split
  all_goals trivial

theorem get_endsWell (b : Bindings) (name : String) : EndsWell (fun _ => True) (get b name) := by
  unfold get
  split
  · trivial
  · split <;> trivial

end Bindings

namespace Record

def bindings? : Record → Option Bindings
  | .declarative b => some b
  | .function r => some r.bindings
  | _ => none

def Proper : Record → Prop
  | .function r => ∀ target v, r.newTarget = .object target → r.this = .bound v →
      ∃ o, v = .object o
  | _ => True

end Record

namespace Store

def Declares (s : Store) (e : EnvironmentId) : Prop :=
  s.Has e ∧ ∀ o isWith, (s.environment e).record ≠ .object o isWith

def OwnsThis (s : Store) (e : EnvironmentId) (target : Value) : Prop :=
  s.Has e ∧ ∃ r, (s.environment e).record = .function r ∧ r.this ≠ .lexical ∧
    r.newTarget = target

variable {s s' : Store} {e : EnvironmentId} {name : String}

theorem Grows.ownsThis (h : s.Grows s') {target : Value} (owns : s.OwnsThis e target) :
    s'.OwnsThis e target := by
  obtain ⟨has, r, record, own, rfl⟩ := owns
  have has' := h.has has
  have extended := h.record has
  rw [record] at extended
  cases record' : (s'.environment e).record with
  | function r' =>
    simp only [record', Record.Extends] at extended
    exact ⟨has', r', record', fun lexical => own (extended.2.1.lexical_iff.1 lexical), extended.2.2⟩
  | _ => simp [record', Record.Extends] at extended

end Store

def Change.Proper (change : Change) : Prop :=
  ∀ e record, change.record = some (e, record) → record.Proper

/-! ## Intact stores -/

structure Closure.Intact (s : Store) (closure : Closure) : Prop where
  environment : s.Has closure.environment
  node : closure.node.wellFormed = true
  derived : closure.constructorKind = .derived → closure.thisMode ≠ .lexical

def Callable.Intact (s : Store) : Callable → Prop
  | .script closure | .generator closure => closure.Intact s
  | .native f => ∃ builtin, f.code = .builtin builtin
  | .bound _ => True

structure Store.Intact (s : Store) : Prop where
  global : ∃ r, (s.environment ⟨0⟩).record = .global r
  nested : ∀ e, s.Has e → e ≠ ⟨0⟩ →
    ∃ outer, (s.environment e).outer = some outer ∧ outer.index < e.index
  records : ∀ e, s.Has e → (s.environment e).record.Proper
  functions : ∀ o callable, (s.heap.get o).callable? = some callable → callable.Intact s

namespace Store

variable {s s' : Store} {e : EnvironmentId} {name : String}

theorem Grows.closure (h : s.Grows s') {closure : Closure} (intact : closure.Intact s) :
    closure.Intact s' :=
  ⟨h.has intact.environment, intact.node, intact.derived⟩

theorem Grows.callable (h : s.Grows s') {callable : Callable} (intact : callable.Intact s) :
    callable.Intact s' := by
  cases callable with
  | script closure | generator closure => exact h.closure intact
  | native f => exact intact
  | bound f => trivial

theorem Intact.has_global (intact : s.Intact) : s.Has ⟨0⟩ := by
  obtain ⟨r, record⟩ := intact.global
  refine Nat.lt_of_not_le fun beyond => ?_
  simp [environment, Array.getD_eq_getD_getElem?, Array.getElem?_eq_none beyond] at record

theorem Intact.enclose (intact : s.Intact) {env : Environment} {outer : EnvironmentId}
    (around : env.outer = some outer) (has : s.Has outer) (proper : env.record.Proper) :
    (s.enclose env).2.Intact := by
  have positive : 0 < s.environments.size := intact.has_global
  refine ⟨?_, fun e found inner => ?_, fun e found => ?_, fun o callable found => ?_⟩
  · obtain ⟨r, record⟩ := intact.global
    exact ⟨r, by rw [environment_enclose, if_neg (Nat.ne_of_lt positive), record]⟩
  · rw [environment_enclose]
    split
    · rename_i fresh
      exact ⟨outer, around, fresh ▸ has⟩
    · rename_i older
      exact intact.nested e (((s.has_enclose env e).1 found).resolve_right older) inner
  · rw [environment_enclose]
    split
    · exact proper
    · rename_i older
      exact intact.records e (((s.has_enclose env e).1 found).resolve_right older)
  · exact (s.grows_enclose env).callable (intact.functions o callable found)

theorem callable?_of_alike {h h' : Heap} (alike : h.Alike h') (o : ObjectId) :
    (h'.get o).callable? = (h.get o).callable? := by
  simp only [Object.callable?, alike.kind o]

section

variable (intact : s.Intact)

include intact

theorem Intact.apply {change : Change} (grows : s.Grows (s.apply change)) (proper : change.Proper) :
    (s.apply change).Intact := by
  have found {e : EnvironmentId} (has : (s.apply change).Has e) : s.Has e :=
    (s.has_apply change e).1 has
  refine ⟨?_, fun e has inner => ?_, fun e has => ?_, fun o callable called => ?_⟩
  · obtain ⟨r, record⟩ := intact.global
    obtain ⟨r', record', -⟩ := grows.global record
    exact ⟨r', record'⟩
  · rw [s.outer_apply change (found has)]
    exact intact.nested e (found has) inner
  · rw [environment_apply s change (found has)]
    split
    · rename_i e' record changed
      split
      · exact proper e' record changed
      · exact intact.records e (found has)
    · exact intact.records e (found has)
  · rw [callable?_of_alike (s.alike_apply change)] at called
    exact grows.callable (intact.functions o callable called)

theorem Intact.alike {heap : Heap} (alike : s.heap.Alike heap) :
    ({ s with heap } : Store).Intact := by
  refine ⟨intact.global, intact.nested, intact.records, fun o callable called => ?_⟩
  rw [callable?_of_alike alike] at called
  have grows : s.Grows { s with heap } := fun e has => ⟨has, rfl, .refl _⟩
  exact grows.callable (intact.functions o callable called)

theorem Intact.allocate {object : Object}
    (callable : ∀ callable, object.callable? = some callable → callable.Intact s) :
    ({ s with heap := (s.heap.allocate object).2 } : Store).Intact := by
  refine ⟨intact.global, intact.nested, intact.records, fun o c called => ?_⟩
  have grows : s.Grows { s with heap := (s.heap.allocate object).2 } :=
    fun e has => ⟨has, rfl, .refl _⟩
  rw [Heap.get_allocate] at called
  split at called
  · exact grows.callable (callable c called)
  · exact grows.callable (intact.functions o c called)

theorem Intact.proper (e : EnvironmentId) : (s.environment e).record.Proper := by
  by_cases has : s.Has e
  · exact intact.records e has
  · have beyond : s.environments.size ≤ e.index := Nat.le_of_not_lt has
    simp only [environment, Array.getD_eq_getD_getElem?, Array.getElem?_eq_none beyond]
    trivial

theorem Intact.hasThis_global : (s.environment ⟨0⟩).hasThis = true := by
  obtain ⟨r, record⟩ := intact.global
  simp only [Environment.hasThis, record]

theorem Intact.thisScopeWithin {n : Nat} {e : EnvironmentId} (has : s.Has e) (within : e.index < n) :
    s.Has (s.thisScopeWithin n e) ∧ (s.environment (s.thisScopeWithin n e)).hasThis = true := by
  induction n generalizing e with
  | zero => omega
  | succ n ih =>
    unfold Store.thisScopeWithin
    by_cases own : (s.environment e).hasThis = true
    · rw [if_pos own]
      exact ⟨has, own⟩
    · have inner : e ≠ ⟨0⟩ := by
        rintro rfl
        exact own intact.hasThis_global
      obtain ⟨outer, around, older⟩ := intact.nested e has inner
      rw [if_neg own, around]
      exact ih (Nat.lt_trans older has) (by omega)

theorem Intact.thisScope (has : s.Has e) :
    s.Has (s.thisScope e) ∧ (s.environment (s.thisScope e)).hasThis = true :=
  intact.thisScopeWithin has (Nat.lt_succ_of_lt has)

end

theorem getThis_endsWell {env : Environment} (h : env.hasThis = true) :
    EndsWell (fun _ => True) env.getThis := by
  unfold Environment.hasThis at h
  unfold Environment.getThis
  split
  · trivial
  · rename_i r record
    simp only [record] at h
    cases this : r.this with
    | lexical => simp [this] at h
    | uninitialized => trivial
    | bound value => trivial
  · rename_i notGlobal notFunction
    split at h
    · rename_i r record
      exact absurd record (notGlobal r)
    · rename_i r record
      exact absurd record (notFunction r)
    · cases h

theorem ownsThis_of_hasThis (has : s.Has e) {r : FunctionRecord}
    (found : (s.environment e).functionRecord? = some r)
    (own : (s.environment e).hasThis = true) : s.OwnsThis e r.newTarget := by
  unfold Environment.functionRecord? at found
  split at found
  · rename_i record
    cases found
    refine ⟨has, r, record, fun lexical => ?_, rfl⟩
    simp [Environment.hasThis, record, lexical] at own
  · cases found

theorem Intact.getThis (intact : s.Intact) {target : ObjectId}
    (owns : s.OwnsThis e (.object target)) :
    EndsWell (fun v => ∃ o, v = .object o) (s.environment e).getThis := by
  obtain ⟨has, r, record, own, targeted⟩ := owns
  have proper := intact.records e has
  simp only [record, Record.Proper] at proper
  simp only [Environment.getThis, record]
  cases this : r.this with
  | lexical => exact absurd this own
  | uninitialized => trivial
  | bound v => exact proper target v targeted this

/-! ## Operations on bindings -/

theorem changeBindings_endsWell (intact : s.Intact)
    {op : Bindings → Except Fault Bindings}
    (ends : ∀ b, (s.environment e).record.bindings? = some b → EndsWell (fun _ => True) (op b))
    (global : ∀ r, (s.environment e).record = .global r →
      EndsWell (fun _ => True) (op r.bindings)) :
    EndsWell Change.Proper (s.changeBindings e op) := by
  have proper := intact.proper e
  unfold changeBindings
  split
  · rename_i b record
    refine EndsWell.map ((ends b (by rw [record]; rfl)).mono fun b' _ => ?_)
    rintro e' _ ⟨⟩
    trivial
  · rename_i r record
    rw [record] at proper
    refine EndsWell.map ((ends r.bindings (by rw [record]; rfl)).mono fun b' _ => ?_)
    rintro e' _ ⟨⟩
    exact proper
  · rename_i r record
    refine EndsWell.map ((global r record).mono fun b' _ => ?_)
    rintro e' _ ⟨⟩
    trivial
  · exact nofun

theorem assignProperty_endsWell (s : Store) (o : ObjectId) (name : String) (value : Value)
    (strict : Bool) : EndsWell (Change.Proper) (s.assignProperty o name value strict) := by
  unfold assignProperty
  split
  · trivial
  · split
    · exact nofun
    · split
      · trivial
      · exact nofun

variable (intact : s.Intact)

include intact

theorem createMutable_endsWell (e : EnvironmentId) (name : String) (deletable : Bool) :
    EndsWell (Change.Proper) (s.createMutable e name deletable) := by
  unfold createMutable
  split
  · exact nofun
  · exact changeBindings_endsWell intact (fun b _ => Bindings.create_endsWell b name _)
      fun r _ => Bindings.create_endsWell r.bindings name _

theorem createImmutable_endsWell (declares : s.Declares e) (name : String) (strict : Bool) :
    EndsWell (Change.Proper) (s.createImmutable e name strict) := by
  unfold createImmutable
  split
  · rename_i o isWith record
    exact absurd record (declares.2 o isWith)
  · exact changeBindings_endsWell intact
      (fun b _ => Bindings.create_endsWell b name _)
      fun r _ => Bindings.create_endsWell r.bindings name _

theorem initBinding_endsWell
    (bound : ∀ b, (s.environment e).record.bindings? = some b → b.contains name = true)
    (value : Value) : EndsWell (Change.Proper) (s.initBinding e name value) := by
  unfold initBinding
  split
  · rename_i r record
    split
    · rename_i found
      refine changeBindings_endsWell intact (fun b table => ?_) fun r' record' => ?_
      · rw [record] at table
        cases table
      · cases record.symm.trans record'
        exact Bindings.initBinding_endsWell found value
    · exact s.assignProperty_endsWell r.object name value false
  · exact s.assignProperty_endsWell _ name value false
  · rename_i notGlobal _
    exact changeBindings_endsWell intact
      (fun b table => Bindings.initBinding_endsWell (bound b table) value)
      fun r record => absurd record (notGlobal r)

theorem assign_endsWell (e : EnvironmentId) (name : String) (value : Value) (strict : Bool) :
    EndsWell (Change.Proper) (s.assign e name value strict) := by
  have table : EndsWell (Change.Proper) (s.changeBindings e fun b =>
      Bindings.assign b name value strict) :=
    changeBindings_endsWell intact (fun b _ => Bindings.assign_endsWell b name value strict)
      fun r _ => Bindings.assign_endsWell r.bindings name value strict
  unfold assign
  split
  · split
    · exact table
    · exact s.assignProperty_endsWell _ name value strict
  · exact s.assignProperty_endsWell _ name value strict
  · exact table

theorem deleteBinding_proper {change : Change} (h : s.deleteBinding e name = some change) :
    change.Proper := by
  have proper := intact.proper e
  unfold deleteBinding at h
  split at h
  · obtain ⟨b', _, rfl⟩ := Option.map_eq_some_iff.1 h
    rintro e' _ ⟨⟩
    trivial
  · rename_i r record
    rw [record] at proper
    obtain ⟨b', _, rfl⟩ := Option.map_eq_some_iff.1 h
    rintro e' _ ⟨⟩
    exact proper
  · split at h
    · obtain ⟨b', _, rfl⟩ := Option.map_eq_some_iff.1 h
      rintro e' _ ⟨⟩
      trivial
    · split at h
      · cases h
        exact nofun
      · split at h
        · cases h
          rintro e' _ ⟨⟩
          trivial
        · cases h
  · split at h
    · cases h
      exact nofun
    · split at h
      · cases h
        exact nofun
      · cases h

omit intact in
theorem bindThis_endsWell {target value : Value} (owns : s.OwnsThis e target)
    (object : ∀ o, target = .object o → ∃ o, value = .object o) :
    EndsWell (Change.Proper) (s.bindThis e value) := by
  obtain ⟨_, r, record, own, rfl⟩ := owns
  simp only [bindThis, record]
  cases this : r.this with
  | lexical => exact absurd this own
  | bound v => trivial
  | uninitialized =>
    rintro e' _ ⟨⟩ o _ targeted ⟨⟩
    exact object o targeted

omit intact in
theorem declareVar_endsWell {r : GlobalRecord} (record : (s.environment e).record = .global r)
    (name : String) (deletable : Bool) :
    EndsWell (Change.Proper) (s.declareVar e name deletable) := by
  simp only [declareVar, record]
  rintro e' _ ⟨⟩
  trivial

omit intact in
theorem declareFunction_endsWell {r : GlobalRecord}
    (record : (s.environment e).record = .global r) (name : String) (value : Value)
    (deletable : Bool) : EndsWell (Change.Proper) (s.declareFunction e name value deletable) := by
  simp only [declareFunction, record]
  split
  · rintro e' _ ⟨⟩
    trivial
  · trivial

omit intact in
theorem getBinding_endsWell (s : Store) (e : EnvironmentId) (name : String) (strict : Bool) :
    EndsWell (fun _ => True) (s.getBinding e name strict) := by
  have property (o : ObjectId) : EndsWell (fun _ => True) (s.readProperty o name strict) := by
    unfold readProperty
    split
    · trivial
    · split <;> trivial
  unfold getBinding
  split
  · split
    · exact Bindings.get_endsWell _ name
    · exact property _
  · exact property _
  · exact Bindings.get_endsWell _ name
  · exact Bindings.get_endsWell _ name

end Store

end ScriptEngine
