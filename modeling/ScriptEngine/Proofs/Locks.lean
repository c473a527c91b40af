import ScriptEngine.Proofs.Reach

/-!
# Objects under lock

An object that is not extensible gets no new keys, and a property that cannot be configured stays,
with its attributes. Code that assigns or deletes looks first; code that defines properties without
a look does so on objects that it has just made.
-/

namespace ScriptEngine

variable {σ α β : Type}

/-! ## Objects -/

structure Property.Lasts (p p' : Property) : Prop where
  writable : p'.writable = p.writable
  enumerable : p'.enumerable = p.enumerable
  configurable : p'.configurable = p.configurable
  value : p.writable = false → p'.value = p.value

theorem Property.Lasts.refl (p : Property) : p.Lasts p := ⟨rfl, rfl, rfl, fun _ => rfl⟩

theorem Property.Lasts.trans {p p₁ p' : Property} (h : p.Lasts p₁) (h' : p₁.Lasts p') : p.Lasts p' :=
  ⟨h'.writable.trans h.writable, h'.enumerable.trans h.enumerable,
    h'.configurable.trans h.configurable,
    fun constant => (h'.value (h.writable.trans constant)).trans (h.value constant)⟩

namespace Object

structure Respects (free : String → Prop) (object object' : Object) : Prop where
  closed : object.extensible = false → object'.extensible = false
  keys : object.extensible = false → ∀ key, object'.properties.contains key = true →
    object.properties.contains key = true ∨ free key
  locked : ∀ key p, object.properties.find? key = some p → p.configurable = false →
    ∃ p', object'.properties.find? key = some p' ∧ p.Lasts p'

structure Accepts (free : String → Prop) (object : Object) (key : String) (p : Property) : Prop where
  locked : ∀ q, object.properties.find? key = some q → q.configurable = false → q.Lasts p
  new : object.properties.find? key = none → object.extensible = true ∨ free key

variable {free : String → Prop} {object object₁ object' : Object} {key : String} {p : Property}

theorem Respects.refl (object : Object) : object.Respects free object :=
  ⟨id, fun _ _ => .inl, fun _ p found _ => ⟨p, found, .refl p⟩⟩

theorem Respects.trans (h : object.Respects free object₁) (h' : object₁.Respects free object') :
    object.Respects free object' := by
  refine ⟨fun closed => h'.closed (h.closed closed), fun closed key there => ?_,
    fun key p found locked => ?_⟩
  · exact (h'.keys (h.closed closed) key there).elim (h.keys closed key) .inr
  · obtain ⟨p₁, found₁, lasts⟩ := h.locked key p found locked
    obtain ⟨p', found', lasts'⟩ := h'.locked key p₁ found₁ (lasts.configurable.trans locked)
    exact ⟨p', found', lasts.trans lasts'⟩

theorem Accepts.respects (h : object.Accepts free key p) : object.Respects free (object.define key p) := by
  refine ⟨id, fun closed key' there => ?_, fun key' q found locked => ?_⟩
  · simp only [define, Table.contains, Table.find?_insert] at there ⊢
    by_cases same : key' = key
    · subst same
      cases found : object.properties.find? key' with
      | some q => exact .inl rfl
      | none => exact .inr ((h.new found).resolve_left (by simp [closed]))
    · rw [if_neg same] at there
      exact .inl there
  · rw [define, Table.find?_insert]
    by_cases same : key' = key
    · subst same
      exact ⟨p, if_pos rfl, h.locked q found locked⟩
    · exact ⟨q, by rw [if_neg same, found], .refl q⟩

theorem respects_erase (found : object.properties.find? key = some p) (unlocked : p.configurable = true) :
    object.Respects free { object with properties := object.properties.erase key } := by
  refine ⟨id, fun _ key' there => .inl ?_, fun key' q found' locked => ?_⟩
  · by_cases same : key' = key
    · rw [same, Table.contains, found]
      rfl
    · simpa only [Table.contains, Table.find?_erase_of_ne _ same] using there
  · have other : key' ≠ key := by
      rintro rfl
      simp_all
    exact ⟨q, by rw [Table.find?_erase_of_ne _ other, found'], .refl q⟩

end Object

/-! ## The heap -/

namespace Heap

def Respects (n : Nat) (free : ObjectId → String → Prop) (h h' : Heap) : Prop :=
  ∀ o : ObjectId, o.index < n → (h.get o).Respects (free o) (h'.get o)

variable {n : Nat} {free : ObjectId → String → Prop} {h h₁ h' : Heap} {o : ObjectId} {key : String}
  {p : Property}

theorem Respects.refl (h : Heap) : h.Respects n free h := fun _ _ => .refl _

theorem Respects.trans (first : h.Respects n free h₁) (second : h₁.Respects n free h') :
    h.Respects n free h' := fun o within => (first o within).trans (second o within)

theorem respects_modify {change : Object → Object}
    (respects : o.index < n → (h.get o).Respects (free o) (change (h.get o))) :
    h.Respects n free (h.modify o change) := by
  intro o' within
  rw [get_modify]
  split
  · rename_i changed
    rw [changed.1] at within ⊢
    exact respects within
  · exact .refl _

theorem respects_define (accepts : o.index < n → (h.get o).Accepts (free o) key p) :
    h.Respects n free (h.define o key p) :=
  respects_modify fun within => (accepts within).respects

theorem respects_erase (found : h.getOwn? o key = some p) (unlocked : p.configurable = true) :
    h.Respects n free (h.erase o key) :=
  respects_modify fun _ => Object.respects_erase found unlocked

theorem respects_allocate (h : Heap) (object : Object) : h.Respects n free (h.allocate object).2 := by
  intro o _
  rw [get_allocate]
  split
  · rename_i beyond
    -- there was no object yet, and so no locks
    rw [get_of_size_le (Nat.le_of_eq beyond.symm)]
    exact ⟨nofun, nofun, nofun⟩
  · exact .refl _

theorem accepts_assigned {value : Value} (assigned : h.assigned? o key value = some p)
    (free : String → Prop) : (h.get o).Accepts free key p := by
  cases found : h.getOwn? o key with
  | some q =>
    simp only [assigned?, canWrite, found, Option.ite_none_right_eq_some, Option.some.injEq] at assigned
    obtain ⟨writable, rfl⟩ := assigned
    refine ⟨fun q' found' _ => ?_, fun absent => ?_⟩
    · cases found.symm.trans found'
      exact ⟨rfl, rfl, rfl, fun constant => by simp [writable] at constant⟩
    · simp [getOwn?, absent] at found
  | none =>
    simp only [assigned?, canWrite, found, Option.ite_none_right_eq_some, Bool.and_eq_true] at assigned
    refine ⟨fun q found' _ => ?_, fun _ => .inl assigned.1.2⟩
    simp [getOwn?, found'] at found

theorem respects_write (value : Value) : h.Respects n free (h.write o key value).2 := by
  unfold write
  split
  · rename_i assigned
    exact respects_define fun _ => accepts_assigned assigned _
  · exact .refl h

theorem respects_remove : h.Respects n free (h.remove o key).2 := by
  unfold remove
  split
  · exact .refl h
  · rename_i found
    split
    · rename_i unlocked
      exact respects_erase found unlocked
    · exact .refl h

end Heap

/-! ## The store -/

namespace Store

variable {n : Nat} {free : ObjectId → String → Prop} {s : Store} {e : EnvironmentId} {name : String}
  {value : Value}

def Lawful (s : Store) (free : ObjectId → String → Prop) (change : Change) : Prop :=
  match change.property with
  | none => True
  | some (o, key, some p) => (s.heap.get o).Accepts (free o) key p
  | some (o, key, none) => ∃ p, s.heap.getOwn? o key = some p ∧ p.configurable = true

theorem Lawful.respects (h : s.Lawful free change) :
    s.heap.Respects n free (s.apply change).heap := by
  obtain ⟨record, property⟩ := change
  have heap : (s.apply ⟨record, property⟩).heap = (s.apply { property }).heap := by
    cases record <;> rfl
  rw [heap]
  match property, h with
  | none, _ => exact .refl _
  | some (o, key, some p), accepts => exact Heap.respects_define fun _ => accepts
  | some (o, key, none), ⟨p, found, unlocked⟩ => exact Heap.respects_erase found unlocked

theorem respects_commit {result : Except Fault Change}
    (h : ∀ change, result = .ok change → s.Lawful free change) :
    s.heap.Respects n free (s.commit result).2.heap := by
  cases result with
  | ok change => exact (h change rfl).respects
  | error fault => exact .refl _

variable {change : Change} {deletable strict : Bool}

theorem changeBindings_lawful {op : Bindings → Except Fault Bindings}
    (h : s.changeBindings e op = .ok change) : s.Lawful free change := by
  unfold changeBindings at h
  split at h
  · obtain ⟨_, _, rfl⟩ := map_eq_ok.1 h
    trivial
  · obtain ⟨_, _, rfl⟩ := map_eq_ok.1 h
    trivial
  · obtain ⟨_, _, rfl⟩ := map_eq_ok.1 h
    trivial
  · cases h
    trivial

theorem assignProperty_lawful {o : ObjectId} (h : s.assignProperty o name value strict = .ok change) :
    s.Lawful free change := by
  unfold assignProperty at h
  split at h
  · cases h
  · split at h
    · rename_i assigned
      cases h
      exact Heap.accepts_assigned assigned _
    · split at h
      · cases h
      · cases h
        trivial

theorem createMutable_lawful (declares : s.Declares e)
    (h : s.createMutable e name deletable = .ok change) : s.Lawful free change := by
  unfold createMutable at h
  split at h
  · rename_i object
    exact (declares.2 _ _ object).elim
  · exact changeBindings_lawful h

theorem createImmutable_lawful (h : s.createImmutable e name strict = .ok change) :
    s.Lawful free change := by
  unfold createImmutable at h
  split at h
  · cases h
  · exact changeBindings_lawful h

theorem initBinding_lawful (h : s.initBinding e name value = .ok change) :
    s.Lawful free change := by
  unfold initBinding at h
  split at h
  · split at h
    · exact changeBindings_lawful h
    · exact assignProperty_lawful h
  · exact assignProperty_lawful h
  · exact changeBindings_lawful h

theorem assign_lawful (h : s.assign e name value strict = .ok change) : s.Lawful free change := by
  unfold assign at h
  split at h
  · split at h
    · exact changeBindings_lawful h
    · exact assignProperty_lawful h
  · exact assignProperty_lawful h
  · exact changeBindings_lawful h

theorem deleteBinding_lawful (h : s.deleteBinding e name = some change) : s.Lawful free change := by
  unfold deleteBinding at h
  split at h
  · obtain ⟨_, _, rfl⟩ := Option.map_eq_some_iff.1 h
    trivial
  · obtain ⟨_, _, rfl⟩ := Option.map_eq_some_iff.1 h
    trivial
  · split at h
    · obtain ⟨_, _, rfl⟩ := Option.map_eq_some_iff.1 h
      trivial
    · split at h
      · cases h
        trivial
      · rename_i p found
        split at h
        · rename_i unlocked
          cases h
          exact ⟨p, found, unlocked⟩
        · cases h
  · split at h
    · cases h
      trivial
    · rename_i p found
      split at h
      · rename_i unlocked
        cases h
        exact ⟨p, found, unlocked⟩
      · cases h

theorem bindThis_lawful (h : s.bindThis e value = .ok change) : s.Lawful free change := by
  unfold bindThis at h
  split at h
  · split at h
    · cases h
    · cases h
    · cases h
      trivial
  · cases h

theorem declareVar_lawful (h : s.declareVar e name deletable = .ok change) :
    s.Lawful free change := by
  unfold declareVar at h
  split at h
  · rename_i r record
    cases h
    by_cases missing : (!s.heap.hasOwn r.object name && (s.heap.get r.object).extensible) = true
    · simp only [Lawful, if_pos missing]
      simp only [Bool.and_eq_true, Bool.not_eq_true', Heap.hasOwn, Option.isSome_eq_false_iff,
        Option.isNone_iff_eq_none] at missing
      refine ⟨fun q found _ => ?_, fun _ => .inl missing.2⟩
      cases missing.1.symm.trans found
    · simp only [Lawful, if_neg missing]
  · cases h

theorem declareFunction_lawful
    (may : ∀ r, (s.environment e).record = .global r → free r.object name)
    (h : s.declareFunction e name value deletable = .ok change) : s.Lawful free change := by
  unfold declareFunction at h
  split at h
  · rename_i r record
    by_cases replaceable : (s.heap.getOwn? r.object name).all (·.configurable) = true
    · simp only [if_pos replaceable] at h
      cases h
      refine ⟨fun q found locked => ?_, fun _ => .inr (may r record)⟩
      have found : s.heap.getOwn? r.object name = some q := found
      simp [found, locked] at replaceable
    · simp only [if_neg replaceable] at h
      split at h
      · rename_i p assigned
        cases h
        exact Heap.accepts_assigned assigned _
      · cases h
  · cases h

end Store

def Store.Declared (W : Watch) (g : ObjectId) (s : Store) : Prop :=
  ∀ q, W.functions q → ∃ r, (s.environment q.1).record = .global r ∧ r.object = g

structure Store.Respects (W : Watch) (g : ObjectId) (s s' : Store) : Prop where
  declared : s'.Declared W g
  heap : s.heap.Respects W.objects (fun o key => o = g ∧ ∃ e, W.functions (e, key)) s'.heap

theorem Effect.Allowed.respects {W : Watch} {R : Rights} {effect : Effect σ β} {g : ObjectId}
    (h : effect.Allowed W R m) (declared : m.store.Declared W g) :
    m.store.Respects W g (effect.apply m).2.store := by
  refine ⟨fun q listed => ?_, ?_⟩
  · obtain ⟨r, record, object⟩ := declared q listed
    obtain ⟨r', record', same⟩ := (effect.grows m).global record
    exact ⟨r', record', same.trans object⟩
  cases effect with
  | allocate object => exact Heap.respects_allocate _ _
  | define o key p => exact Heap.respects_define fun old => absurd old (Nat.not_lt.2 h)
  | write o key value => exact Heap.respects_write value
  | remove o key => exact Heap.respects_remove
  | preventExtensions o =>
    exact Heap.respects_modify fun _ => ⟨fun _ => rfl, fun _ _ there => .inl there,
      fun _ p found _ => ⟨p, found, .refl p⟩⟩
  | createMutable e name deletable =>
    exact Store.respects_commit fun _ => Store.createMutable_lawful h.declares
  | createImmutable e name strict => exact Store.respects_commit fun _ => Store.createImmutable_lawful
  | initBinding e name value => exact Store.respects_commit fun _ => Store.initBinding_lawful
  | assign e name value strict => exact Store.respects_commit fun _ => Store.assign_lawful
  | bindThis e value => exact Store.respects_commit fun _ => Store.bindThis_lawful
  | declareVar e name deletable => exact Store.respects_commit fun _ => Store.declareVar_lawful
  | declareFunction e name value deletable =>
    refine Store.respects_commit fun _ => Store.declareFunction_lawful fun r record => ?_
    obtain ⟨r', record', object⟩ := declared _ h.2.1
    cases record.symm.trans record'
    exact ⟨object, e, h.2.1⟩
  | deleteBinding e name =>
    simp only [Effect.apply, Machine.onStore]
    split
    · rename_i change deleted
      exact (Store.deleteBinding_lawful deleted).respects
    · exact .refl _
  | createGenerator | startRun | suspend | complete | takeResumePoint | pushResumePoint
  | takeResumption => exact h.elim
  | _ => exact .refl _

variable {engine : Engine σ} (builtin : engine.host = []) {m m' : Machine σ} {operation : Operation α}

include builtin

theorem Operation.respects {once : Bool} (attains : engine.Attains once m) (tidy : operation.Tidy once)
    (ready : operation.Ready m) (reaches : operation.Reaches engine m m') :
    m.heap.Respects m.heap.objects.size
      (fun o key => o = m.realm.global ∧ key ∈ operation.functionNames) m'.heap := by
  obtain ⟨found, anchored⟩ := attains.tidy (Engine.tame_of_builtin builtin _)
  have safe := Engine.safe_watching builtin found anchored tidy ready
  generalize all : Engine.watching once operation m = W at safe
  let R (s s' : Store) : Prop := s.Declared W m.realm.global → s.Respects W m.realm.global s'
  have refl (s : Store) : R s s := fun declared => ⟨declared, .refl _⟩
  have trans {s₁ s₂ s₃ : Store} (first : R s₁ s₂) (second : R s₂ s₃) : R s₁ s₃ := fun declared =>
    have first := first declared
    have second := second first.declared
    ⟨second.declared, first.heap.trans second.heap⟩
  have changes (before after : Machine σ) (watched : Moment.Watched W (.change before after)) :
      R before.store after.store := by
    rcases watched with same | ⟨-, _, effect, _, allowed, rfl⟩
    · exact same ▸ refl _
    · exact allowed.respects
  have respects : R m.store m'.store := by
    rcases reaches with ⟨fuel, r, run⟩ | ⟨moment, meets, rfl⟩
    · exact engine.safe_chain refl trans changes (safe fuel) run
    · exact meets.chain refl trans changes fun fuel => ⟨_, safe fuel⟩
  subst all
  have declared : m.store.Declared (Engine.watching once operation m) m.realm.global := by
    rintro q ⟨global, -⟩
    exact global ▸ anchored
  intro o within
  have kept := (respects declared).heap o within
  exact ⟨kept.closed, fun closed key there => (kept.keys closed key there).imp_right
    fun ⟨same, _, _, listed⟩ => ⟨same, listed⟩, kept.locked⟩

/-- An object that is not extensible stays so. It gets no new keys, unless it is the global object and
a script declares functions. -/
theorem closed_objects_gain_functions_only (attains : engine.Attains false m)
    (tidy : operation.Tidy false) (ready : operation.Ready m)
    (reaches : operation.Reaches engine m m') {o : ObjectId}
    (closed : (m.heap.get o).extensible = false) :
    (m'.heap.get o).extensible = false ∧ ∀ key, m'.heap.hasOwn o key = true →
      m.heap.hasOwn o key = true ∨ o = m.realm.global ∧ key ∈ operation.functionNames := by
  have within : o.index < m.heap.objects.size := by
    refine Nat.lt_of_not_le fun beyond => ?_
    rw [Heap.get_of_size_le beyond] at closed
    cases closed
  have respects := Operation.respects builtin attains tidy ready reaches o within
  exact ⟨respects.closed closed, respects.keys closed⟩

omit builtin

/-- The global object has been made not extensible. The script `function f() {} x = true;` adds `f` to
it, but not `x`. -/
theorem closed_objects_gain_functions_only_global :
    let engine : Engine Unit := {}
    let m := (engine.start {} ()).mapHeap fun h =>
      h.modify (engine.start {} ()).realm.global fun object => { object with extensible := false }
    let script : Operation Value := .eval
      { body :=
          [.functionDecl
            { name := some "f", parameters := [], body := .block [], arrow := false, generator := false
              strict := false, span := {} },
            .expression (.assign .plain (.identifier "x") (.literal (.boolean true) {}) {}) {}]
        strict := false
        span := {} }
    ∃ r m', engine.run 0 (script.evaluate engine) m = .finished r m' ∧
      m'.heap.hasOwn m.realm.global "f" = true ∧ m'.heap.hasOwn m.realm.global "x" = false := by
  intro engine m script
  have attains : engine.Attains false m :=
    .rework (.start {} ()) (Machine.reworked_modify
      (engine.start_tidy {} () false).heap _ fun _ => rfl)
  have closed : (m.heap.get m.realm.global).extensible = false := by decide +kernel
  have absent : m.heap.hasOwn m.realm.global "x" = false := by decide +kernel
  have ends : (match engine.run 0 (script.evaluate engine) m with
      | .finished _ m' => m'.heap.hasOwn m.realm.global "f"
      | .exhausted => false) = true := by
    decide +kernel
  cases run : engine.run 0 (script.evaluate engine) m with
  | exhausted => simp [run] at ends
  | finished r m' =>
      simp only [run] at ends
      refine ⟨r, m', rfl, ends, Bool.eq_false_iff.2 fun added => ?_⟩
      have tidy : script.Tidy false := rfl
      have reaches : script.Reaches engine m m' := .inl ⟨0, r, run⟩
      rcases (closed_objects_gain_functions_only rfl attains tidy trivial reaches closed).2 "x" added
        with old | ⟨-, listed⟩
      · simp [absent] at old
      · exact absurd listed (by decide +kernel)

include builtin

/-- A property that cannot be configured stays, with its attributes, and with its value if it cannot be
written. -/
theorem locked_properties_stay (attains : engine.Attains false m) (tidy : operation.Tidy false)
    (ready : operation.Ready m) (reaches : operation.Reaches engine m m') {o : ObjectId} {key : String}
    {p : Property} (own : m.heap.getOwn? o key = some p) (locked : p.configurable = false) :
    ∃ p', m'.heap.getOwn? o key = some p' ∧ p.Lasts p' := by
  have within : o.index < m.heap.objects.size := by
    refine Nat.lt_of_not_le fun beyond => ?_
    rw [Heap.getOwn?, Heap.get_of_size_le beyond] at own
    cases own
  exact (Operation.respects builtin attains tidy ready reaches o within).locked key p own locked

omit builtin

/-- `undefined = true` leaves the global property as it is. -/
theorem locked_properties_stay_undefined :
    let engine : Engine Unit := {}
    let m := engine.start {} ()
    let assignment : Operation Value :=
      .expression (.assign .plain (.identifier "undefined") (.literal (.boolean true) {}) {}) none
    ∃ r m' p p', engine.run 0 (assignment.evaluate engine) m = .finished r m' ∧
      m.heap.getOwn? m.realm.global "undefined" = some p ∧ p.configurable = false ∧
      m'.heap.getOwn? m.realm.global "undefined" = some p' ∧ p'.value = p.value := by
  intro engine m assignment
  have there : (m.heap.getOwn? m.realm.global "undefined").any
      (fun p => !p.configurable && !p.writable) = true := by
    decide +kernel
  have ends : (match engine.run 0 (assignment.evaluate engine) m with
      | .finished .. => true
      | .exhausted => false) = true := by
    decide +kernel
  obtain ⟨p, own, constant⟩ := (Option.any_eq_true _ _).1 there
  simp only [Bool.and_eq_true, Bool.not_eq_true'] at constant
  cases run : engine.run 0 (assignment.evaluate engine) m with
  | exhausted => simp [run] at ends
  | finished r m' =>
      have tidy : assignment.Tidy false := rfl
      have reaches : assignment.Reaches engine m m' := .inl ⟨0, r, run⟩
      obtain ⟨p', own', lasts⟩ :=
        locked_properties_stay rfl (.start {} ()) tidy trivial reaches own constant.1
      exact ⟨r, m', p, p', rfl, own, constant.1, own', lasts.value constant.2⟩

end ScriptEngine
