import ScriptEngine.Proofs.References.Links

/-!
# Closed stores

In a closed heap an object refers to what there is, and its prototype and the target of a bound
function are older than the object itself (`Heap.Closed`). In a closed store all scopes lie within
the global one (`Store.Closed`).
-/

namespace ScriptEngine

variable {V W : Link → Prop}

namespace Heap

structure Closed (V : Link → Prop) (h : Heap) : Prop where
  objects : ∀ o, Linked V (h.get o)
  prototypes : ∀ o parent, (h.get o).prototype = some parent → parent.index < o.index
  targets : ∀ o f, (h.get o).kind = .function (.bound f) →
    f.target.index < o.index ∧ h.isCallable (.object f.target) = true

variable {h h' : Heap} {o : ObjectId} {key : String}

theorem isCallable_iff : h.isCallable (.object o) = true ↔
    ∃ callable, (h.get o).kind = .function callable := by
  simp only [isCallable, callable?, Object.callable?]
  split <;> simp_all

theorem lt_size_of_isCallable (callable : h.isCallable (.object o) = true) :
    o.index < h.objects.size := by
  obtain ⟨c, kind⟩ := isCallable_iff.1 callable
  refine Nat.lt_of_not_le fun beyond => ?_
  rw [get_of_size_le beyond] at kind
  cases kind

theorem Extends.isCallable (extended : h.Extends h') (callable : h.isCallable (.object o) = true) :
    h'.isCallable (.object o) = true := by
  obtain ⟨c, kind⟩ := isCallable_iff.1 callable
  exact isCallable_iff.2 ⟨c, (extended.kind o (lt_size_of_isCallable callable)).trans kind⟩

theorem linked_assigned? {v : Value} (good : Linked V v) {p : Property}
    (found : h.assigned? o key v = some p) : Linked V p := by
  unfold assigned? at found
  split at found
  · cases found
    split <;> exact good
  · cases found

namespace Closed

variable (closed : h.Closed V) {p : Property}

include closed

theorem mono (weaker : ∀ link, V link → W link) : h.Closed W :=
  ⟨fun o => (closed.objects o).mono weaker, closed.prototypes, closed.targets⟩

/-! ### Reading -/

theorem getOwn? (found : h.getOwn? o key = some p) : Linked V p :=
  Table.linked_find? (linked_objectRecord.1 (closed.objects o)).2.1 found

theorem prototype (o : ObjectId) : Linked V (h.get o).prototype :=
  (linked_objectRecord.1 (closed.objects o)).1

theorem kind (o : ObjectId) : Linked V (h.get o).kind :=
  (linked_objectRecord.1 (closed.objects o)).2.2

theorem lookupWithin {n : Nat} (found : h.lookupWithin n o key = some p) : Linked V p := by
  induction n generalizing o with
  | zero => cases found
  | succ n ih =>
    simp only [Heap.lookupWithin] at found
    split at found
    · cases found
      exact closed.getOwn? ‹_›
    · obtain ⟨parent, _, found⟩ := Option.bind_eq_some_iff.1 found
      exact ih found

theorem getProperty? {v : Value} (found : h.getProperty? o key = some v) : Linked V v := by
  obtain ⟨p, nearest, rfl⟩ := Option.map_eq_some_iff.1 found
  exact closed.lookupWithin nearest

theorem getProperty (o : ObjectId) (key : String) : Linked V (h.getProperty o key) := by
  unfold Heap.getProperty
  cases found : h.getProperty? o key with
  | none => exact linked_undefined
  | some v => exact closed.getProperty? found

theorem callable? {c : Callable} (found : (h.get o).callable? = some c) : Linked V c := by
  have kind := closed.kind o
  unfold Object.callable? at found
  split at found <;> simp_all

theorem generator? {g : GeneratorId} (found : (h.get o).generator? = some g) :
    V (.generator g) := by
  have kind := closed.kind o
  unfold Object.generator? at found
  split at found <;> simp_all


theorem modify {change : Object → Object}
    (prototype : ∀ object, (change object).prototype = object.prototype)
    (kind : ∀ object, (change object).kind = object.kind)
    (properties : Linked V (change (h.get o)).properties) : (h.modify o change).Closed V := by
  have alike : h.Alike (h.modify o change) := h.alike_modify o prototype kind
  refine ⟨fun o' => ?_, fun o' parent found => ?_, fun o' f found => ?_⟩
  · rw [get_modify]
    split
    · rw [linked_objectRecord, prototype, kind]
      exact ⟨closed.prototype o, properties, closed.kind o⟩
    · exact closed.objects o'
  · exact closed.prototypes o' parent (alike.prototype o' ▸ found)
  · rw [alike.kind] at found
    exact ⟨(closed.targets o' f found).1, alike.extends.isCallable (closed.targets o' f found).2⟩

theorem define (good : Linked V p) : (h.define o key p).Closed V :=
  closed.modify (fun _ => rfl) (fun _ => rfl)
    (Table.linked_insert (linked_objectRecord.1 (closed.objects o)).2.1 good)

theorem erase (o : ObjectId) (key : String) : (h.erase o key).Closed V :=
  closed.modify (fun _ => rfl) (fun _ => rfl)
    (Table.linked_erase (linked_objectRecord.1 (closed.objects o)).2.1)

theorem write {v : Value} (good : Linked V v) : (h.write o key v).2.Closed V := by
  unfold Heap.write
  split
  · exact closed.define (linked_assigned? good ‹_›)
  · exact closed

theorem remove (o : ObjectId) (key : String) : (h.remove o key).2.Closed V := by
  unfold Heap.remove
  repeat' split
  · exact closed
  · exact closed.erase o key
  · exact closed

theorem preventExtensions (o : ObjectId) :
    (h.modify o fun object => { object with extensible := false }).Closed V :=
  closed.modify (fun _ => rfl) (fun _ => rfl) (linked_objectRecord.1 (closed.objects o)).2.1

theorem allocate {object : Object} (good : Linked V object)
    (older : ∀ parent, object.prototype = some parent → parent.index < h.objects.size)
    (callable : ∀ f, object.kind = .function (.bound f) →
      h.isCallable (.object f.target) = true) : (h.allocate object).2.Closed V := by
  have extended := h.extends_allocate object
  refine ⟨fun o => ?_, fun o parent found => ?_, fun o f found => ?_⟩
  · rw [get_allocate]
    split
    · exact good
    · exact closed.objects o
  · rw [get_allocate] at found
    split at found
    · rename_i fresh
      exact fresh ▸ older parent found
    · exact closed.prototypes o parent found
  · rw [get_allocate] at found
    split at found
    · rename_i fresh
      have called := callable f found
      exact ⟨fresh ▸ lt_size_of_isCallable called, extended.isCallable called⟩
    · exact ⟨(closed.targets o f found).1, extended.isCallable (closed.targets o f found).2⟩

end Closed

end Heap

namespace Bindings

variable {b b' : Bindings} {name : String}

variable (h : Linked V b)

include h

theorem linked_create {binding : Binding} (good : Linked V binding) :
    Linked V (create b name binding) := by
  unfold create
  split
  · exact nofun
  · exact Table.linked_insert h good

theorem linked_initBinding {v : Value} (good : Linked V v) : Linked V (initBinding b name v) := by
  unfold initBinding
  split
  · exact nofun
  · exact Table.linked_insert h good

theorem linked_assign {v : Value} {strict : Bool} (good : Linked V v) :
    Linked V (assign b name v strict) := by
  unfold assign
  repeat' split
  · exact nofun
  · exact Table.linked_insert h good
  · exact nofun
  · exact Table.linked_insert h good
  · exact nofun
  · exact h

theorem linked_delete (made : delete b name = some b') : Linked V b' := by
  unfold delete at made
  repeat' split at made
  all_goals cases made
  · exact h
  · exact Table.linked_erase h

theorem linked_get (name : String) : Linked V (get b name) := by
  unfold get
  split
  · exact nofun
  · split
    · rename_i binding found _
      exact linked_binding.1 (Table.linked_find? h found)
    · exact nofun

end Bindings

/-! ## Stores -/

instance : Refers Change where
  links change := (change.record.elim [] fun changed => Refers.links changed.2) ++
    change.property.elim [] fun changed => Refers.links changed.2.2

namespace Store

structure Closed (V : Link → Prop) (s : Store) : Prop where
  heap : s.heap.Closed V
  environments : ∀ e, Linked V (s.environment e)
  outermost : (s.environment ⟨0⟩).outer = none
  nested : ∀ e, s.Has e → e ≠ ⟨0⟩ →
    ∃ outer, (s.environment e).outer = some outer ∧ outer.index < e.index
  global : ∀ e, (∃ r, (s.environment e).record = .global r) ↔ e = ⟨0⟩

variable {s : Store} {e : EnvironmentId} {name : String} {change : Change}

theorem linked_change {record : Option (EnvironmentId × Record)}
    {property : Option (ObjectId × String × Option Property)} :
    Linked V ({ record, property } : Change) ↔
      (∀ e r, record = some (e, r) → Linked V r) ∧
        ∀ o key p, property = some (o, key, p) → Linked V p := by
  have parts : Linked V ({ record, property } : Change) ↔
      (∀ link ∈ record.elim [] fun changed => Refers.links changed.2, V link) ∧
        ∀ link ∈ property.elim [] fun changed => Refers.links changed.2.2, V link :=
    List.forall_mem_append
  rw [parts]
  refine and_congr ?_ ?_
  · cases record with
    | none => simp
    | some changed => exact ⟨by rintro h _ _ ⟨⟩; exact h, fun h => h _ _ rfl⟩
  · cases property with
    | none => simp
    | some changed => exact ⟨by rintro h _ _ _ ⟨⟩; exact h, fun h => h _ _ _ rfl⟩

theorem linked_ofRecord {record : Record} :
    Linked V (Change.ofRecord e record) ↔ Linked V record := by
  refine linked_change.trans ⟨fun h => h.1 e record rfl, fun h => ⟨?_, nofun⟩⟩
  rintro _ _ ⟨⟩
  exact h

theorem linked_ofProperty {o : ObjectId} {key : String} {p : Property} :
    Linked V (Change.ofProperty o key p) ↔ Linked V p := by
  refine linked_change.trans ⟨fun h => h.2 o key (some p) rfl, fun h => ⟨nofun, ?_⟩⟩
  rintro _ _ _ ⟨⟩
  exact h

theorem linked_commit {result : Except Fault Change} (good : Linked V result) :
    Linked V (s.commit result).1 := by
  cases result with
  | ok change => exact nofun
  | error fault => exact good

namespace Closed

variable (closed : s.Closed V) {v : Value}

include closed

theorem mono (weaker : ∀ link, V link → W link) : s.Closed W :=
  ⟨closed.heap.mono weaker, fun e => (closed.environments e).mono weaker, closed.outermost,
    closed.nested, closed.global⟩

theorem record (e : EnvironmentId) : Linked V (s.environment e).record :=
  (linked_environment.1 (closed.environments e)).2

theorem outer (e : EnvironmentId) : Linked V (s.environment e).outer :=
  (linked_environment.1 (closed.environments e)).1

theorem has_global : s.Has ⟨0⟩ := by
  obtain ⟨r, record⟩ := (closed.global ⟨0⟩).2 rfl
  exact has_of_global record

theorem readProperty (o : ObjectId) (name : String) (strict : Bool) :
    Linked V (s.readProperty o name strict) := by
  unfold Store.readProperty
  split
  · exact closed.heap.getProperty? ‹_›
  · split <;> exact nofun

theorem getBinding (e : EnvironmentId) (name : String) (strict : Bool) :
    Linked V (s.getBinding e name strict) := by
  have record := closed.record e
  unfold Store.getBinding
  split
  · rename_i r found
    rw [found, linked_global] at record
    split
    · exact Bindings.linked_get record.2 name
    · exact closed.readProperty _ name strict
  · exact closed.readProperty _ name strict
  · rename_i found
    rw [found] at record
    exact Bindings.linked_get record name
  · rename_i found
    rw [found] at record
    exact Bindings.linked_get (linked_functionRecord.1 record).1 name

theorem resolveWithin {n : Nat} (good : V (.environment e)) :
    Linked V (s.resolveWithin n e name) := by
  induction n generalizing e with
  | zero => exact linked_none
  | succ n ih =>
    have around := closed.outer e
    unfold Store.resolveWithin
    split
    · simpa using good
    · cases outer : (s.environment e).outer with
      | none => exact linked_none
      | some outer' =>
        rw [outer] at around
        exact ih (by simpa using around)

theorem thisScopeWithin {n : Nat} (good : V (.environment e)) :
    V (.environment (s.thisScopeWithin n e)) := by
  induction n generalizing e with
  | zero => exact good
  | succ n ih =>
    have around := closed.outer e
    unfold Store.thisScopeWithin
    split
    · exact good
    · cases outer : (s.environment e).outer with
      | none => exact good
      | some outer' =>
        rw [outer] at around
        exact ih (by simpa using around)

theorem functionRecord? {r : FunctionRecord} (found : (s.environment e).functionRecord? = some r) :
    Linked V r := by
  have record := closed.record e
  unfold Environment.functionRecord? at found
  split at found <;> simp_all

theorem withObject? (e : EnvironmentId) : Linked V (s.environment e).withObject? := by
  have record := closed.record e
  unfold Environment.withObject?
  split <;> simp_all

theorem getThis (e : EnvironmentId) : Linked V (s.environment e).getThis := by
  have record := closed.record e
  unfold Environment.getThis
  split
  · simp_all
  · rename_i r found
    rw [found, linked_functionScope, linked_functionRecord] at record
    split
    · rename_i this
      rw [this] at record
      exact record.2.1
    · exact nofun
    · exact nofun
  · exact nofun

theorem apply (may : change.Extends s) (good : Linked V change) :
    (s.apply change).Closed V := by
  obtain ⟨record, property⟩ := change
  obtain ⟨records, properties⟩ := linked_change.1 good
  have grows : s.Grows (s.apply ⟨record, property⟩) := grows_apply may
  have heap : (s.apply ⟨record, property⟩).heap.Closed V := by
    have recorded : (s.apply ⟨record, property⟩).heap = (s.apply ⟨none, property⟩).heap := by
      cases record <;> rfl
    rw [recorded]
    rcases property with _ | ⟨o, key, _ | p⟩
    · exact closed.heap
    · exact closed.heap.erase o key
    · exact closed.heap.define (properties o key (some p) rfl)
  have outers (e : EnvironmentId) :
      ((s.apply ⟨record, property⟩).environment e).outer = (s.environment e).outer := by
    by_cases has : s.Has e
    · exact s.outer_apply _ has
    · rw [environment_of_not_has has, environment_of_not_has fun h => has ((s.has_apply _ e).1 h)]
  have has_iff (e : EnvironmentId) : (s.apply ⟨record, property⟩).Has e ↔ s.Has e :=
    s.has_apply _ e
  refine ⟨heap, fun e => ?_, (outers _).trans closed.outermost, fun e has inner => ?_, fun e => ?_⟩
  · by_cases has : s.Has e
    · rw [environment_apply s _ has]
      split
      · rename_i e' r changed
        split
        · exact linked_environment.2 ⟨closed.outer e, records e' r changed⟩
        · exact closed.environments e
      · exact closed.environments e
    · rw [environment_of_not_has fun h => has ((has_iff e).1 h)]
      exact List.forall_mem_nil _
  · rw [outers]
    exact closed.nested e ((has_iff e).1 has) inner
  · constructor
    · rintro ⟨r, found⟩
      have has : s.Has e := (has_iff e).1 (has_of_global found)
      have extended := grows.record has
      rw [found] at extended
      refine (closed.global e).1 ?_
      cases before : (s.environment e).record with
      | global r' => exact ⟨r', rfl⟩
      | _ => simp [before, Record.Extends] at extended
    · rintro rfl
      obtain ⟨r, found⟩ := (closed.global ⟨0⟩).2 rfl
      obtain ⟨r', found', -⟩ := grows.global found
      exact ⟨r', found'⟩

theorem commit {result : Except Fault Change}
    (may : ∀ change, result = .ok change → change.Extends s) (good : Linked V result) :
    (s.commit result).2.Closed V := by
  cases result with
  | error fault => exact closed
  | ok change => exact closed.apply (may change rfl) good

theorem enclose {env : Environment} (good : Linked V env) {outer : EnvironmentId}
    (around : env.outer = some outer) (has : s.Has outer) (inner : env.globalRecord? = none) :
    (s.enclose env).2.Closed V := by
  have positive : 0 < s.environments.size := closed.has_global
  have older : (⟨0⟩ : EnvironmentId).index ≠ s.environments.size := Nat.ne_of_lt positive
  refine ⟨closed.heap, fun e => ?_, ?_, fun e found other => ?_, fun e => ?_⟩
  · rw [environment_enclose]
    split
    · exact good
    · exact closed.environments e
  · rw [environment_enclose, if_neg older]
    exact closed.outermost
  · rw [environment_enclose]
    split
    · rename_i fresh
      exact ⟨outer, around, fresh ▸ has⟩
    · rename_i old
      exact closed.nested e (((s.has_enclose env e).1 found).resolve_right old) other
  · rw [environment_enclose]
    split
    · rename_i fresh
      constructor
      · rintro ⟨r, record⟩
        simp [Environment.globalRecord?, record] at inner
      · rintro rfl
        exact absurd fresh older
    · exact closed.global e

/-! ### Operations on bindings -/

theorem changeBindings {op : Bindings → Except Fault Bindings}
    (good : ∀ b, Linked V b → Linked V (op b)) : Linked V (s.changeBindings e op) := by
  have record := closed.record e
  unfold Store.changeBindings
  split
  · rename_i b found
    rw [found] at record
    exact linked_map (good b record) fun b' h => linked_ofRecord.2 h
  · rename_i r found
    rw [found, linked_functionScope, linked_functionRecord] at record
    exact linked_map (good _ record.1) fun b' h =>
      linked_ofRecord.2 (linked_functionRecord.2 ⟨h, record.2⟩)
  · rename_i r found
    rw [found, linked_global] at record
    exact linked_map (good _ record.2) fun b' h =>
      linked_ofRecord.2 (linked_global.2 ⟨record.1, h⟩)
  · exact nofun

omit closed in
theorem assignProperty {o : ObjectId} {strict : Bool} (good : Linked V v) :
    Linked V (s.assignProperty o name v strict) := by
  unfold Store.assignProperty
  split
  · exact nofun
  · split
    · exact linked_ofProperty.2 (Heap.linked_assigned? good ‹_›)
    · split <;> exact nofun

theorem createMutable (e : EnvironmentId) (name : String) (deletable : Bool) :
    Linked V (s.createMutable e name deletable) := by
  unfold Store.createMutable
  split
  · exact linked_ofProperty.2 linked_undefined
  · exact closed.changeBindings fun b h => Bindings.linked_create h linked_undefined

theorem createImmutable (e : EnvironmentId) (name : String) (strict : Bool) :
    Linked V (s.createImmutable e name strict) := by
  unfold Store.createImmutable
  split
  · exact nofun
  · exact closed.changeBindings fun b h => Bindings.linked_create h linked_undefined

theorem initBinding (good : Linked V v) : Linked V (s.initBinding e name v) := by
  unfold Store.initBinding
  repeat' split
  · exact closed.changeBindings fun b h => Bindings.linked_initBinding h good
  · exact assignProperty good
  · exact assignProperty good
  · exact closed.changeBindings fun b h => Bindings.linked_initBinding h good

theorem assign {strict : Bool} (good : Linked V v) : Linked V (s.assign e name v strict) := by
  unfold Store.assign
  repeat' split
  · exact closed.changeBindings fun b h => Bindings.linked_assign h good
  · exact assignProperty good
  · exact assignProperty good
  · exact closed.changeBindings fun b h => Bindings.linked_assign h good

theorem deleteBinding (made : s.deleteBinding e name = some change) : Linked V change := by
  have record := closed.record e
  unfold Store.deleteBinding at made
  split at made
  · rename_i b found
    obtain ⟨b', deleted, rfl⟩ := Option.map_eq_some_iff.1 made
    rw [found] at record
    exact linked_ofRecord.2 (Bindings.linked_delete record deleted)
  · rename_i r found
    obtain ⟨b', deleted, rfl⟩ := Option.map_eq_some_iff.1 made
    rw [found, linked_functionScope, linked_functionRecord] at record
    exact linked_ofRecord.2
      (linked_functionRecord.2 ⟨Bindings.linked_delete record.1 deleted, record.2⟩)
  · rename_i r found
    rw [found, linked_global] at record
    repeat' split at made
    · obtain ⟨b', deleted, rfl⟩ := Option.map_eq_some_iff.1 made
      exact linked_ofRecord.2
        (linked_global.2 ⟨record.1, Bindings.linked_delete record.2 deleted⟩)
    · cases made
      exact nofun
    · cases made
      refine linked_change.2 ⟨?_, ?_⟩
      · rintro _ _ ⟨⟩
        exact linked_global.2 record
      · rintro _ _ _ ⟨⟩
        exact nofun
    · cases made
  · repeat' split at made
    all_goals cases made
    · exact nofun
    · refine linked_change.2 ⟨nofun, ?_⟩
      rintro _ _ _ ⟨⟩
      exact nofun

theorem bindThis (good : Linked V v) : Linked V (s.bindThis e v) := by
  have record := closed.record e
  unfold Store.bindThis
  split
  · rename_i r found
    rw [found, linked_functionScope, linked_functionRecord] at record
    split
    · exact nofun
    · exact nofun
    · exact linked_ofRecord.2 (linked_functionRecord.2 ⟨record.1, good, record.2.2⟩)
  · exact nofun

theorem noteVar {r : GlobalRecord} (record : (s.environment e).record = .global r)
    (name : String) : Linked V (Record.global (r.noteVar name)) := by
  have good := closed.record e
  rw [record] at good
  unfold GlobalRecord.noteVar
  split
  · exact good
  · exact linked_global.2 (linked_global.1 good)

theorem declareVar (e : EnvironmentId) (name : String) (deletable : Bool) :
    Linked V (s.declareVar e name deletable) := by
  unfold Store.declareVar
  split
  · rename_i r record
    refine linked_change.2 ⟨?_, fun o key p found => ?_⟩
    · rintro _ _ ⟨⟩
      exact closed.noteVar record name
    · split at found <;> cases found
      exact nofun
  · exact nofun

theorem declareFunction {deletable : Bool} (good : Linked V v) :
    Linked V (s.declareFunction e name v deletable) := by
  unfold Store.declareFunction
  split
  · rename_i r record
    dsimp only
    split
    · rename_i p found
      refine linked_change.2 ⟨?_, ?_⟩
      · rintro _ _ ⟨⟩
        exact closed.noteVar record name
      · rintro _ _ _ ⟨⟩
        split at found
        · cases found
          exact good
        · exact Heap.linked_assigned? good found
    · exact nofun
  · exact nofun

end Closed

end Store

end ScriptEngine
