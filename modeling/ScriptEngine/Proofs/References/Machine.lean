import ScriptEngine.Proofs.Generator.Invariant
import ScriptEngine.Proofs.References.Store

/-!
# Closed machines

A machine is closed if its store is, and its generators, frames and realm refer only to what there
is (`Machine.Closed`). It stays closed under effects that refer to what there is
(`Effect.precedes`).
-/

namespace ScriptEngine

variable {σ α β : Type}

namespace Machine

def Has (m : Machine σ) : Link → Prop
  | .object o => o.index < m.heap.objects.size
  | .environment e => m.store.Has e
  | .inner e => m.store.Has e ∧ e ≠ ⟨0⟩
  | .generator g => g.index < m.generators.size

abbrev Knows (m : Machine σ) [Refers α] (a : α) : Prop := Linked m.Has a

structure Closed (m : Machine σ) : Prop where
  store : m.store.Closed m.Has
  generators : ∀ g generator, m.generator? g = some generator → m.Knows generator
  frames : ∀ frame ∈ m.stack.frames, m.Knows frame
  realm : m.Knows m.realm
  root : m.realm.globalEnvironment = ⟨0⟩

structure Precedes (m m' : Machine σ) : Prop where
  closed : m'.Closed
  heap : m.heap.Extends m'.heap
  store : m.store.Grows m'.store
  generators : m.generators.size ≤ m'.generators.size

variable {m m₁ m' : Machine σ}

@[grind →]
theorem Precedes.trans (h : m.Precedes m₁) (h' : m₁.Precedes m') : m.Precedes m' :=
  ⟨h'.closed, h.heap.trans h'.heap, h.store.trans h'.store, Nat.le_trans h.generators h'.generators⟩

attribute [grind →] Precedes.closed

theorem Precedes.has (h : m.Precedes m') (link : Link) (has : m.Has link) : m'.Has link := by
  cases link with
  | object o => exact Nat.lt_of_lt_of_le has h.heap.size
  | environment e => exact h.store.has has
  | inner e => exact ⟨h.store.has has.1, has.2⟩
  | generator g => exact Nat.lt_of_lt_of_le has h.generators

@[grind →]
theorem Precedes.knows [Refers α] {a : α} (h : m.Precedes m') (known : m.Knows a) : m'.Knows a :=
  known.mono h.has

@[grind →]
theorem Precedes.inner {e : EnvironmentId} (h : m.Precedes m') (known : m.Has (.inner e)) :
    m'.Has (.inner e) :=
  h.has _ known

@[grind →]
theorem Precedes.innerScope {e : Option EnvironmentId} (h : m.Precedes m') (known : Inner m.Has e) :
    Inner m'.Has e :=
  fun link listed => h.has link (known link listed)

@[grind →]
theorem knows_of_inner {e : EnvironmentId} (known : m.Has (.inner e)) : m.Knows e :=
  linked_environmentId.2 known.1

theorem has_lexical {frame : Frame} (known : m.Knows frame) : m.Has (.environment frame.lexical) := by
  have known := (linked_frame.1 known).1
  split at known
  · exact known.1
  · exact known

namespace Closed

theorem refl (closed : m.Closed) : m.Precedes m :=
  ⟨closed, .refl _, .refl _, Nat.le_refl _⟩

variable (closed : m.Closed) (o : ObjectId)

include closed

/-! ## What is known -/

@[grind .]
theorem objectPrototype : m.Knows m.realm.objectPrototype :=
  linked_objectId.2 (linked_realm.1 closed.realm).1

@[grind .]
theorem functionPrototype : m.Knows m.realm.functionPrototype :=
  linked_objectId.2 (linked_realm.1 closed.realm).2.1

@[grind .]
theorem generatorPrototype : m.Knows m.realm.generatorPrototype :=
  linked_objectId.2 (linked_realm.1 closed.realm).2.2.1

@[grind .]
theorem global : m.Knows m.realm.global :=
  linked_objectId.2 (linked_realm.1 closed.realm).2.2.2.1

@[grind .]
theorem globalEnvironment : m.Knows m.realm.globalEnvironment :=
  linked_environmentId.2 (linked_realm.1 closed.realm).2.2.2.2.1

@[grind .]
theorem errorPrototype (kind : ErrorClass) : m.Knows (m.realm.errorPrototype kind) :=
  linked_objectId.2 ((linked_realm.1 closed.realm).2.2.2.2.2 kind)

@[grind .]
theorem lexical : m.Knows m.lexical := by
  unfold Machine.lexical
  split
  · rename_i frame running
    exact linked_environmentId.2
      (has_lexical (closed.frames frame (List.mem_of_mem_head? running)))
  · exact closed.globalEnvironment

theorem lexical_ne (driven : m.runningGenerator? ≠ none) : m.lexical ≠ ⟨0⟩ := by
  unfold Machine.lexical
  cases running : m.stack.running? with
  | none => simp [Machine.runningGenerator?, running] at driven
  | some frame =>
    have known := (linked_frame.1 (closed.frames frame (List.mem_of_mem_head? running))).1
    have linked : frame.generator.isSome = true := by
      rw [Option.isSome_iff_ne_none]
      simpa [Machine.runningGenerator?, running] using driven
    rw [if_pos linked] at known
    exact known.2

@[grind .]
theorem varScope : m.Knows m.varScope := by
  unfold Machine.varScope
  split
  · rename_i frame running
    exact linked_environmentId.2
      (linked_frame.1 (closed.frames frame (List.mem_of_mem_head? running))).2.1
  · exact closed.globalEnvironment

@[grind .]
theorem reference (name : String) : m.Knows (m.reference name) :=
  closed.store.resolveWithin (linked_environmentId.1 closed.lexical)

@[grind .]
theorem getReference (r : Reference) : m.Knows (m.getReference r) := by
  unfold Machine.getReference
  split
  · exact nofun
  · exact closed.store.getBinding _ _ _

@[grind .]
theorem getBinding (e : EnvironmentId) (name : String) (strict : Bool) :
    m.Knows (m.store.getBinding e name strict) := closed.store.getBinding e name strict

@[grind .]
theorem thisScope : m.Knows m.thisScope :=
  linked_environmentId.2
    (closed.store.thisScopeWithin (linked_environmentId.1 closed.lexical))

@[grind .]
theorem getThis : m.Knows m.getThis := closed.store.getThis _

@[grind .]
theorem getProperty (key : String) : m.Knows (m.heap.getProperty o key) :=
  closed.store.heap.getProperty o key

@[grind .]
theorem getProperty? (key : String) : m.Knows (m.heap.getProperty? o key) := by
  cases found : m.heap.getProperty? o key with
  | none => exact linked_none
  | some v => exact closed.store.heap.getProperty? found

@[grind .]
theorem prototype : m.Knows (m.heap.get o).prototype :=
  closed.store.heap.prototype o

/-! ## Changes -/

omit closed in
theorem has_grown (heap : m.heap.Extends m'.heap) (grows : m.store.Grows m'.store)
    (size : m.generators.size ≤ m'.generators.size) (link : Link) (found : m.Has link) :
    m'.Has link := by
  cases link with
  | object o => exact Nat.lt_of_lt_of_le found heap.size
  | environment e => exact grows.has found
  | inner e => exact ⟨grows.has found.1, found.2⟩
  | generator g => exact Nat.lt_of_lt_of_le found size

theorem precedes (heap : m.heap.Extends m'.heap) (grows : m.store.Grows m'.store)
    (size : m.generators.size ≤ m'.generators.size) (store : m'.store.Closed m'.Has)
    (generators : ∀ g generator, m'.generator? g = some generator → m'.Knows generator)
    (frames : ∀ frame ∈ m'.stack.frames, m'.Knows frame) (realm : m'.realm = m.realm) :
    m.Precedes m' :=
  ⟨⟨store, generators, frames, realm ▸ closed.realm.mono (has_grown heap grows size),
    realm ▸ closed.root⟩, heap, grows, size⟩

theorem setStore {s : Store} (heap : m.heap.Extends s.heap) (grows : m.store.Grows s)
    (store : s.Closed ({ m with store := s } : Machine σ).Has) :
    m.Precedes { m with store := s } := by
  have has := @has_grown σ m { m with store := s } heap grows (Nat.le_refl _)
  exact closed.precedes heap grows (Nat.le_refl _) store
    (fun g generator found => (closed.generators g generator found).mono has)
    (fun frame listed => (closed.frames frame listed).mono has) rfl

theorem keepStore {s : Store} (heap : m.heap.Alike s.heap) (grows : m.store.Grows s)
    (store : s.Closed m.Has) : m.Precedes { m with store := s } :=
  closed.setStore heap.extends grows (store.mono (has_grown heap.extends grows (Nat.le_refl _)))

theorem modifyGenerator {g : GeneratorId} {change : Generator → Generator}
    (good : ∀ x : Generator, m.Knows x.frame ∧ m.Has (.object x.function) ∧ m.Knows x.closure ∧
      m.Knows x.resumePoints ∧ m.Knows x.resumption → m.Knows (change x)) :
    m.Precedes (m.modifyGenerator g change) := by
  have size : (m.modifyGenerator g change).generators.size = m.generators.size := by
    simp [Machine.modifyGenerator]
  have has : (m.modifyGenerator g change).Has = m.Has := by
    funext link
    cases link with
    | generator g => simp only [Has, size]
    | _ => rfl
  refine closed.precedes (.refl _) (.refl _) (Nat.le_of_eq size.symm) (has ▸ closed.store)
    (fun g' generator found => ?_) (fun frame listed => ?_) rfl
  · rw [generator?_modifyGenerator] at found
    rw [Knows, has]
    split at found
    · obtain ⟨old, before, rfl⟩ := Option.map_eq_some_iff.1 found
      exact good old (linked_generator.1 (closed.generators g' old before))
    · exact closed.generators g' generator found
  · rw [Knows, has]
    exact closed.frames frame listed

theorem congr (store : m'.store = m.store) (generators : m'.generators = m.generators)
    (realm : m'.realm = m.realm) (frames : ∀ frame ∈ m'.stack.frames, m.Knows frame) :
    m.Precedes m' := by
  obtain ⟨store', generators', stack, limits, cancelled, options, realm', host⟩ := m'
  cases store
  cases generators
  exact closed.precedes (.refl _) (.refl _) (Nat.le_refl _) closed.store
    (fun g generator found => closed.generators g generator found) frames realm

theorem setScope {lexical varScope : EnvironmentId} (known : m.Knows lexical)
    (known' : m.Knows varScope) (inner : m.runningGenerator? ≠ none → lexical ≠ ⟨0⟩) :
    m.Precedes (m.setScope lexical varScope) := by
  refine closed.congr rfl rfl rfl fun frame listed => ?_
  simp only [Machine.setScope, CallStack.setScope] at listed
  have frames := closed.frames
  split at listed
  · exact frames frame listed
  · rename_i running rest stack
    rw [stack] at frames
    rcases List.mem_cons.1 listed with rfl | listed
    · refine linked_frame.2 ⟨?_, linked_environmentId.1 known',
        (linked_frame.1 (frames running (List.mem_cons_self ..))).2.2⟩
      have has := linked_environmentId.1 known
      split
      · rename_i linked
        have driven : m.runningGenerator? = running.generator := by
          simp [Machine.runningGenerator?, CallStack.running?, stack]
        exact ⟨has, inner (driven ▸ Option.isSome_iff_ne_none.1 linked)⟩
      · exact has
    · exact frames frame (List.mem_cons_of_mem _ listed)

theorem push {frame : Frame} (known : m.Knows frame) : m.Precedes (m.push frame) := by
  refine closed.congr rfl rfl rfl fun frame' listed => ?_
  rcases List.mem_cons.1 listed with rfl | listed
  · exact known
  · exact closed.frames frame' listed

theorem pop : m.Precedes m.pop :=
  closed.congr rfl rfl rfl fun frame listed => closed.frames frame (List.mem_of_mem_tail listed)

end Closed

end Machine

/-! ## Effects -/

instance : Refers (Effect σ β) where
  links
    | .allocate object => Refers.links object
    | .define o _ property => .object o :: Refers.links property
    | .write o _ value => .object o :: Refers.links value
    | .remove o _ | .preventExtensions o => [.object o]
    | .enclose environment => Refers.links environment
    | .createMutable e _ _ | .createImmutable e _ _ | .deleteBinding e _ | .declareVar e _ _ =>
      [.environment e]
    | .initBinding e _ value | .assign e _ value _ | .bindThis e value
    | .declareFunction e _ value _ => .environment e :: Refers.links value
    | .createGenerator function closure frame =>
      [.object function, .inner frame.lexical, .environment frame.varScope] ++ Refers.links closure
    | .startRun g resumption => .generator g :: Refers.links resumption
    | .suspend g frame => .generator g :: Refers.links frame
    | .complete g => [.generator g]
    | .pushResumePoint point => Refers.links point
    | .takeResumePoint | .takeResumption | .checkLimits | .resetLimits | .cancel
    | .changeHost _ => []

/-- Scopes are opened inside others, there is one global scope, and only functions are bound. -/
def Effect.Sound (m : Machine σ) : Effect σ β → Prop
  | .allocate object => ∀ f, object.kind = .function (.bound f) →
      m.heap.isCallable (.object f.target) = true
  | .enclose environment => environment.outer.isSome = true ∧ environment.globalRecord? = none
  | _ => True

structure Effect.Permitted (m : Machine σ) (effect : Effect σ β) : Prop where
  known : m.Knows effect
  sound : effect.Sound m

namespace Machine.Closed

variable {m : Machine σ} (closed : m.Closed)

include closed

theorem commit {result : Except Fault Change}
    (may : ∀ change, result = .ok change → change.Extends m.store) (good : m.Knows result) :
    m.Precedes (m.onStore fun s => s.commit result).2 :=
  closed.keepStore (m.store.alike_commit result) (Store.grows_commit may)
    (closed.store.commit may good)

theorem onHeap {heap : Heap} (alike : m.heap.Alike heap) (good : heap.Closed m.Has) :
    m.Precedes { m with store := { m.store with heap } } :=
  closed.keepStore alike (fun _ has => ⟨has, rfl, .refl _⟩)
    ⟨good, closed.store.environments, closed.store.outermost, closed.store.nested,
      closed.store.global⟩

theorem allocate {object : Object} (allowed : (Effect.allocate object : Effect σ ObjectId).Permitted m) :
    m.Precedes ((Effect.allocate object : Effect σ ObjectId).apply m).2 := by
  have known : m.Knows object := allowed.known
  have has (link : Link) (found : m.Has link) :
      ((Effect.allocate object : Effect σ ObjectId).apply m).2.Has link := by
    cases link with
    | object o => exact Nat.lt_of_lt_of_le found (m.heap.extends_allocate object).size
    | environment e => exact found
    | inner e => exact found
    | generator g => exact found
  have heap := closed.store.heap.allocate known (fun parent prototype => ?_) allowed.sound
  · exact closed.setStore (m.heap.extends_allocate object) (fun _ has => ⟨has, rfl, .refl _⟩)
      ⟨heap.mono has, fun e => (closed.store.environments e).mono has, closed.store.outermost,
        closed.store.nested, closed.store.global⟩
  · have known := (linked_objectRecord.1 known).1
    rw [prototype] at known
    exact linked_objectId.1 (linked_some.1 known)

theorem enclose {env : Environment} (allowed : (Effect.enclose env : Effect σ EnvironmentId).Permitted m) :
    m.Precedes ((Effect.enclose env : Effect σ EnvironmentId).apply m).2 := by
  have known : m.Knows env := allowed.known
  obtain ⟨outer, around⟩ := Option.isSome_iff_exists.1 allowed.sound.1
  have grows := m.store.grows_enclose env
  have has (link : Link) (found : m.Has link) :
      ((Effect.enclose env : Effect σ EnvironmentId).apply m).2.Has link := by
    cases link with
    | object o => exact found
    | environment e => exact grows.has found
    | inner e => exact ⟨grows.has found.1, found.2⟩
    | generator g => exact found
  have inside : m.store.Has outer := by
    have known := (linked_environment.1 known).1
    rw [around] at known
    exact linked_environmentId.1 (linked_some.1 known)
  exact closed.setStore (.refl _) grows
    ((closed.store.enclose known around inside allowed.sound.2).mono has)

theorem createGenerator {function : ObjectId} {closure : Closure} {frame : Frame}
    (known : m.Knows (Effect.createGenerator function closure frame : Effect σ GeneratorId)) :
    m.Precedes ((Effect.createGenerator function closure frame : Effect σ GeneratorId).apply m).2 := by
  have has (link : Link) (found : m.Has link) :
      ((Effect.createGenerator function closure frame : Effect σ GeneratorId).apply m).2.Has link := by
    cases link with
    | object o => exact found
    | environment e => exact found
    | inner e => exact found
    | generator g =>
      have found : g.index < m.generators.size := found
      simp only [Has, Effect.apply, Array.size_push]
      omega
  obtain ⟨ids, closure'⟩ := List.forall_mem_append.1 (known.mono has)
  simp only [List.mem_cons, List.not_mem_nil, or_false, forall_eq_or_imp, forall_eq] at ids
  refine closed.precedes (.refl _) (.refl _) (by simp [Effect.apply]) (closed.store.mono has)
    (fun g generator found => ?_) (fun frame listed => (closed.frames frame listed).mono has) rfl
  simp only [Effect.apply, Machine.generator?, Array.getElem?_push] at found
  split at found
  · cases found
    refine linked_generator.2 ⟨linked_some.2 (linked_frame.2 ⟨ids.2.1, ids.2.2, ?_⟩),
      ids.1, closure', linked_nil, linked_none⟩
    simp [Has, Effect.apply]
  · exact (closed.generators g generator found).mono has

end Machine.Closed

theorem Effect.precedes {m : Machine σ} (closed : m.Closed) {effect : Effect σ β}
    (allowed : effect.Permitted m) : m.Precedes (effect.apply m).2 := by
  have known := allowed.known
  cases effect with
  | allocate object => exact closed.allocate allowed
  | enclose env => exact closed.enclose allowed
  | define o key property =>
    exact closed.onHeap (m.heap.alike_define o key property)
      (closed.store.heap.define (List.forall_mem_cons.1 known).2)
  | write o key value =>
    exact closed.onHeap (m.heap.alike_write o key value)
      (closed.store.heap.write (List.forall_mem_cons.1 known).2)
  | remove o key =>
    exact closed.onHeap (m.heap.alike_remove o key) (closed.store.heap.remove o key)
  | preventExtensions o =>
    exact closed.onHeap (m.heap.alike_modify o (fun _ => rfl) fun _ => rfl)
      (closed.store.heap.preventExtensions o)
  | createMutable e name deletable =>
    exact closed.commit (fun _ => Store.createMutable_extends) (closed.store.createMutable _ _ _)
  | createImmutable e name strict =>
    exact closed.commit (fun _ => Store.createImmutable_extends)
      (closed.store.createImmutable _ _ _)
  | initBinding e name value =>
    exact closed.commit (fun _ => Store.initBinding_extends)
      (closed.store.initBinding (List.forall_mem_cons.1 known).2)
  | assign e name value strict =>
    exact closed.commit (fun _ => Store.assign_extends)
      (closed.store.assign (List.forall_mem_cons.1 known).2)
  | bindThis e value =>
    exact closed.commit (fun _ => Store.bindThis_extends)
      (closed.store.bindThis (List.forall_mem_cons.1 known).2)
  | declareVar e name deletable =>
    exact closed.commit (fun _ => Store.declareVar_extends) (closed.store.declareVar _ _ _)
  | declareFunction e name value deletable =>
    exact closed.commit (fun _ => Store.declareFunction_extends)
      (closed.store.declareFunction (List.forall_mem_cons.1 known).2)
  | deleteBinding e name =>
    simp only [Effect.apply, Machine.onStore]
    split
    · rename_i change found
      exact closed.keepStore (m.store.alike_apply change)
        (Store.grows_apply (Store.deleteBinding_extends found))
        (closed.store.apply (Store.deleteBinding_extends found) (closed.store.deleteBinding found))
    · exact closed.refl
  | createGenerator function closure frame => exact closed.createGenerator known
  | startRun g resumption =>
    simp only [Effect.apply]
    repeat' split
    · exact closed.refl
    · exact closed.refl
    · exact closed.refl
    · exact closed.modifyGenerator fun _ good =>
        linked_generator.2 ⟨linked_none, good.2.1, good.2.2.1, good.2.2.2.1, (List.forall_mem_cons.1 known).2⟩
  | suspend g frame =>
    exact closed.modifyGenerator fun _ good =>
      linked_generator.2 ⟨(List.forall_mem_cons.1 known).2, good.2⟩
  | complete g =>
    exact closed.modifyGenerator fun _ good =>
      linked_generator.2 ⟨linked_none, good.2.1, good.2.2.1, linked_nil, linked_none⟩
  | takeResumePoint =>
    simp only [Effect.apply]
    split
    · exact closed.refl
    · exact closed.modifyGenerator fun _ good =>
        linked_generator.2 ⟨good.1, good.2.1, good.2.2.1, linked_tail good.2.2.2.1, good.2.2.2.2⟩
  | pushResumePoint point =>
    simp only [Effect.apply]
    split
    · exact closed.refl
    · exact closed.modifyGenerator fun _ good =>
        linked_generator.2 ⟨good.1, good.2.1, good.2.2.1, linked_cons.2 ⟨known, good.2.2.2.1⟩, good.2.2.2.2⟩
  | takeResumption =>
    simp only [Effect.apply]
    split
    · exact closed.refl
    · exact closed.modifyGenerator fun _ good =>
        linked_generator.2 ⟨good.1, good.2.1, good.2.2.1, good.2.2.2.1, linked_none⟩
  | checkLimits | resetLimits | cancel | changeHost =>
    exact closed.congr rfl rfl rfl closed.frames

end ScriptEngine
