import ScriptEngine.Proofs.Start
import ScriptEngine.Proofs.References.Call

/-!
# Sessions

A host starts an engine and uses operations on what there is. Between them it may allocate and bind
like a script does, and change the properties of objects at will.
-/

namespace ScriptEngine

variable {σ α β : Type}

/-! ## The start -/

def Link.Early (size : Nat) : Link → Prop
  | .object o => o.index < size
  | .environment e => e = ⟨0⟩
  | .inner _ | .generator _ => False

theorem Link.Early.mono {size size' : Nat} (le : size ≤ size') (link : Link) (h : link.Early size) :
    link.Early size' := by
  cases link with
  | object o => exact Nat.lt_of_lt_of_le h le
  | environment e => exact h
  | inner e => exact h
  | generator g => exact h

@[grind =] theorem Link.early_object {size : Nat} {o : ObjectId} :
    (Link.object o).Early size ↔ o.index < size := Iff.rfl

def Heap.Early (h : Heap) : Prop := h.Closed (Link.Early h.objects.size)

def Setup.Closes (size : Nat) (x : Setup α) (Q : Nat → α → Prop) : Prop :=
  ∀ h : Heap, size ≤ h.objects.size → h.Early →
    (x h).2.Early ∧ size ≤ (x h).2.objects.size ∧ Q (x h).2.objects.size (x h).1

namespace Setup

variable {size : Nat}

theorem closes_pure {Q : Nat → α → Prop} {a : α} (h : ∀ size', size ≤ size' → Q size' a) :
    Closes size (pure a : Setup α) Q :=
  fun _ within early => ⟨early, within, h _ within⟩

theorem closes_bind {Q : Nat → α → Prop} {R : Nat → β → Prop} {x : Setup α} {f : α → Setup β}
    (hx : Closes size x Q)
    (hf : ∀ a size', size ≤ size' → Q size' a → Closes size' (f a) R) :
    Closes size (x >>= f) R := by
  intro h within early
  obtain ⟨early₁, within₁, found⟩ := hx h within early
  obtain ⟨early₂, within₂, result⟩ := hf (x h).1 _ within₁ found (x h).2 (Nat.le_refl _) early₁
  exact ⟨early₂, Nat.le_trans within₁ within₂, result⟩

theorem closes_allocate {object : Object} (known : Linked (Link.Early size) object)
    (free : ∀ f, object.kind ≠ .function (.bound f)) :
    Closes size (allocate object) fun size' o => o.index < size' := by
  intro h within early
  rw [show allocate object h = h.allocate object from rfl]
  have grown : (h.allocate object).2.objects.size = h.objects.size + 1 := by simp [Heap.allocate]
  refine ⟨?_, by omega, ?_⟩
  · refine (early.mono (Link.Early.mono (by omega))).allocate
      (known.mono (Link.Early.mono (by omega))) (fun parent found => ?_) fun f bound =>
      absurd bound (free f)
    have older := (linked_objectRecord.1 known).1
    rw [found] at older
    exact Nat.lt_of_lt_of_le (linked_objectId.1 older) within
  · rw [grown]
    exact Nat.lt_succ_self _

@[grind ←]
theorem closes_define {o : ObjectId} {key : String} {property : Property}
    (known : Linked (Link.Early size) property.value) :
    Closes size (define o key property) fun _ _ => True := by
  intro h within early
  rw [show define o key property h = ((), h.define o key property) from rfl]
  have same : (h.define o key property).objects.size = h.objects.size :=
    (h.alike_define o key property).size
  refine ⟨?_, by rw [same]; exact within, trivial⟩
  unfold Heap.Early
  rw [same]
  exact early.define (linked_property.2 (known.mono (Link.Early.mono within)))

theorem closes_native {prototype : ObjectId} (known : prototype.index < size) (f : Native) :
    Closes size (native prototype f) fun size' o => o.index < size' := by
  refine closes_allocate (linked_objectRecord.2 ⟨?_, ?_, ?_⟩) nofun
  · exact linked_some.2 (linked_objectId.2 known)
  · exact Table.linked_insert (Table.linked_insert Table.linked_empty nofun) nofun
  · exact nofun

abbrev Fills (size : Nat) (x : Setup Unit) : Prop := Closes size x fun _ _ => True

@[grind ←]
theorem fills_bind {x : Setup Unit} {f : Unit → Setup Unit} (hx : Fills size x)
    (hf : ∀ size', size ≤ size' → Fills size' (f ())) : Fills size (x >>= f) :=
  closes_bind hx fun _ size' le _ => hf size' le

@[grind .]
theorem fills_method {functionPrototype : ObjectId} (known : functionPrototype.index < size)
    (o : ObjectId) (name : String) (arity : Nat) (code : NativeCode) :
    Fills size (method functionPrototype o name arity code) :=
  closes_bind (closes_native known _) fun _ _ _ made => closes_define (linked_object.2 made)

@[grind .]
theorem fills_publish {constructor prototype : ObjectId} (known : constructor.index < size)
    (known' : prototype.index < size) (global : ObjectId) (name : String) :
    Fills size (publish global constructor prototype name) := by
  unfold publish
  grind [Property.locked, Property.hidden]

variable {realm : Realm}

section

variable (known : Linked (Link.Early size) realm)

include known

theorem fills_objects : Fills size (objects realm) := by
  rw [linked_realm] at known
  have method {size' : Nat} (le : size ≤ size') (o : ObjectId) (name : String) (code : NativeCode) :
      Fills size' (method realm.functionPrototype o name 1 code) :=
    fills_method (Nat.lt_of_lt_of_le known.2.1 le) o name 1 code
  refine fills_bind (method (Nat.le_refl _) _ _ _) fun size₁ le₁ =>
    fills_bind (method le₁ _ _ _) fun size₂ le₂ =>
      closes_bind (closes_native (Link.Early.mono (Nat.le_trans le₁ le₂) _ known.2.1) _)
        fun constructor size₃ le₃ made => ?_
  exact fills_bind (method (by omega) _ _ _) fun size₄ le₄ =>
    fills_publish (Nat.lt_of_lt_of_le made le₄) (Link.Early.mono (by omega) _ known.1) _ _

theorem fills_functions : Fills size (functions realm) := by
  unfold functions
  grind

theorem fills_generators : Fills size (generators realm) := by
  unfold generators
  grind [Property.readonlyHidden]

theorem fills_globals : Fills size (globals realm) := by
  unfold globals
  grind [Property.hidden, Property.locked]

theorem closes_errorClass {parent : ObjectId} (known' : parent.index < size) (kind : ErrorClass) :
    Closes size (errorClass realm parent kind) fun size' o => o.index < size' := by
  rw [linked_realm] at known
  refine closes_bind (closes_define (linked_text _)) fun _ size₁ le₁ _ =>
    closes_bind (closes_define (linked_text _)) fun _ size₂ le₂ _ =>
      closes_bind (closes_native (by omega) _) fun constructor size₃ le₃ made => ?_
  refine closes_bind (fills_publish made (Link.Early.mono (by omega) _ (known.2.2.2.2.2 kind)) _ _)
    fun _ size₄ le₄ _ => closes_pure fun size₅ le₅ => ?_
  omega

end

theorem closes_forIn {f : β → PUnit → Setup (ForInStep PUnit)}
    (h : ∀ b u size', size ≤ size' → Closes size' (f b u) fun _ _ => True) (l : List β) (u : PUnit) :
    Fills size (forIn l u f) := by
  induction l generalizing u size with
  | nil => exact closes_pure fun _ _ => trivial
  | cons b rest ih =>
    rw [List.forIn_cons]
    refine closes_bind (h b u size (Nat.le_refl _)) fun step size₁ le₁ _ => ?_
    cases step with
    | done u => exact closes_pure fun _ _ => trivial
    | yield u => exact ih (fun b u size₂ le₂ => h b u size₂ (Nat.le_trans le₁ le₂)) u

theorem fills_errors (known : Linked (Link.Early size) realm) : Fills size (errors realm) := by
  have function := (linked_realm.1 known).2.1
  refine closes_bind (closes_errorClass known function _) fun general size₁ le₁ made =>
    closes_bind (closes_forIn (fun kind _ size₂ le₂ => ?_) _ _) fun _ size₃ le₃ _ =>
      fills_method (Link.Early.mono (by omega) _ function) _ _ _ _
  split
  · exact closes_bind (closes_errorClass (known.mono (Link.Early.mono (by omega)))
      (Nat.lt_of_lt_of_le made le₂) _) fun _ _ _ _ => closes_pure fun _ _ => trivial
  · exact closes_pure fun _ _ => trivial

theorem fills_hostFunctions (known : Linked (Link.Early size) realm) (index : Nat)
    (host : List (HostFunction σ)) : Fills size (hostFunctions realm index host) := by
  induction host generalizing index size with
  | nil => exact closes_pure fun _ _ => trivial
  | cons f rest ih =>
    exact fills_bind (fills_method (linked_realm.1 known).2.1 _ _ _ _) fun _ le =>
      ih (known.mono (Link.Early.mono le)) (index + 1)

theorem closes_realm : Closes 0 Setup.realm fun size' realm => Linked (Link.Early size') realm := by
  have plain {size : Nat} {prototype : ObjectId} (known : prototype.index < size) :
      Closes size (allocate { prototype := some prototype }) fun size' o => o.index < size' :=
    closes_allocate (by simpa [Link.Early] using known) nofun
  refine closes_bind (closes_allocate (by simp) nofun) fun _ size₁ le₁ object =>
    closes_bind (plain object) fun _ size₂ le₂ function =>
    closes_bind (plain (by omega)) fun _ size₃ le₃ generator =>
    closes_bind (plain (by omega)) fun _ size₄ le₄ error =>
    closes_bind (plain error) fun _ size₅ le₅ typeError =>
    closes_bind (plain (by omega)) fun _ size₆ le₆ referenceError =>
    closes_bind (plain (by omega)) fun _ size₇ le₇ rangeError =>
    closes_bind (plain (by omega)) fun _ size₈ le₈ syntaxError =>
    closes_bind (plain (by omega)) fun _ size₉ le₉ global =>
    closes_pure fun size le => ?_
  rw [linked_realm]
  refine ⟨by grind, by grind, by grind, by grind, rfl, fun kind => ?_⟩
  cases kind <;> grind

theorem closes_all (host : List (HostFunction σ)) :
    Closes 0 (all host) fun size' realm => Linked (Link.Early size') realm := by
  have later {size size' : Nat} (le : size ≤ size') {realm : Realm}
      (known : Linked (Link.Early size) realm) : Linked (Link.Early size') realm :=
    known.mono (Link.Early.mono le)
  refine closes_bind closes_realm fun realm size₁ le₁ known => ?_
  refine closes_bind (fills_objects known) fun _ size₂ le₂ _ => ?_
  have known := later le₂ known
  refine closes_bind (fills_functions known) fun _ size₃ le₃ _ => ?_
  have known := later le₃ known
  refine closes_bind (fills_generators known) fun _ size₄ le₄ _ => ?_
  have known := later le₄ known
  refine closes_bind (fills_errors known) fun _ size₅ le₅ _ => ?_
  have known := later le₅ known
  refine closes_bind (fills_globals known) fun _ size₆ le₆ _ => ?_
  have known := later le₆ known
  exact closes_bind (fills_hostFunctions known 0 host) fun _ size₇ le₇ _ =>
    closes_pure fun size₈ le₈ => later (by omega) known

end Setup

namespace Engine

variable (engine : Engine σ) (options : Options) (host : σ)

theorem start_early : (engine.start options host).heap.Early ∧
    Linked (Link.Early (engine.start options host).heap.objects.size)
      (engine.start options host).realm := by
  obtain ⟨early, -, known⟩ := Setup.closes_all engine.host { objects := #[] } (Nat.le_refl _)
    ⟨fun _ => nofun, nofun, nofun⟩
  unfold Engine.start
  generalize Setup.all engine.host { objects := #[] } = setup at early known
  exact ⟨early, known⟩

theorem start_environment (e : EnvironmentId) : (engine.start options host).store.environment e =
    if e = ⟨0⟩ then { record := .global { object := (engine.start options host).realm.global } }
    else {} := by
  obtain ⟨index⟩ := e
  rw [Store.environment, start_environments]
  cases index with
  | zero => rfl
  | succ index => simp

theorem start_closed : (engine.start options host).Closed := by
  obtain ⟨early, known⟩ := engine.start_early options host
  have has (link : Link) (h : link.Early (engine.start options host).heap.objects.size) :
      (engine.start options host).Has link := by
    cases link with
    | object o => exact h
    | environment e =>
      rw [show e = ⟨0⟩ from h, Machine.Has, Store.Has, start_environments]
      exact Nat.one_pos
    | inner e | generator g => exact h.elim
  have known := known.mono has
  refine ⟨⟨early.mono has, fun e => ?_, ?_, fun e there inside => ?_, fun e => ?_⟩,
    fun g generator found => ?_, fun frame listed => ?_, known,
    engine.start_globalEnvironment options host⟩
  · rw [start_environment]
    split
    · simpa using (linked_realm.1 known).2.2.2.1
    · simp
  · rw [start_environment, if_pos rfl]
  · rw [Store.Has, start_environments] at there
    exact absurd (congrArg EnvironmentId.mk (Nat.lt_one_iff.1 there)) inside
  · rw [start_environment]
    split <;> simp_all
  · rw [Machine.generator?, engine.start_generators options host] at found
    cases found
  · rw [engine.start_stack options host, List.mem_singleton] at listed
    rw [listed, Machine.Knows, linked_unlinkedFrame]
    exact ⟨has (.environment ⟨0⟩) rfl, has (.environment ⟨0⟩) rfl⟩

end Engine

/-- The host has changed no more than properties of objects, whether they can get more of them,
options, limits and its own state. -/
structure Machine.Altered (m m' : Machine σ) : Prop where
  size : m'.heap.objects.size = m.heap.objects.size
  prototype : ∀ o, (m'.heap.get o).prototype = (m.heap.get o).prototype
  kind : ∀ o, (m'.heap.get o).kind = (m.heap.get o).kind
  properties : ∀ o, m.Knows (m'.heap.get o).properties
  environments : m'.store.environments = m.store.environments
  generators : m'.generators = m.generators
  stack : m'.stack = m.stack
  realm : m'.realm = m.realm

inductive Engine.Course (engine : Engine σ) : Machine σ → Machine σ → Prop where
  | refl (m : Machine σ) : engine.Course m m
  | operate {α : Type} {m m₁ m' : Machine σ} (operation : Operation α) {fuel : Nat}
      {r : Except Fault α} (before : engine.Course m m₁) (known : m₁.Knows operation)
      (run : engine.run fuel (operation.evaluate engine) m₁ = .finished r m') : engine.Course m m'
  | perform {β : Type} {m m₁ : Machine σ} (effect : Effect σ β) (before : engine.Course m m₁)
      (allowed : effect.Permitted m₁) : engine.Course m (effect.apply m₁).2
  | alter {m m₁ m' : Machine σ} (before : engine.Course m m₁) (h : m₁.Altered m') :
      engine.Course m m'

/-- The second machine comes up after the first one, between two operations or in the course of one. -/
def Engine.Reaches (engine : Engine σ) (m m' : Machine σ) : Prop :=
  ∃ m₀, engine.Course m m₀ ∧ (m' = m₀ ∨ ∃ (α : Type) (operation : Operation α),
    m₀.Knows operation ∧ engine.Meets (operation.evaluate engine).run m₀ (.look m'))

def Engine.Visits (engine : Engine σ) (m : Machine σ) : Prop :=
  ∃ options host, engine.Reaches (engine.start options host) m

theorem Machine.Altered.precedes {m m' : Machine σ} (closed : m.Closed) (h : m.Altered m') :
    m.Precedes m' := by
  have has : m'.Has = m.Has := by
    funext link
    cases link with
    | object o => simp only [Machine.Has, h.size]
    | environment e | inner e => simp only [Machine.Has, Store.Has, h.environments]
    | generator g => simp only [Machine.Has, h.generators]
  have scopes (e : EnvironmentId) : m'.store.environment e = m.store.environment e := by
    simp only [Store.environment, h.environments]
  have alike : m.heap.Alike m'.heap := ⟨h.size, h.prototype, h.kind⟩
  have there {e : EnvironmentId} : m'.store.Has e ↔ m.store.Has e := by
    simp only [Store.Has, h.environments]
  have grows : m.store.Grows m'.store := fun e has =>
    ⟨there.2 has, by rw [scopes], scopes e ▸ .refl _⟩
  have heap : m'.heap.Closed m.Has :=
    ⟨fun o => linked_objectRecord.2 ⟨h.prototype o ▸ closed.store.heap.prototype o, h.properties o,
        h.kind o ▸ closed.store.heap.kind o⟩,
      fun o parent found => closed.store.heap.prototypes o parent (h.prototype o ▸ found),
      fun o f found => (closed.store.heap.targets o f (h.kind o ▸ found)).imp_right
        alike.extends.isCallable⟩
  have store : m'.store.Closed m.Has :=
    ⟨heap, fun e => scopes e ▸ closed.store.environments e, scopes _ ▸ closed.store.outermost,
      fun e has inside => scopes e ▸ closed.store.nested e (there.1 has) inside,
      fun e => scopes e ▸ closed.store.global e⟩
  refine closed.precedes alike.extends grows (Nat.le_of_eq (congrArg _ h.generators.symm)) ?_ ?_ ?_ h.realm
  · exact has ▸ store
  · intro g generator found
    rw [Machine.Knows, has]
    exact closed.generators g generator (by simpa only [Machine.generator?, h.generators] using found)
  · intro frame listed
    rw [Machine.Knows, has]
    exact closed.frames frame (h.stack ▸ listed)

namespace Engine

variable {engine : Engine σ} {m m' : Machine σ}

theorem Course.precedes (host : engine.Discreet) (closed : m.Closed) (course : engine.Course m m') :
    m.Precedes m' := by
  induction course with
  | refl => exact closed.refl
  | @operate _ _ _ _ operation fuel _ _ known run ih =>
    have before := ih closed
    have after := engine.safe_result run (operation.safe host before.closed known fuel)
    exact before.trans after
  | perform effect _ allowed ih => exact (ih closed).trans (Effect.precedes (ih closed).closed allowed)
  | alter _ h ih => exact (ih closed).trans (h.precedes (ih closed).closed)

theorem Visits.closed (host : engine.Discreet) (visits : engine.Visits m) : m.Closed := by
  obtain ⟨options, state, m₀, course, rfl | ⟨α, operation, known, meets⟩⟩ := visits
  · exact (course.precedes host (engine.start_closed options state)).closed
  · have before := (course.precedes host (engine.start_closed options state)).closed
    exact meets.holds engine fun fuel => ⟨_, operation.safe host before known fuel⟩

end Engine

end ScriptEngine
