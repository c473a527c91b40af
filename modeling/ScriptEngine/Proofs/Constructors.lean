import ScriptEngine.Proofs.Locks
import ScriptEngine.Proofs.Writes

/-!
# Built-in constructors

A built-in constructor does the same with and without `new`, as long as the global `Object` is the
constructor of objects. The prototypes that it gives are locked properties, which scripts cannot
change.
-/

namespace ScriptEngine

open Eval

variable {σ : Type} {engine : Engine σ} {m m' : Machine σ} {c : ObjectId} {b : Builtin}

/-- The machines that come up when a host does nothing but run tidy trees. -/
inductive Engine.Scripted (engine : Engine σ) (m : Machine σ) : Machine σ → Prop where
  | refl : engine.Scripted m m
  | operate {α : Type} {m₁ m' : Machine σ} (operation : Operation α) {fuel : Nat}
      {r : Except Fault α} (before : engine.Scripted m m₁) (tidy : operation.Tidy false)
      (ready : operation.Ready m₁)
      (run : engine.run fuel (operation.evaluate engine) m₁ = .finished r m') :
      engine.Scripted m m'
  | look {α : Type} {m₁ m' : Machine σ} (operation : Operation α) (before : engine.Scripted m m₁)
      (tidy : operation.Tidy false) (ready : operation.Ready m₁)
      (meets : engine.Meets (operation.evaluate engine).run m₁ (.look m')) : engine.Scripted m m'

def Realm.prototypeOf? (realm : Realm) : Builtin → Option ObjectId
  | .object => some realm.objectPrototype
  | .error kind => some (realm.errorPrototype kind)
  | _ => none

/-- If the object is a built-in constructor, its `prototype` is as it was made and locked. -/
def Object.isEquipped (realm : Realm) (object : Object) : Bool :=
  match object.callable? with
  | some (.native ⟨_, _, .builtin b⟩) => (realm.prototypeOf? b).all fun prototype =>
    (object.properties.find? "prototype").any fun p =>
      !p.writable && !p.configurable && p.value.asObject? = some prototype
  | _ => true

/-! ## Reachable machines -/

theorem Engine.start_equipped (builtin : engine.host = []) (options : Options) (host : σ) :
    ((engine.start options host).heap.get c).isEquipped (engine.start options host).realm = true := by
  have all : (Setup.all ([] : List (HostFunction Unit)) ⟨#[]⟩).2.objects.all
      (·.isEquipped (Setup.all ([] : List (HostFunction Unit)) ⟨#[]⟩).1) = true := by
    decide +kernel
  have same : Setup.all engine.host = Setup.all ([] : List (HostFunction Unit)) := by
    rw [builtin]
    rfl
  unfold Engine.start
  rw [same]
  generalize Setup.all ([] : List (HostFunction Unit)) ⟨#[]⟩ = setup at all
  obtain ⟨realm, heap⟩ := setup
  change (heap.get c).isEquipped realm = true
  by_cases there : c.index < heap.objects.size
  · simpa [Heap.get, there] using Array.all_eq_true.1 all c.index there
  · rw [Heap.get_of_size_le (Nat.le_of_not_lt there)]
    rfl

theorem Object.isEquipped_respects {free : String → Prop} {object object' : Object} {realm : Realm}
    (kind : object'.kind = object.kind) (respects : object.Respects free object')
    (h : object.isEquipped realm = true) : object'.isEquipped realm = true := by
  unfold isEquipped at h ⊢
  rw [callable?, kind, ← callable?]
  split
  · rename_i callable
    rw [callable] at h
    rw [Option.all_eq_true_iff_get] at h ⊢
    intro made
    obtain ⟨p, own, locked⟩ := (Option.any_eq_true _ _).1 (h made)
    simp only [Bool.and_eq_true, Bool.not_eq_true', decide_eq_true_eq] at locked
    obtain ⟨p', own', lasts⟩ := respects.locked _ p own locked.1.2
    simp [own', lasts.writable, lasts.configurable, lasts.value locked.1.1, locked]
  · rfl

namespace Engine.Scripted

theorem attains {options : Options} {host : σ} (h : engine.Scripted (engine.start options host) m) :
    engine.Attains false m := by
  induction h with
  | refl => exact .start options host
  | operate operation _ tidy ready run ih => exact .operate operation ih tidy ready run
  | look operation _ tidy ready meets ih => exact .look operation ih tidy ready meets

theorem equipped (builtin : engine.host = []) {options : Options} {host : σ}
    (h : engine.Scripted (engine.start options host) m) {callable : Callable}
    (native : ((engine.start options host).heap.get c).callable? = some callable) :
    (m.heap.get c).callable? = some callable ∧ (m.heap.get c).isEquipped m.realm = true := by
  have step {α : Type} {m m' : Machine σ} {operation : Operation α} (attains : engine.Attains false m)
      (tidy : operation.Tidy false) (ready : operation.Ready m)
      (reaches : operation.Reaches engine m m') (preserves : m.heap.Preserves m'.heap)
      (realm : m'.realm = m.realm)
      (h : (m.heap.get c).callable? = some callable ∧ (m.heap.get c).isEquipped m.realm = true) :
      (m'.heap.get c).callable? = some callable ∧ (m'.heap.get c).isEquipped m'.realm = true := by
    have within : c.index < m.heap.objects.size := by
      refine Nat.lt_of_not_le fun beyond => ?_
      rw [Heap.get_of_size_le beyond] at h
      cases h.1
    have kind := preserves.kind c within
    have respects := Operation.respects builtin attains tidy ready reaches c within
    refine ⟨?_, realm ▸ Object.isEquipped_respects kind respects h.2⟩
    rw [Object.callable?, kind, ← Object.callable?, h.1]
  induction h with
  | refl => exact ⟨native, engine.start_equipped builtin options host⟩
  | operate operation before tidy ready run ih =>
    exact step before.attains tidy ready (.inl ⟨_, _, run⟩) (natures_kept.run engine run)
      (realm_kept.run engine run) ih
  | look operation before tidy ready meets ih =>
    exact step before.attains tidy ready (.inr ⟨_, meets, rfl⟩)
      (meets.look_kept natures_kept (fun _ _ _ => .refl _) fun _ _ => .refl _)
      (meets.look_kept realm_kept (fun _ _ _ => rfl) fun _ _ => rfl) ih

end Engine.Scripted

/-! ## Agreement -/

theorem Heap.getProperty?_equipped {h : Heap} {f : Native} {realm : Realm} {prototype : ObjectId}
    (native : (h.get c).callable? = some (.native f)) (code : f.code = .builtin b)
    (equipped : (h.get c).isEquipped realm = true) (made : realm.prototypeOf? b = some prototype) :
    h.getProperty? c "prototype" = some (.object prototype) := by
  obtain ⟨name, arity, _⟩ := f
  cases code
  simp only [Object.isEquipped, native, made, Option.all_some, Option.any_eq_true,
    Bool.and_eq_true, decide_eq_true_eq] at equipped
  obtain ⟨p, own, -, value⟩ := equipped
  rw [getProperty?_own own]
  cases held : p.value <;> simp_all [Value.asObject?]

section

variable {A : Answers σ} (f : Native) {x y : Eval σ Value}

theorem Answers.eval_enterNative_congr
    (same : ∀ frame, A.eval x (m.push frame) = A.eval y (m.push frame)) :
    A.eval (enterNative f x) m = A.eval (enterNative f y) m := by
  by_cases full : m.isFull = true <;> simp [enterNative, checkDepth, same, full]

theorem Answers.eval_enterNative_ok {v : Value} (room : m.isFull = false)
    (runs : ∀ frame, ∃ m', A.eval x (m.push frame) = .finished (.ok v) m') :
    ∃ m', A.eval (enterNative f x) m = .finished (.ok v) m' := by
  obtain ⟨m', run⟩ := runs
    { lexical := m.lexical, varScope := m.varScope, strict := m.strict
      name := if m.options.debugNames then some f.name else none }
  exact ⟨m'.pop, by simp [enterNative, checkDepth, room, run]⟩

theorem Answers.eval_instancePrototype {prototype : ObjectId} (fallback : ObjectId)
    (made : m.heap.getProperty? c "prototype" = some (.object prototype)) :
    A.eval (instancePrototype c fallback) m = .finished (.ok prototype) m := by
  simp [instancePrototype, made]

end

/-- What a built-in constructor answers: an object that `Object` is given, or else a new one. -/
def Builtin.answer (b : Builtin) (arguments : List Value) (m : Machine σ) : ObjectId :=
  (if b = .object then (arguments.headD .undefined).asObject? else none).getD ⟨m.heap.objects.size⟩

theorem Builtin.call_answers {A : Answers σ} {f : Native} (code : f.code = .builtin b)
    (constructor : f.isConstructor = true) (shortcuts : Bool) (this : Value) (arguments : List Value) :
    ∃ m', A.eval (b.call shortcuts this arguments) m =
      .finished (.ok (.object (b.answer arguments m))) m' := by
  have fresh (object : Object) :
      ((Effect.allocate object).apply m).1 = ⟨m.heap.objects.size⟩ := rfl
  simp only [Native.isConstructor, code] at constructor
  split at constructor
  · rename_i object
    cases object
    unfold call answer
    cases arguments.headD .undefined <;>
      simp [objectOf, newObject, toObject, Value.isNullish, Value.asObject?, fresh]
  · rename_i error
    cases error
    simp [call, constructError, newError, answer, fresh]
  · cases constructor

/-- With and without `new`, a built-in constructor does the same, except that `Object` ignores its
arguments when the global of that name is another value. -/
theorem construct_agrees_call (builtin : engine.host = []) {options : Options} {host : σ}
    (scripted : engine.Scripted (engine.start options host) m) {f : Native}
    (native : ((engine.start options host).heap.get c).callable? = some (.native f))
    (code : f.code = .builtin b) (constructor : f.isConstructor = true) (fuel : Nat)
    (arguments : List Value) :
    engine.run fuel (construct (.object c) arguments none) m =
        engine.run fuel (call (.object c) .undefined
          (if b = .object ∧ (m.getGlobal? "Object").bind Value.asObject? ≠ some c then []
          else arguments)) m ∧
      (m.isFull = false → ∃ m', engine.run (fuel + 1) (call (.object c) .undefined arguments) m =
        .finished (.ok (.object (b.answer arguments m))) m') := by
  obtain ⟨native, equipped⟩ := scripted.equipped builtin native
  have locked {prototype : ObjectId} (made : m.realm.prototypeOf? b = some prototype) :=
    Heap.getProperty?_equipped native code equipped made
  simp only [engine.run_eq, Answers.eval_construct, Answers.eval_call]
  refine ⟨?_, fun room => ?_⟩
  · cases fuel with
    | zero => simp
    | succ fuel =>
      have target : ((none : Option Value).bind Value.asObject?).getD c = c := rfl
      simp only [engine.answers_succ_invoke, Invocation.eval, constructObject, callObject,
        Answers.eval_bind, Answers.eval_ask, Outcome.proceed_ok, native, code, Native.call, target]
      have realm (frame : Frame) : (m.push frame).realm = m.realm := rfl
      simp only [Native.isConstructor, code] at constructor
      split at constructor
      · rename_i object
        cases object
        refine Answers.eval_enterNative_congr f fun frame => ?_
        have prototype (fallback) := Answers.eval_instancePrototype (m := m.push frame)
          (A := engine.answers fuel) fallback (locked rfl)
        have same : m.getGlobal? "Object" = (m.push frame).getGlobal? "Object" := rfl
        by_cases global : ((m.push frame).getGlobal? "Object").bind Value.asObject? = some c
        · simp [Builtin.call, same, global]
        · simp [Builtin.call, same, global, prototype, objectOf, newObject, Value.isNullish, realm]
      · rename_i error
        cases error
        refine Answers.eval_enterNative_congr f fun frame => ?_
        have prototype (fallback) := Answers.eval_instancePrototype (m := m.push frame)
          (A := engine.answers fuel) fallback (locked rfl)
        rw [if_neg fun h => by cases h.1]
        simp only [Builtin.call]
        rw [Answers.eval_bind, Answers.eval_ask, Outcome.proceed_ok, Answers.eval_bind, prototype,
          Outcome.proceed_ok, Answers.eval_bind, Answers.eval_ask, Outcome.proceed_ok, realm]
      · cases constructor
  · simp only [engine.answers_succ_invoke, Invocation.eval, callObject, Answers.eval_bind,
      Answers.eval_ask, Outcome.proceed_ok, native, code, Native.call]
    exact Answers.eval_enterNative_ok f room fun frame =>
      Builtin.call_answers (m := m.push frame) code constructor _ _ arguments

/-- The global was the constructor of objects, and is something else after the run. -/
def objectReassigned (h : Heap) : Option Value → Outcome Unit (Except Fault Value) → Bool
  | some (.object c), .finished _ m' =>
    (match (h.get c).callable? with
      | some (.native f) => f.code = .builtin .object
      | _ => false) && (m'.getGlobal? "Object").bind Value.asObject? ≠ some c
  | _, _ => false

/-- After `Object = true`, the constructor of objects ignores what it is given. -/
theorem construct_agrees_call_reassigned :
    let engine : Engine Unit := {}
    let m := engine.start {} ()
    let assignment : Operation Value :=
      .expression (.assign .plain (.identifier "Object") (.literal (.boolean true) {}) {}) none
    ∃ c r m', m.getGlobal? "Object" = some (.object c) ∧
      engine.run 0 (assignment.evaluate engine) m = .finished r m' ∧
      engine.run 1 (construct (.object c) [.string "a"] none) m' =
        engine.run 1 (call (.object c) .undefined []) m' := by
  intro engine m assignment
  have found : objectReassigned m.heap (m.getGlobal? "Object")
      (engine.run 0 (assignment.evaluate engine) m) = true := by
    decide +kernel
  unfold objectReassigned at found
  split at found
  · rename_i c r m' global run
    simp only [Bool.and_eq_true, decide_eq_true_eq] at found
    split at found
    · rename_i f native
      have code := of_decide_eq_true found.1
      have scripted : engine.Scripted m m' := .operate assignment .refl rfl trivial run
      have agrees := (construct_agrees_call rfl scripted native code
        (by simp only [Native.isConstructor, code]) 1 [.string "a"]).1
      rw [if_pos ⟨rfl, found.2⟩] at agrees
      exact ⟨c, r, m', global, run, agrees⟩
    · cases found.1
  · cases found

end ScriptEngine
