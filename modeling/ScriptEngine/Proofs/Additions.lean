import ScriptEngine.Proofs.Fixed

/-!
# Evaluations that only add objects

Functions and errors are made without a change to what was there before (`Machine.Adds`).
-/

namespace ScriptEngine

open Eval

variable {σ : Type}

structure Machine.Adds (m m' : Machine σ) : Prop where
  size : m.heap.objects.size ≤ m'.heap.objects.size
  objects : ∀ i, i < m.heap.objects.size → m'.heap.objects[i]? = m.heap.objects[i]?
  environments : m'.store.environments = m.store.environments
  generators : m'.generators = m.generators

namespace Machine.Adds

variable {m m₁ m₂ : Machine σ}

theorem refl (m : Machine σ) : m.Adds m := ⟨Nat.le_refl _, fun _ _ => rfl, rfl, rfl⟩

theorem trans (h : m.Adds m₁) (h' : m₁.Adds m₂) : m.Adds m₂ where
  size := Nat.le_trans h.size h'.size
  objects i within := (h'.objects i (Nat.lt_of_lt_of_le within h.size)).trans (h.objects i within)
  environments := h'.environments.trans h.environments
  generators := h'.generators.trans h.generators

theorem allocate (h : m.Adds m₁) (object : Object) :
    m.Adds ((Effect.allocate object).apply m₁).2 := by
  refine h.trans ⟨(m₁.heap.extends_allocate object).size, fun i within => ?_, rfl, rfl⟩
  exact Array.getElem?_push_lt within |>.trans (Array.getElem?_eq_getElem within).symm

theorem define (h : m.Adds m₁) {o : ObjectId} (new : m.heap.objects.size ≤ o.index) (key : String)
    (property : Property) : m.Adds ((Effect.define o key property).apply m₁).2 := by
  have size : ((Effect.define o key property).apply m₁).2.heap.objects.size =
      m₁.heap.objects.size := (m₁.heap.alike_define o key property).size
  refine ⟨size ▸ h.size, fun i within => ?_, h.environments, h.generators⟩
  have other : o.index ≠ i := by omega
  rw [← h.objects i within]
  exact (Array.getElem?_modify ..).trans (if_neg other)

end Machine.Adds

def Machine.Raised (kind : ErrorClass) (message : String) (v : Value) (m : Machine σ) : Prop :=
  ∃ o, v = .object o ∧ (m.heap.get o).prototype = some (m.realm.errorPrototype kind) ∧
    m.heap.getOwn? o "message" = some (.hidden (.string message))

namespace Eval

variable {α β : Type} {A : Answers σ} {m₀ : Machine σ}

def Additive (A : Answers σ) (m₀ : Machine σ) (Q : α → Prop) (x : Eval σ α) : Prop :=
  ∀ m, m₀.Adds m → ∃ a m', A.eval x m = .finished (.ok a) m' ∧ m₀.Adds m' ∧ Q a

theorem additive_pure {a : α} {Q : α → Prop} (h : Q a) : Additive A m₀ Q (pure a) :=
  fun m adds => ⟨a, m, rfl, adds, h⟩

theorem Additive.bind {x : Eval σ α} {f : α → Eval σ β} {Q : α → Prop} {R : β → Prop}
    (hx : Additive A m₀ Q x) (hf : ∀ a, Q a → Additive A m₀ R (f a)) :
    Additive A m₀ R (x >>= f) := by
  intro m adds
  obtain ⟨a, m₁, first, adds₁, found⟩ := hx m adds
  obtain ⟨b, m₂, second, adds₂, found'⟩ := hf a found m₁ adds₁
  exact ⟨b, m₂, by rw [eval_bind, first, proceed_ok, second], adds₂, found'⟩

theorem additive_ask (view : Machine σ → α) : Additive A m₀ (fun _ => True) (ask view) :=
  fun m adds => ⟨view m, m, rfl, adds, trivial⟩

theorem additive_allocate (object : Object) :
    Additive A m₀ (fun o => m₀.heap.objects.size ≤ o.index) (perform (.allocate object)) :=
  fun _ adds => ⟨_, _, rfl, adds.allocate object, adds.size⟩

theorem additive_define {o : ObjectId} (new : m₀.heap.objects.size ≤ o.index) (key : String)
    (property : Property) :
    Additive A m₀ (fun _ => True) (perform (.define o key property)) :=
  fun _ adds => ⟨_, _, rfl, adds.define new key property, trivial⟩

theorem createFunction_additive (node : FunctionNode) (environment : EnvironmentId)
    (use : FunctionUse) :
    Additive A m₀ (fun _ => True) (createFunction node environment use) := by
  unfold createFunction
  refine (additive_ask _).bind fun strict _ => (additive_ask _).bind fun realm _ =>
    (additive_allocate _).bind fun function new => ?_
  have finish (object : Object) : Additive A m₀ (fun _ => True) (do
      let prototype ← perform (.allocate object)
      perform (.define function "prototype" ⟨.object prototype, true, false, false⟩)
      pure function) :=
    (additive_allocate _).bind fun _ _ => (additive_define new _ _).bind fun _ _ =>
      additive_pure trivial
  dsimp only
  split
  · exact finish _
  · split
    · exact finish _
    · exact additive_pure trivial

theorem createError_additive (kind : ErrorClass) (message : String) :
    Additive A m₀ (fun _ => True) (createError kind message) := by
  have error (prototype : ObjectId) : Additive A m₀ (fun _ => True)
      (newError prototype (some message) 0) :=
    (additive_allocate _).bind fun _ new => (additive_ask _).bind fun _ _ =>
      (additive_define new _ _).bind fun _ _ => additive_pure trivial
  exact (additive_ask _).bind fun prototype _ => (error prototype).bind fun _ _ =>
    additive_pure trivial

theorem createError_raises (kind : ErrorClass) (message : String) (m : Machine σ) :
    ∃ v m', A.eval (createError kind message) m = .finished (.ok v) m' ∧ m.Adds m' ∧
      m'.realm = m.realm ∧ m'.stack = m.stack ∧ m'.Raised kind message v := by
  obtain ⟨v, m', run, adds, -⟩ := createError_additive (A := A) kind message m (.refl m)
  refine ⟨v, m', run, adds, ?_⟩
  simp only [createError, newError, eval_bind, eval_ask, eval_perform,
    proceed_ok, eval_pure] at run
  cases run
  have get (object : Object) (property : Property) :
      ((m.heap.allocate object).2.define ⟨m.heap.objects.size⟩ "stack" property).get
        ⟨m.heap.objects.size⟩ = object.define "stack" property := by
    rw [Heap.define, Heap.get_modify, if_pos ⟨rfl, by simp [Heap.allocate]⟩, Heap.get_allocate,
      if_pos rfl]
  refine ⟨rfl, rfl, _, rfl, ?_, ?_⟩
  · exact congrArg Object.prototype (get _ _)
  · exact congrArg (fun object => object.properties.find? "message") (get _ _)

theorem faultValue_additive (fault : Fault) :
    Additive A m₀ (fun _ => True) (faultValue fault) := by
  unfold faultValue
  split
  · exact additive_pure trivial
  · exact createError_additive _ _
  · exact createError_additive _ _
  · exact createError_additive _ _
  · exact createError_additive _ _
  · exact (additive_ask _).bind fun _ _ => createError_additive _ _

end Eval

end ScriptEngine
