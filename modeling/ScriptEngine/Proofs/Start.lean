import ScriptEngine.Proofs.Fixed
import ScriptEngine.Proofs.Operation

/-!
# What an engine starts with

Each object is ordinary or a native function that can be called: one of the builtins, or one of the
functions of the host (`Engine.start_given`). The only scope is the global one, without bindings.
-/

namespace ScriptEngine

variable {σ α β : Type}

inductive ObjectKind.Given (hosts : Nat) : ObjectKind → Prop where
  | ordinary : Given hosts .ordinary
  | native {f : Native} (h : ∀ index, f.code = .host index → index < hosts) :
      Given hosts (.function (.native f))

def Heap.Given (hosts : Nat) (h : Heap) : Prop := ∀ o, (h.get o).kind.Given hosts

def Setup.Makes (hosts : Nat) (x : Setup α) : Prop :=
  ∀ h : Heap, h.Given hosts → (x h).2.Given hosts ∧ h.objects.size ≤ (x h).2.objects.size

namespace Setup

variable {hosts : Nat} {host : List (HostFunction σ)}

@[grind .]
theorem makes_pure (a : α) : Makes hosts (pure a : Setup α) :=
  fun _ given => ⟨given, Nat.le_refl _⟩

@[grind ←]
theorem makes_bind {x : Setup α} {f : α → Setup β} (hx : Makes hosts x)
    (hf : ∀ a, Makes hosts (f a)) : Makes hosts (x >>= f) := by
  intro h given
  obtain ⟨given₁, size₁⟩ := hx h given
  obtain ⟨given₂, size₂⟩ := hf (x h).1 (x h).2 given₁
  exact ⟨given₂, Nat.le_trans size₁ size₂⟩

theorem makes_allocate {object : Object} (h : object.kind.Given hosts) :
    Makes hosts (allocate object) := by
  intro heap given
  rw [show (allocate object heap).2 = (heap.allocate object).2 from rfl]
  refine ⟨fun o => ?_, (heap.extends_allocate object).size⟩
  rw [Heap.get_allocate]
  split
  · exact h
  · exact given o

@[grind .]
theorem makes_define (o : ObjectId) (key : String) (property : Property) :
    Makes hosts (define o key property) := by
  intro heap given
  have alike := heap.alike_define o key property
  rw [show (define o key property heap).2 = heap.define o key property from rfl]
  exact ⟨fun o' => alike.kind o' ▸ given o', Nat.le_of_eq alike.size.symm⟩

theorem makes_native (prototype : ObjectId) {f : Native}
    (h : ∀ index, f.code = .host index → index < hosts) : Makes hosts (native prototype f) :=
  makes_allocate (.native h)

@[grind .]
theorem makes_builtin (prototype : ObjectId) (name : String) (arity : Nat) (builtin : Builtin) :
    Makes hosts (native prototype { name, arity, code := .builtin builtin }) :=
  makes_native prototype nofun

theorem makes_method (functionPrototype o : ObjectId) (name : String) (arity : Nat)
    {code : NativeCode} (h : ∀ index, code = .host index → index < hosts) :
    Makes hosts (method functionPrototype o name arity code) :=
  makes_bind (makes_native functionPrototype h) fun _ => makes_define _ _ _

@[grind .]
theorem makes_builtinMethod (functionPrototype o : ObjectId) (name : String) (arity : Nat)
    (builtin : Builtin) :
    Makes hosts (method functionPrototype o name arity (.builtin builtin)) :=
  makes_method _ _ _ _ nofun

@[grind .]
theorem makes_publish (global constructor prototype : ObjectId) (name : String) :
    Makes hosts (publish global constructor prototype name) := by
  unfold publish
  grind

theorem makes_errorClass (realm : Realm) (parent : ObjectId) (kind : ErrorClass) :
    Makes hosts (errorClass realm parent kind) := by
  unfold errorClass
  grind

theorem makes_forIn {f : β → PUnit → Setup (ForInStep PUnit)}
    (h : ∀ b u, Makes hosts (f b u)) (l : List β) (u : PUnit) : Makes hosts (forIn l u f) := by
  induction l generalizing u with
  | nil => exact makes_pure _
  | cons b rest ih =>
    rw [List.forIn_cons]
    refine makes_bind (h b u) fun step => ?_
    cases step with
    | done u => exact makes_pure _
    | yield u => exact ih u

theorem makes_errors (realm : Realm) : Makes hosts (errors realm) := by
  refine makes_bind (makes_errorClass realm _ _) fun general =>
    makes_bind (makes_forIn (fun kind _ => ?_) _ _) fun _ => makes_builtinMethod _ _ _ _ _
  grind [makes_errorClass]

theorem makes_hostFunctions (realm : Realm) (index : Nat) (host : List (HostFunction σ))
    (within : index + host.length ≤ hosts) : Makes hosts (hostFunctions realm index host) := by
  induction host generalizing index with
  | nil => exact makes_pure ()
  | cons f rest ih =>
    rw [List.length_cons] at within
    refine makes_bind (makes_method _ _ _ _ fun i code => ?_) fun _ => ih (index + 1) (by omega)
    cases code
    omega

theorem makes_realm : Makes hosts realm := by
  have plain (prototype : Option ObjectId) : Makes hosts (allocate { prototype }) :=
    makes_allocate .ordinary
  unfold realm
  repeat refine makes_bind (plain _) fun _ => ?_
  exact makes_pure _

theorem makes_rest (within : host.length ≤ hosts) (realm : Realm) :
    Makes hosts (do
      objects realm
      functions realm
      generators realm
      errors realm
      globals realm
      hostFunctions realm 0 host
      pure realm) := by
  have objects : Makes hosts (objects realm) := by
    unfold Setup.objects
    grind
  have functions : Makes hosts (functions realm) := by
    unfold Setup.functions
    grind
  have generators : Makes hosts (generators realm) := by
    unfold Setup.generators
    grind
  have globals : Makes hosts (globals realm) := by
    unfold Setup.globals
    grind
  have registered : Makes hosts (hostFunctions realm 0 host) :=
    makes_hostFunctions realm 0 host (by omega)
  grind [makes_errors]

theorem makes_all (within : host.length ≤ hosts) : Makes hosts (all host) :=
  makes_bind makes_realm fun realm => makes_rest within realm

theorem all_global {h : Heap} (given : h.Given host.length) :
    (all host h).1.global.index < (all host h).2.objects.size := by
  have made : (realm h).1.global.index < (realm h).2.objects.size := by
    simp only [realm, bind_apply, pure_apply, allocate, Heap.allocate, Array.size_push,
      Nat.lt_add_one]
  have same : (all host h).1 = (realm h).1 := by
    simp only [all, bind_apply, pure_apply]
  have grown : (realm h).2.objects.size ≤ (all host h).2.objects.size := by
    unfold all
    rw [bind_apply]
    exact (makes_rest (Nat.le_refl _) _ _ (makes_realm h given).1).2
  rw [same]
  exact Nat.lt_of_lt_of_le made grown

end Setup

namespace Engine

variable (engine : Engine σ) (options : Options) (host : σ)

theorem given_nothing (hosts : Nat) : ({ objects := #[] } : Heap).Given hosts := fun _ => .ordinary

theorem start_given : (engine.start options host).heap.Given engine.host.length := by
  have given := (Setup.makes_all (Nat.le_refl engine.host.length) _ (given_nothing _)).1
  unfold Engine.start
  generalize Setup.all engine.host { objects := #[] } = setup at given
  exact given

theorem start_globalEnvironment : (engine.start options host).realm.globalEnvironment = ⟨0⟩ := by
  have global := Setup.all_globalEnvironment engine.host { objects := #[] }
  unfold Engine.start
  generalize Setup.all engine.host { objects := #[] } = setup at global
  exact global

theorem start_environments : (engine.start options host).store.environments =
    #[{ record := .global { object := (engine.start options host).realm.global } }] := by
  unfold Engine.start
  generalize Setup.all engine.host { objects := #[] } = setup
  rfl

theorem start_global : (engine.start options host).realm.global.index <
    (engine.start options host).heap.objects.size := by
  have within := Setup.all_global (given_nothing engine.host.length)
  unfold Engine.start
  generalize Setup.all engine.host { objects := #[] } = setup at within
  exact within

end Engine

end ScriptEngine
