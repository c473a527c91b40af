import ScriptEngine.Proofs.Generator.Drives

/-!
# Generators as state machines

At every moment of every run the state of each generator agrees with its other parts, and it changes
only along `GeneratorState.Step` (`generators_sound`).
-/

namespace ScriptEngine

open Eval

variable {σ α : Type}

section

variable {P : Promises σ} {A : Answers σ}

theorem ordinary_perform {effect : Effect σ α}
    (generators : ∀ m, (effect.apply m).2.generators = m.generators) :
    Ordinary P (perform effect) :=
  fun m h => ⟨.of_eq (generators m), h.effect (generators m),
    .of_eq (effect.apply_stack m) (generators m), unsuspended_ok _⟩

variable [P.Lawful] (kept : P.Kept A) (engine : Engine σ)

include kept

theorem ordinary_bindFunction (target thisArgument : Value) (arguments : List Value) :
    Ordinary P (bindFunction target thisArgument arguments : Eval σ Value) := by
  have refused : Ordinary P (typeError .bindReceiver : Eval σ Value) :=
    (plain_typeError _).keeps kept
  cases target with
  | object o =>
    refine Ordinary.ask fun m => ?_
    by_cases callable : m.heap.isCallable (.object o)
    · simp only [callable]
      exact ordinary_bind (ordinary_perform fun _ => rfl) fun bound =>
        (plain_pure _).keeps kept
    · simp only [callable]
      exact refused
  | _ => exact refused

theorem ordinary_builtin (shortcuts : Bool) (builtin : Builtin) (this : Value)
    (arguments : List Value) : Ordinary P (builtin.call shortcuts this arguments) := by
  cases builtin with
  | functionBind => exact ordinary_bindFunction kept this _ _
  | generatorNext | generatorReturn | generatorThrow =>
    exact ordinary_drive kept shortcuts this _ none
  | _ => exact Plain.keeps kept (Simple.plain (simple_builtinCall _ _ _ nofun nofun nofun nofun))

theorem ordinary_callObject
    (natives : ∀ (f : Native) this arguments, Ordinary P (f.call engine this arguments))
    (o : ObjectId) (this : Value) (arguments : List Value) :
    Ordinary P (callObject engine o this arguments) := by
  refine Ordinary.ask fun m => ?_
  split
  · exact (plain_typeError _).keeps kept
  · split
    · exact (plain_typeError _).keeps kept
    · exact ordinary_callClosure kept engine.shortcuts o _ this arguments
  · exact ordinary_startGenerator kept o _ this arguments
  · exact natives _ this arguments
  · exact (plain_call _ _ _).keeps kept

theorem ordinary_constructObject (o : ObjectId) (arguments : List Value) (newTarget : ObjectId) :
    Ordinary P (constructObject engine o arguments newTarget) := by
  have refused : Ordinary P (do
      let text ← ask fun m => m.heap.toText (.object o)
      typeError (.notConstructor text) : Eval σ Value) := Plain.keeps kept (by grind)
  refine Ordinary.ask fun m => ?_
  split
  · split
    · exact ordinary_constructClosure kept engine.shortcuts o _ arguments newTarget
    · exact refused
  · split
    · split
      · rename_i x construct
        exact ordinary_enterNative kept ((simple_builtinConstruct construct).plain.keeps kept).detached
      · exact refused
    · exact refused
  · exact (plain_construct _ _ _).keeps kept
  · exact refused

theorem ordinary_invocation
    (natives : ∀ (f : Native) this arguments, Ordinary P (f.call engine this arguments))
    (invocation : Invocation) : Ordinary P (invocation.eval engine) := by
  cases invocation with
  | call callee this arguments =>
    cases callee with
    | object o => exact ordinary_callObject kept engine natives o this arguments
    | _ =>
      refine Plain.keeps kept ?_
      unfold Invocation.eval
      grind
  | construct callee arguments newTarget =>
    cases callee with
    | object o => exact ordinary_constructObject kept engine o arguments _
    | _ =>
      refine Plain.keeps kept ?_
      unfold Invocation.eval
      grind

theorem detached_operation (operation : Operation α) : Detached P (operation.evaluate engine) := by
  cases operation with
  | statement s labels =>
    exact Resumes.detached fun strict =>
      Stmt.resumes kept strict engine.shortcuts s labels
  | expression e hint => exact ((Expr.plain e hint).keeps kept).detached
  | call callee this arguments => exact ((plain_call _ _ _).keeps kept).detached
  | construct callee arguments newTarget => exact ((plain_construct _ _ _).keeps kept).detached
  | drive receiver resumption brand =>
    exact (ordinary_drive kept engine.shortcuts receiver resumption brand).detached
  | run program => exact (program.ordinary_run kept engine.shortcuts).detached
  | eval program => exact (program.ordinary_eval kept engine.shortcuts).detached

end

inductive Engine.HostCode (engine : Engine σ) : {α : Type} → Action σ α → Prop where
  | pure {α : Type} (a : α) : engine.HostCode (.pure a)
  | read {α β : Type} (view : Machine σ → β) {next : β → Action σ α}
      (rest : ∀ b, engine.HostCode (next b)) : engine.HostCode (.read view next)
  | perform {α β : Type} (effect : Effect σ β) {next : β → Action σ α}
      (generators : ∀ m, (effect.apply m).2.generators = m.generators)
      (rest : ∀ b, engine.HostCode (next b)) : engine.HostCode (.perform effect next)
  | operate {α β : Type} (operation : Operation β) {next : Except Fault β → Action σ α}
      (rest : ∀ r, engine.HostCode (next r)) :
      engine.HostCode ((operation.evaluate engine).run.bind next)

/-- The functions of the host are code of the host, and do not suspend the generator that calls
them. -/
structure Engine.Fair (engine : Engine σ) : Prop where
  code : ∀ f ∈ engine.host, ∀ this arguments, engine.HostCode (f.run this arguments).run
  unsuspended : ∀ f ∈ engine.host, ∀ this arguments fuel m r m',
    engine.run fuel (f.run this arguments) m = .finished r m' → Unsuspended r

theorem Engine.HostCode.safe {P : Promises σ} [P.Lawful] {A : Answers σ} (kept : P.Kept A)
    {engine : Engine σ} {x : Action σ α} (code : engine.HostCode x) {m : Machine σ}
    (h : m.Orderly) (free : m.runningGenerator? = none) :
    x.Safe Moment.Orderly P m fun _ m' => m'.Orderly ∧ m.Steady m' := by
  induction code generalizing m with
  | pure a => exact ⟨h, .of_eq rfl rfl⟩
  | read view rest ih => exact ⟨h, ih _ h free⟩
  | perform effect generators rest ih =>
    have steady : m.Steady (effect.apply m).2 := .of_eq (effect.apply_stack m) (generators m)
    refine ⟨.of_eq (generators m), (ih _ (h.effect (generators m))
      (steady.runningGenerator?.trans free)).mono fun a m' post => ?_⟩
    exact ⟨post.1, steady.trans post.2⟩
  | operate operation rest ih =>
    rw [Action.safe_bind]
    refine (detached_operation kept engine operation m h free).mono
      fun r m₁ ⟨h₁, steady, _⟩ => ?_
    refine (ih r h₁ (steady.runningGenerator?.trans free)).mono fun a m' post => ?_
    exact ⟨post.1, steady.trans post.2⟩

namespace Engine

variable {engine : Engine σ} (fair : engine.Fair)

include fair

theorem ordinary_native {fuel : Nat}
    (kept : (engine.promises Moment.Orderly fuel).Kept (engine.answers fuel)) (native : Native)
    (this : Value) (arguments : List Value) :
    Ordinary (engine.promises Moment.Orderly fuel) (native.call engine this arguments) := by
  refine ordinary_enterNative kept ?_
  split
  · exact (ordinary_builtin kept engine.shortcuts _ this arguments).detached
  · split
    · rename_i f found
      have host := List.mem_of_getElem? found
      intro m h free
      refine (((fair.code f host this arguments).safe kept h free).and kept.faithful
        fun r m' run => fair.unsuspended f host this arguments fuel m r m' run).mono
          fun r m' post => ?_
      exact ⟨post.1.1, post.1.2, post.2⟩
    · have refused : Plain (throw (.internal .unknownHostFunction) : Eval σ Value) :=
        plain_throw fun _ => nofun
      exact (refused.keeps kept).detached

theorem promises_kept (fuel : Nat) :
    (engine.promises Moment.Orderly fuel).Kept (engine.answers fuel) := by
  induction fuel with
  | zero => exact ⟨engine.promises_faithful 0, fun _ _ _ => trivial, fun _ _ _ _ _ _ => trivial⟩
  | succ fuel ih =>
    refine ⟨engine.promises_faithful (fuel + 1), ?_, ?_⟩
    · exact ordinary_invocation ih engine (ordinary_native fair ih)
    · intro strict l m h hs entered
      refine ⟨h, ((Loop.round_resumes ih strict engine.shortcuts l m h hs entered).and ih.faithful
        (R := fun r _ => ∀ l', r = .ok (.again l') →
          ∃ value environment, l' = l.entered false value environment)
        fun r m' run l' again => Loop.round_again engine.shortcuts (again ▸ run)).mono
          fun r m₁ post => ?_⟩
      obtain ⟨⟨h₁, advances, left⟩, same⟩ := post
      rcases r with fault | step
      · exact ⟨h₁, advances, left⟩
      · cases step with
        | done completion => exact ⟨h₁, advances, left⟩
        | again l' =>
          obtain ⟨value, environment, rfl⟩ := same l' rfl
          have leaves := l.entered_leaves false strict value environment
          have next := (ih.loops strict (l.entered false value environment)).after h₁ advances hs (.inl left)
          rwa [leaves] at next

/-! ## Every run -/

omit fair in
theorem start_orderly (engine : Engine σ) (options : Options) (host : σ) :
    (engine.start options host).Orderly ∧ (engine.start options host).links = [none] := by
  have links : (engine.start options host).links = [none] := by
    simp only [Machine.links, start_stack, List.map_cons, List.map_nil]
  refine ⟨⟨fun g generator hg => ?_, fun g linked => ?_, by rw [links]; rfl⟩, links⟩
  · simp [Machine.generator?, start_generators] at hg
  · simp [links] at linked

theorem reachable_orderly {change : Machine σ → Machine σ → Prop}
    (leaves : ∀ m m', change m m' → m'.generators = m.generators ∧ m'.stack = m.stack)
    {m : Machine σ} (h : engine.Reachable change m) : m.Orderly ∧ m.links = [none] := by
  induction h with
  | start options host => exact start_orderly engine options host
  | @operate _ m m' operation fuel r _ run ih =>
    have free : m.runningGenerator? = none := by rw [m.runningGenerator?_eq, ih.2]; rfl
    have settles := engine.safe_result run
      (detached_operation (promises_kept fair fuel) engine operation m ih.1 free)
    exact ⟨settles.1, settles.2.1.links.trans ih.2⟩
  | @change m m' _ changed ih =>
    obtain ⟨generators, stack⟩ := leaves m m' changed
    have links : m'.links = m.links := by simp only [Machine.links, stack]
    exact ⟨ih.1.congr generators links, links.trans ih.2⟩

end Engine

def Machine.Idle (m : Machine σ) : Prop :=
  ∀ g generator, m.generator? g = some generator → generator.state ≠ .executing

/-- The parts of each generator go together where the machine can be looked at, none is running when
only the outermost frame is there, and states change step by step. -/
def Moment.Sound : Moment σ → Prop
  | .look m | .round _ m => m.Sound ∧ (m.stack.depth = 1 → m.Idle)
  | .change before after => before.Moves after

theorem Moment.Orderly.sound {moment : Moment σ} (h : moment.Orderly) : moment.Sound := by
  cases moment with
  | look m | round l m =>
    have h : m.Orderly := h
    exact ⟨h.sound, fun alone _ _ hg => h.idle alone hg⟩
  | change before after => exact h

/-- Between operations and at each moment of an operation, the state of every generator says which
of its parts are there. It changes only in the steps of `GeneratorState.Step`, and a generator that
is completed stays as it is. -/
theorem generators_sound {engine : Engine σ} (fair : engine.Fair)
    {change : Machine σ → Machine σ → Prop}
    (leaves : ∀ m m', change m m' → m'.generators = m.generators ∧ m'.stack = m.stack)
    {m : Machine σ} (reachable : engine.Reachable change m) :
    m.Sound ∧ m.Idle ∧ ∀ {α : Type} (operation : Operation α),
      (∀ moment, engine.Meets (operation.evaluate engine).run m moment → moment.Sound) ∧
      ∀ fuel r m', engine.run fuel (operation.evaluate engine) m = .finished r m' →
        ∀ g generator, m.generator? g = some generator → generator.state = .completed →
          m'.generator? g = some generator := by
  obtain ⟨h, links⟩ := Engine.reachable_orderly fair leaves reachable
  have alone : m.stack.depth = 1 := by
    rw [CallStack.depth, ← List.length_map (f := Frame.generator)]
    exact congrArg List.length links
  have free : m.runningGenerator? = none := by rw [m.runningGenerator?_eq, links]; rfl
  have safe {α : Type} (operation : Operation α) (fuel : Nat) :=
    detached_operation (Engine.promises_kept fair fuel) engine operation m h free
  refine ⟨h.sound, fun _ _ hg => h.idle alone hg, fun operation => ⟨fun moment met => ?_, ?_⟩⟩
  · exact (met.holds engine fun fuel => ⟨_, safe operation fuel⟩).sound
  · intro fuel r m' run
    exact (engine.safe_result run (safe operation fuel)).2.1.completed

def Machine.withGenerator (body : List Stmt) : Machine Unit :=
  let node : FunctionNode :=
    { name := none, parameters := [], body := .block body, arrow := false, generator := true
      strict := false, span := {} }
  let closure : Closure :=
    { name := none, node, environment := ⟨0⟩, thisMode := .global, constructorKind := .base
      homeObject := none, isClass := false, constructable := false, isDefault := false
      strict := false }
  { Machine.bare with
    store := { Machine.bare.store with heap := ⟨#[{ kind := .function (.generator closure) }]⟩ } }

def Machine.Untouched (m m' : Machine Unit) : Prop :=
  m'.generators = m.generators ∧ m'.stack = m.stack

/-- A generator that was driven to its first `yield`, in an engine with a function of the host. -/
theorem generators_sound_suspended :
    let engine : Engine Unit :=
      { host := [{ name := "stop", arity := 1
                   run := fun _ arguments => do
                    perform .cancel
                    pure (arguments.headD .undefined) }] }
    ∃ m generator, engine.Reachable Machine.Untouched m ∧ m.generator? ⟨0⟩ = some generator ∧
      generator.state = .suspendedYield ∧ EndsInYield generator.resumePoints ∧ m.Idle := by
  intro engine
  have fair : engine.Fair := by
    constructor
    · intro f found
      rw [List.mem_singleton.1 found]
      exact fun _ _ => .perform _ (fun _ => rfl) fun _ => .pure _
    · intro f found this arguments fuel m r m' run
      rw [List.mem_singleton.1 found] at run
      cases run
      exact unsuspended_ok _
  have first : engine.Reachable Machine.Untouched
      (Machine.withGenerator [.expression (.yield none {}) {}]) := by
    refine .change (.start {} ()) ⟨?_, ?_⟩
    · rw [engine.start_generators]
      rfl
    · rw [engine.start_stack]
      rfl
  have runs : ((engine.run 1 (Operation.evaluate engine (.call (.object ⟨0⟩) .undefined []))
      (Machine.withGenerator [.expression (.yield none {}) {}])).andThen fun _ m =>
        engine.run 0 (Operation.evaluate engine
          (.drive (.object ⟨1⟩) (.next .undefined) none)) m).andThen
            (fun _ m => .finished ((m.generator? ⟨0⟩).map (·.state)) Machine.bare) =
      .finished (some .suspendedYield) Machine.bare := by
    cbv
  simp only [Outcome.andThen_eq_finished] at runs
  obtain ⟨_, m₂, ⟨_, m₁, call, drive⟩, found⟩ := runs
  have reachable := (first.operate _ call).operate _ drive
  obtain ⟨generator, hg, state⟩ := Option.map_eq_some_iff.1 (Outcome.finished.inj found).1
  obtain ⟨sound, idle, -⟩ := generators_sound fair (fun _ _ untouched => untouched) reachable
  have parts := sound ⟨0⟩ generator hg
  simp only [Generator.Sound, state] at parts
  exact ⟨m₂, generator, reachable, hg, state, parts.2.1, idle⟩

end ScriptEngine
