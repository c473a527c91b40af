import ScriptEngine.Proofs.Composed.Call
import ScriptEngine.Proofs.Generator.Invariant

/-!
# Evaluations that leave running generators alone

An evaluation is `Ordinary` if it keeps the machine orderly, leaves every generator that is running
as it is, and does not suspend.
-/

namespace ScriptEngine

variable {σ α β : Type} {m : Machine σ}

def Moment.Orderly : Moment σ → Prop
  | .look m | .round _ m => m.Orderly
  | .change before after => before.Moves after

structure Machine.Steady (m m' : Machine σ) : Prop where
  stack : m'.stack = m.stack
  executing : ∀ g generator, m.generator? g = some generator →
    generator.state = .executing → m'.generator? g = some generator
  completed : ∀ g generator, m.generator? g = some generator →
    generator.state = .completed → m'.generator? g = some generator

namespace Machine.Steady

variable {m₁ m' : Machine σ}

theorem of_eq (stack : m'.stack = m.stack) (generators : m'.generators = m.generators) :
    m.Steady m' :=
  ⟨stack, fun g generator hg _ => by simpa only [generator?, generators] using hg,
    fun g generator hg _ => by simpa only [generator?, generators] using hg⟩

theorem trans (h₁ : m.Steady m₁) (h₂ : m₁.Steady m') : m.Steady m' :=
  ⟨h₂.stack.trans h₁.stack,
    fun g generator hg executing =>
      h₂.executing g generator (h₁.executing g generator hg executing) executing,
    fun g generator hg completed =>
      h₂.completed g generator (h₁.completed g generator hg completed) completed⟩

theorem links (h : m.Steady m') : m'.links = m.links := by simp only [Machine.links, h.stack]

theorem runningGenerator? (h : m.Steady m') : m'.runningGenerator? = m.runningGenerator? := by
  simp only [Machine.runningGenerator?, h.stack]

theorem leaveScope {lexical varScope : EnvironmentId}
    (h : (m.setScope lexical varScope).Steady m') :
    m.Steady (m'.setScope m.lexical m.varScope) := by
  refine ⟨?_, h.executing, h.completed⟩
  change m'.stack.setScope m.lexical m.varScope = m.stack
  rw [h.stack]
  exact m.setScope_restores lexical varScope

end Machine.Steady

def Machine.Settles (m : Machine σ) (r : Except Fault α) (m' : Machine σ) : Prop :=
  m'.Orderly ∧ m.Steady m' ∧ Unsuspended r

def Promises.Orderly (P : Promises σ) : Prop :=
  ∀ invocation m, m.Orderly → P.invoke invocation m m.Settles

theorem Effect.Plain.generators {effect : Effect σ β} (h : effect.Plain) (m : Machine σ) :
    (effect.apply m).2.generators = m.generators := by
  cases effect with
  | createGenerator | startRun | suspend | complete | takeResumePoint | pushResumePoint
  | takeResumption | checkLimits | resetLimits => exact h.elim
  | _ => rfl

theorem Machine.Orderly.setScope (h : m.Orderly) (lexical varScope : EnvironmentId) :
    (m.setScope lexical varScope).Orderly :=
  h.congr rfl (m.links_setScope lexical varScope)

theorem Machine.Orderly.effect (h : m.Orderly) {effect : Effect σ β}
    (generators : (effect.apply m).2.generators = m.generators) : (effect.apply m).2.Orderly :=
  h.congr generators (by simp only [links, effect.apply_stack])

theorem Action.Plain.safe {P : Promises σ} [P.Lawful]
    (calls : P.Orderly) {x : Action σ α} {received : Option Fault} {ok : α → Option Fault → Prop}
    (plain : x.Plain received ok) (unsuspended : ∀ v, received ≠ some (.suspended v))
    (h : m.Orderly) :
    x.Safe Moment.Orderly P m fun a m' =>
      m'.Orderly ∧ m.Steady m' ∧ ∃ received, (∀ v, received ≠ some (.suspended v)) ∧
        ok a received := by
  induction x generalizing m received with
  | pure a => exact ⟨h, .of_eq rfl rfl, received, unsuspended, plain⟩
  | read view next ih => exact ⟨h, ih _ (plain.2 m) nofun h⟩
  | perform effect next ih =>
    have generators := plain.2.1.generators m
    refine ⟨.of_eq generators,
      (ih _ (plain.2.2 m) nofun (h.effect generators)).mono fun a m' post => ?_⟩
    exact ⟨post.1, (Machine.Steady.of_eq (effect.apply_stack m) generators).trans post.2.1,
      post.2.2⟩
  | inScope lexical varScope body next ihBody ih =>
    refine (ihBody plain unsuspended (h.setScope _ _)).mono fun b m₁ post => ?_
    obtain ⟨h₁, steady, received₁, unsuspended₁, rest⟩ := post
    refine (ih b rest unsuspended₁ (h₁.setScope _ _)).mono fun a m' post => ?_
    exact ⟨post.1, steady.leaveScope.trans post.2.1, post.2.2⟩
  | inFrame frame body next _ _ => exact plain.elim
  | invoke invocation next ih =>
    obtain ⟨A, faithful⟩ := ‹P.Lawful›.faithful
    have answer := faithful.invoke.1 (calls invocation m h)
    refine ⟨h, faithful.invoke.2 ⟨answer.1, fun r m₁ run => ?_⟩⟩
    obtain ⟨h₁, steady, unsuspended₁⟩ := answer.2 r m₁ run
    have fault : ∀ v, Except.fault? r ≠ some (.suspended v) := by
      cases r with
      | ok v => nofun
      | error fault => simpa [Except.fault?] using unsuspended_error.1 unsuspended₁
    refine (ih r (plain.2 r) fault h₁).mono fun a m' post => ?_
    exact ⟨post.1, steady.trans post.2.1, post.2.2⟩
  | loop l next ih => exact plain.elim

namespace Eval

def Ordinary (P : Promises σ) (x : Eval σ α) : Prop :=
  ∀ m, m.Orderly → x.Safe Moment.Orderly P m m.Settles

variable {P : Promises σ} {x : Eval σ α} {f : α → Eval σ β}

theorem Plain.ordinary [P.Lawful] (calls : P.Orderly) (plain : Plain x) :
    Ordinary P x := by
  intro m h
  refine (Action.Plain.safe calls plain nofun h).mono fun r m' post => ?_
  obtain ⟨h', steady, received, unsuspended, passes⟩ := post
  refine ⟨h', steady, ?_⟩
  cases received with
  | none => exact passes
  | some fault =>
    cases passes
    exact unsuspended_error.2 (by simpa using unsuspended)

theorem Ordinary.after [P.Lawful] (hx : Ordinary P x) {m m₁ : Machine σ}
    (h₁ : m₁.Orderly) (steady : m.Steady m₁) : x.Safe Moment.Orderly P m₁ m.Settles :=
  (hx m₁ h₁).mono fun _ _ post => ⟨post.1, steady.trans post.2.1, post.2.2⟩

theorem Ordinary.ask {view : Machine σ → α} (h : ∀ m, Ordinary P (f (view m))) :
    Ordinary P (Eval.ask view >>= f) :=
  fun m orderly => ⟨orderly, h m m orderly⟩

theorem ordinary_bind [P.Lawful] (hx : Ordinary P x) (hf : ∀ a, Ordinary P (f a)) :
    Ordinary P (x >>= f) := by
  intro m h
  rw [safe_bind]
  refine (hx m h).mono fun r m₁ post => ?_
  obtain ⟨h₁, steady, unsuspended⟩ := post
  cases r with
  | ok a => exact (hf a).after h₁ steady
  | error fault => exact ⟨h₁, steady, unsuspended_error.2 (unsuspended_error.1 unsuspended)⟩

def Detached (P : Promises σ) (x : Eval σ α) : Prop :=
  ∀ m, m.Orderly → m.runningGenerator? = none → x.Safe Moment.Orderly P m m.Settles

theorem Ordinary.detached (h : Ordinary P x) : Detached P x := fun m hm _ => h m hm

theorem Detached.after [P.Lawful] (hx : Detached P x) {m m₁ : Machine σ}
    (h₁ : m₁.Orderly) (steady : m.Steady m₁) (free : m.runningGenerator? = none) :
    x.Safe Moment.Orderly P m₁ m.Settles :=
  (hx m₁ h₁ (steady.runningGenerator?.trans free)).mono fun _ _ post =>
    ⟨post.1, steady.trans post.2.1, post.2.2⟩

theorem detached_bind [P.Lawful] (hx : Detached P x) (hf : ∀ a, Detached P (f a)) :
    Detached P (x >>= f) := by
  intro m h free
  rw [safe_bind]
  refine (hx m h free).mono fun r m₁ post => ?_
  obtain ⟨h₁, steady, unsuspended⟩ := post
  cases r with
  | ok a => exact (hf a).after h₁ steady free
  | error fault => exact ⟨h₁, steady, unsuspended_error.2 (unsuspended_error.1 unsuspended)⟩

theorem detached_outcome [P.Lawful] {f : Except Fault α → Eval σ β}
    (hx : Detached P x) (hf : ∀ r, Unsuspended r → Detached P (f r)) :
    Detached P (outcome x >>= f) := by
  intro m h free
  rw [safe_bind, safe_outcome]
  refine (hx m h free).mono fun r m₁ post => ?_
  exact (hf r post.2.2).after post.1 post.2.1 free

theorem ordinary_inFrame [P.Lawful] (hx : Detached P x) {frame : Frame}
    (free : frame.generator = none) : Ordinary P (inFrame frame x) := by
  intro m h
  have running : (m.push frame).runningGenerator? = none := free
  refine (hx _ (h.push free) running).mono fun r m₁ post => ?_
  obtain ⟨h₁, steady, unsuspended⟩ := post
  have frames : m₁.links = none :: m.links := by rw [steady.links, m.links_push, free]
  refine ⟨h₁.pop frames h.root, ⟨?_, steady.executing, steady.completed⟩, unsuspended⟩
  change m₁.stack.pop = m.stack
  rw [steady.stack]
  exact CallStack.pop_push m.stack frame

end Eval

end ScriptEngine
