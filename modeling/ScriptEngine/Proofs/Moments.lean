import ScriptEngine.Proofs.Interpretation

/-!
# The moments of a run

What is claimed of a run is often claimed of all its moments and not only of its end, and of runs
that never end as well. `Engine.Meets` says which moments a run comes by.
-/

namespace ScriptEngine

variable {σ : Type}

inductive Moment (σ : Type) where
  | look (m : Machine σ)
  | change (before after : Machine σ)
  | round (l : Loop) (m : Machine σ)

inductive Engine.Meets (engine : Engine σ) :
    {α : Type} → Action σ α → Machine σ → Moment σ → Prop where
  | look {α β : Type} {view : Machine σ → β} {next : β → Action σ α} {m : Machine σ} :
      engine.Meets (.read view next) m (.look m)
  | read {α β : Type} {view : Machine σ → β} {next : β → Action σ α} {m : Machine σ}
      {moment : Moment σ} (h : engine.Meets (next (view m)) m moment) :
      engine.Meets (.read view next) m moment
  | change {α β : Type} {effect : Effect σ β} {next : β → Action σ α} {m : Machine σ} :
      engine.Meets (.perform effect next) m (.change m (effect.apply m).2)
  | perform {α β : Type} {effect : Effect σ β} {next : β → Action σ α} {m : Machine σ}
      {moment : Moment σ}
      (h : engine.Meets (next (effect.apply m).1) (effect.apply m).2 moment) :
      engine.Meets (.perform effect next) m moment
  | inScope {α β : Type} {lexical : EnvironmentId} {varScope : Option EnvironmentId}
      {body : Action σ β} {next : β → Action σ α} {m : Machine σ} {moment : Moment σ}
      (h : engine.Meets body (m.setScope lexical (varScope.getD m.varScope)) moment) :
      engine.Meets (.inScope lexical varScope body next) m moment
  | afterScope {α β : Type} {lexical : EnvironmentId} {varScope : Option EnvironmentId}
      {body : Action σ β} {next : β → Action σ α} {m m' : Machine σ} {b : β} {moment : Moment σ}
      (run : engine.total.run body (m.setScope lexical (varScope.getD m.varScope)) =
        .finished b m')
      (h : engine.Meets (next b) (m'.setScope m.lexical m.varScope) moment) :
      engine.Meets (.inScope lexical varScope body next) m moment
  | inFrame {α β : Type} {frame : Frame} {body : Action σ β} {next : β → Action σ α}
      {m : Machine σ} {moment : Moment σ} (h : engine.Meets body (m.push frame) moment) :
      engine.Meets (.inFrame frame body next) m moment
  | afterFrame {α β : Type} {frame : Frame} {body : Action σ β} {next : β → Action σ α}
      {m m' : Machine σ} {b : β} {moment : Moment σ}
      (run : engine.total.run body (m.push frame) = .finished b m')
      (h : engine.Meets (next b) m'.pop moment) :
      engine.Meets (.inFrame frame body next) m moment
  | call {α : Type} {invocation : Invocation} {next : Except Fault Value → Action σ α}
      {m : Machine σ} : engine.Meets (.invoke invocation next) m (.look m)
  | inCall {α : Type} {invocation : Invocation} {next : Except Fault Value → Action σ α}
      {m : Machine σ} {moment : Moment σ}
      (h : engine.Meets (invocation.eval engine).run m moment) :
      engine.Meets (.invoke invocation next) m moment
  | afterCall {α : Type} {invocation : Invocation} {next : Except Fault Value → Action σ α}
      {m m' : Machine σ} {r : Except Fault Value} {moment : Moment σ}
      (run : engine.total.invoke invocation m = .finished r m')
      (h : engine.Meets (next r) m' moment) : engine.Meets (.invoke invocation next) m moment
  | round {α : Type} {l : Loop} {next : Except Fault Completion → Action σ α} {m : Machine σ} :
      engine.Meets (.loop l next) m (.round l m)
  | inRound {α : Type} {l : Loop} {next : Except Fault Completion → Action σ α} {m : Machine σ}
      {moment : Moment σ} (h : engine.Meets (l.round engine.shortcuts).run m moment) :
      engine.Meets (.loop l next) m moment
  | again {α : Type} {l l' : Loop} {next : Except Fault Completion → Action σ α}
      {m m' : Machine σ} {moment : Moment σ}
      (run : engine.total.eval (l.round engine.shortcuts) m = .finished (.ok (.again l')) m')
      (h : engine.Meets (.loop l' next) m' moment) : engine.Meets (.loop l next) m moment
  | afterLoop {α : Type} {l : Loop} {next : Except Fault Completion → Action σ α}
      {m m' : Machine σ} {r : Except Fault Completion} {moment : Moment σ}
      (run : engine.total.loop l m = .finished r m') (h : engine.Meets (next r) m' moment) :
      engine.Meets (.loop l next) m moment

/-! ## Conditions for safe runs -/

variable {α β : Type}

structure Promises (σ : Type) where
  invoke : Invocation → Machine σ → (Except Fault Value → Machine σ → Prop) → Prop
  loop : Loop → Machine σ → (Except Fault Completion → Machine σ → Prop) → Prop

/-- The condition under which the moments of a run satisfy `J`, and its result, if it has one,
satisfies `Q`. -/
def Action.Safe (J : Moment σ → Prop) (P : Promises σ) :
    {α : Type} → Action σ α → Machine σ → (Q : α → Machine σ → Prop) → Prop
  | _, .pure a, m, Q => Q a m
  | _, .read view next, m, Q => J (.look m) ∧ Safe J P (next (view m)) m Q
  | _, .perform effect next, m, Q =>
    J (.change m (effect.apply m).2) ∧
      Safe J P (next (effect.apply m).1) (effect.apply m).2 Q
  | _, .inScope lexical varScope body next, m, Q =>
    Safe J P body (m.setScope lexical (varScope.getD m.varScope)) fun b m' =>
      Safe J P (next b) (m'.setScope m.lexical m.varScope) Q
  | _, .inFrame frame body next, m, Q =>
    Safe J P body (m.push frame) fun b m' => Safe J P (next b) m'.pop Q
  | _, .invoke invocation next, m, Q =>
    J (.look m) ∧ P.invoke invocation m fun r m' => Safe J P (next r) m' Q
  | _, .loop l next, m, Q => P.loop l m fun r m' => Safe J P (next r) m' Q

/-- What is asked of the result of a round, given what is asked of the result of the loop. -/
def Promises.afterRound (P : Promises σ) (Q : Except Fault Completion → Machine σ → Prop) :
    Except Fault Loop.Step → Machine σ → Prop
  | .ok (.done completion), m => Q (.ok completion) m
  | .ok (.again next), m => P.loop next m Q
  | .error fault, m => Q (.error fault) m

def Engine.promises (engine : Engine σ) (J : Moment σ → Prop) : Nat → Promises σ
  | 0 => ⟨fun _ _ _ => True, fun _ _ _ => True⟩
  | fuel + 1 =>
    { invoke := fun invocation m Q =>
        (invocation.eval engine).run.Safe J (promises engine J fuel) m Q
      loop := fun l m Q =>
        J (.round l m) ∧ (l.round engine.shortcuts).run.Safe J (promises engine J fuel) m
          ((promises engine J fuel).afterRound Q) }

structure Promises.Faithful (P : Promises σ) (A : Answers σ) : Prop where
  invoke : ∀ {invocation m Q}, P.invoke invocation m Q ↔
    P.invoke invocation m (fun _ _ => True) ∧
      ∀ r m', A.invoke invocation m = .finished r m' → Q r m'
  loop : ∀ {l m Q}, P.loop l m Q ↔
    P.loop l m (fun _ _ => True) ∧ ∀ r m', A.loop l m = .finished r m' → Q r m'

class Promises.Lawful (P : Promises σ) : Prop where
  faithful : ∃ A, P.Faithful A

structure Promises.Weaker (P P' : Promises σ) : Prop where
  invoke : ∀ {invocation m Q}, P'.invoke invocation m Q → P.invoke invocation m Q
  loop : ∀ {l m Q}, P'.loop l m Q → P.loop l m Q

namespace Action

variable {J : Moment σ → Prop} {P P' : Promises σ} {A : Answers σ} {x : Action σ α} {m : Machine σ}
  {Q : α → Machine σ → Prop}

theorem safe_bind {f : α → Action σ β} {Q : β → Machine σ → Prop} :
    (x.bind f).Safe J P m Q = x.Safe J P m fun a m' => (f a).Safe J P m' Q := by
  induction x generalizing m with
  | pure a => rfl
  | read view next ih | perform effect next ih | invoke invocation next ih | loop l next ih
  | inScope lexical varScope body next _ ih | inFrame frame body next _ ih =>
    simp only [Action.bind, Action.Safe, ih]

theorem safe_iff (faithful : P.Faithful A) :
    x.Safe J P m Q ↔ x.Safe J P m (fun _ _ => True) ∧
      ∀ a m', A.run x m = .finished a m' → Q a m' := by
  induction x generalizing m with
  | pure a => simp [Action.Safe]
  | read view next ih => simp only [Action.Safe, run_read, and_assoc, ← ih]
  | perform effect next ih => simp only [Action.Safe, run_perform, and_assoc, ← ih]
  | inScope lexical varScope body next ihBody ih =>
    simp only [Action.Safe, run_inScope, andThen_eq_finished]
    rw [ihBody, ihBody (Q := fun b m' => Action.Safe J P (next b) _ fun _ _ => True)]
    grind
  | inFrame frame body next ihBody ih =>
    simp only [Action.Safe, run_inFrame, andThen_eq_finished]
    rw [ihBody, ihBody (Q := fun b m' => Action.Safe J P (next b) _ fun _ _ => True)]
    grind
  | invoke invocation next ih =>
    simp only [Action.Safe, run_invoke, andThen_eq_finished]
    rw [faithful.invoke, faithful.invoke (Q := fun b m' => Action.Safe J P (next b) _ _)]
    grind
  | loop l next ih =>
    simp only [Action.Safe, run_loop, andThen_eq_finished]
    rw [faithful.loop, faithful.loop (Q := fun b m' => Action.Safe J P (next b) _ _)]
    grind

theorem Safe.mono [P.Lawful] {Q' : α → Machine σ → Prop} (h : x.Safe J P m Q)
    (weaker : ∀ a m, Q a m → Q' a m) : x.Safe J P m Q' := by
  obtain ⟨A, faithful⟩ := ‹P.Lawful›.faithful
  have h := (safe_iff faithful).1 h
  exact (safe_iff faithful).2 ⟨h.1, fun a m' run => weaker a m' (h.2 a m' run)⟩

theorem Safe.and (faithful : P.Faithful A) {R : α → Machine σ → Prop} (h : x.Safe J P m Q)
    (h' : ∀ a m', A.run x m = .finished a m' → R a m') : x.Safe J P m fun a m' => Q a m' ∧ R a m' :=
  have h := (safe_iff faithful).1 h
  (safe_iff faithful).2 ⟨h.1, fun a m' run => ⟨h.2 a m' run, h' a m' run⟩⟩

theorem Safe.carry [P'.Lawful] {J' : Moment σ → Prop} {I : Store → Prop}
    (look : ∀ {m}, J (.look m) → I m.store → J' (.look m))
    (change : ∀ {m m'}, J (.change m m') → I m.store → J' (.change m m') ∧ I m'.store)
    (invoke : ∀ {invocation m Q}, P.invoke invocation m Q → I m.store →
      P'.invoke invocation m fun r m' => Q r m' ∧ I m'.store)
    (loop : ∀ {l m Q}, P.loop l m Q → I m.store → P'.loop l m fun r m' => Q r m' ∧ I m'.store)
    (h : x.Safe J P m Q) (holds : I m.store) : x.Safe J' P' m fun a m' => Q a m' ∧ I m'.store := by
  obtain ⟨A, faithful⟩ := ‹P'.Lawful›.faithful
  induction x generalizing m with
  | pure a => exact ⟨h, holds⟩
  | read view next ih => exact ⟨look h.1 holds, ih _ h.2 holds⟩
  | perform effect next ih =>
    obtain ⟨moment, holds⟩ := change h.1 holds
    exact ⟨moment, ih _ h.2 holds⟩
  | inScope lexical varScope body next ihBody ih | inFrame frame body next ihBody ih =>
    exact (ihBody h holds).mono fun b m' post => ih b post.1 post.2
  | invoke invocation next ih =>
    have answer := faithful.invoke.1 (invoke h.2 holds)
    refine ⟨look h.1 holds, faithful.invoke.2 ⟨answer.1, fun r m' run => ?_⟩⟩
    exact ih r (answer.2 r m' run).1 (answer.2 r m' run).2
  | loop l next ih =>
    have answer := faithful.loop.1 (loop h holds)
    refine faithful.loop.2 ⟨answer.1, fun r m' run => ?_⟩
    exact ih r (answer.2 r m' run).1 (answer.2 r m' run).2

theorem Safe.weaken [P.Lawful] (weaker : P.Weaker P') (h : x.Safe J P' m Q) : x.Safe J P m Q :=
  (h.carry (I := fun _ => True) (fun moment _ => moment) (fun moment _ => ⟨moment, trivial⟩)
    (fun h _ => by simpa using weaker.invoke h) (fun h _ => by simpa using weaker.loop h)
    trivial).mono fun _ _ post => post.1

end Action

theorem Answers.afterRound_eq_finished {A : Answers σ} {o : Outcome σ (Except Fault Loop.Step)}
    {r' : Except Fault Completion} {m'' : Machine σ} :
    A.afterRound o = .finished r' m'' ↔
      ∃ r m', o = .finished r m' ∧ A.afterRound (.finished r m') = .finished r' m'' := by
  constructor
  · intro h
    cases o with
    | finished r m' => exact ⟨r, m', rfl, h⟩
    | exhausted => cases h
  · rintro ⟨r, m', rfl, h⟩
    exact h

theorem Promises.Faithful.afterRound {P : Promises σ} {A : Answers σ} (faithful : P.Faithful A)
    {Q : Except Fault Completion → Machine σ → Prop} {r : Except Fault Loop.Step}
    {m : Machine σ} :
    P.afterRound Q r m ↔ P.afterRound (fun _ _ => True) r m ∧
      ∀ r' m', A.afterRound (.finished r m) = .finished r' m' → Q r' m' := by
  rcases r with fault | step
  · simp [Promises.afterRound, Answers.afterRound]
  · cases step with
    | done completion => simp [Promises.afterRound, Answers.afterRound]
    | again next => exact faithful.loop

namespace Engine

variable (engine : Engine σ) {J : Moment σ → Prop} {x : Action σ α} {m : Machine σ}

theorem promises_faithful (fuel : Nat) :
    (engine.promises J fuel).Faithful (engine.answers fuel) := by
  induction fuel with
  | zero =>
    constructor
    · simp [promises]
    · simp [promises]
  | succ fuel ih =>
    constructor
    · intro invocation m Q
      rw [answers_succ_invoke]
      exact Action.safe_iff ih
    · intro l m Q
      constructor
      · rintro ⟨moment, h⟩
        have h := (Action.safe_iff ih).1 h
        refine ⟨⟨moment, (Action.safe_iff ih).2
          ⟨h.1, fun r m' run => (ih.afterRound.1 (h.2 r m' run)).1⟩⟩, fun r m' run => ?_⟩
        rw [answers_succ_loop, Answers.afterRound_eq_finished] at run
        obtain ⟨r₁, m₁, hround, hrest⟩ := run
        exact (ih.afterRound.1 (h.2 r₁ m₁ hround)).2 r m' hrest
      · rintro ⟨⟨moment, h⟩, answer⟩
        have h := (Action.safe_iff ih).1 h
        refine ⟨moment, (Action.safe_iff ih).2 ⟨h.1, fun r m' run =>
          ih.afterRound.2 ⟨h.2 r m' run, fun r' m'' hrest => answer r' m'' ?_⟩⟩⟩
        rw [answers_succ_loop, Answers.afterRound_eq_finished]
        exact ⟨r, m', run, hrest⟩

instance promises_lawful (fuel : Nat) : (engine.promises J fuel).Lawful :=
  ⟨_, engine.promises_faithful fuel⟩

theorem promises_weaker (fuel : Nat) :
    (engine.promises J fuel).Weaker (engine.promises J (fuel + 1)) := by
  induction fuel with
  | zero => exact ⟨fun _ => trivial, fun _ => trivial⟩
  | succ fuel ih =>
    constructor
    · intro invocation m Q h
      exact Action.Safe.weaken ih h
    · intro l m Q h
      refine ⟨h.1, (Action.Safe.weaken ih h.2).mono fun r m' hr => ?_⟩
      rcases r with fault | step
      · exact hr
      · cases step with
        | done completion => exact hr
        | again next => exact ih.loop hr

theorem safe_le {Q : α → Machine σ → Prop} {fuel fuel' : Nat}
    (h : x.Safe J (engine.promises J fuel') m Q) (le : fuel ≤ fuel') :
    x.Safe J (engine.promises J fuel) m Q := by
  induction le with
  | refl => exact h
  | step _ ih => exact ih (h.weaken (engine.promises_weaker _))

theorem safe_result {m' : Machine σ} {Q : α → Machine σ → Prop} {fuel : Nat} {a : α}
    (run : (engine.answers fuel).run x m = .finished a m')
    (h : x.Safe J (engine.promises J fuel) m Q) : Q a m' :=
  ((Action.safe_iff (engine.promises_faithful fuel)).1 h).2 a m' run

theorem Meets.holds {moment : Moment σ} (h : engine.Meets x m moment)
    (safe : ∀ fuel, ∃ Q, x.Safe J (engine.promises J fuel) m Q) : J moment := by
  induction h with
  | look | change | call => exact (safe 0).elim fun Q h => h.1
  | round => exact (safe 1).elim fun Q h => h.1
  | read _ ih | perform _ ih => exact ih fun fuel => (safe fuel).imp fun Q h => h.2
  | inScope _ ih | inFrame _ ih => exact ih fun fuel => (safe fuel).elim fun Q h => ⟨_, h⟩
  | inCall _ ih | inRound _ ih => exact ih fun fuel => (safe (fuel + 1)).elim fun Q h => ⟨_, h.2⟩
  | afterScope run _ ih | afterFrame run _ ih =>
    refine ih fun fuel => ?_
    obtain ⟨k, le, run⟩ := engine.exists_answers_run run fuel
    obtain ⟨Q, h⟩ := safe k
    exact ⟨Q, engine.safe_le (engine.safe_result run h) le⟩
  | afterCall run _ ih =>
    refine ih fun fuel => ?_
    obtain ⟨k, le, run⟩ := engine.exists_answers_invoke run fuel
    obtain ⟨Q, h⟩ := safe k
    exact ⟨Q, engine.safe_le (((engine.promises_faithful k).invoke.1 h.2).2 _ _ run) le⟩
  | again run _ ih =>
    refine ih fun fuel => ?_
    obtain ⟨k, le, run⟩ := engine.exists_answers_run run fuel
    obtain ⟨Q, h⟩ := safe (k + 1)
    have faithful := engine.promises_faithful (J := J) k
    have next := faithful.loop.1 (engine.safe_result run h.2)
    refine ⟨Q, engine.safe_le (faithful.loop.2 ⟨next.1, fun r m' run => ?_⟩) le⟩
    exact engine.safe_le (next.2 r m' run) k.le_succ
  | afterLoop run _ ih =>
    refine ih fun fuel => ?_
    obtain ⟨k, le, run⟩ := engine.exists_answers_loop run fuel
    obtain ⟨Q, h⟩ := safe k
    exact ⟨Q, engine.safe_le (((engine.promises_faithful k).loop.1 h).2 _ _ run) le⟩

end Engine

def Moment.machine : Moment σ → Machine σ
  | .look m | .round _ m => m
  | .change _ after => after

section

variable {J : Moment σ → Prop} {R : Store → Store → Prop} (refl : ∀ s, R s s)
  (trans : ∀ {s₁ s₂ s₃}, R s₁ s₂ → R s₂ s₃ → R s₁ s₃)
  (changes : ∀ before after, J (.change before after) → R before.store after.store)
  {x : Action σ α} {m m' : Machine σ} {Q : α → Machine σ → Prop}

include trans changes

theorem Engine.safe_since (engine : Engine σ) {fuel : Nat} {s : Store} (since : R s m.store)
    (h : x.Safe J (engine.promises J fuel) m Q) :
    x.Safe (fun moment => J moment ∧ R s moment.machine.store)
      (engine.promises (fun moment => J moment ∧ R s moment.machine.store) fuel) m
      fun a m' => Q a m' ∧ R s m'.store := by
  induction fuel generalizing α m with
  | zero =>
    exact h.carry And.intro (fun moment since => ⟨⟨moment, trans since (changes _ _ moment)⟩,
      trans since (changes _ _ moment)⟩) (fun _ _ => trivial) (fun _ _ => trivial) since
  | succ fuel ih =>
    refine h.carry And.intro (fun moment since => ⟨⟨moment, trans since (changes _ _ moment)⟩,
      trans since (changes _ _ moment)⟩) (fun h since => ih since h) (fun h since => ?_) since
    refine ⟨⟨h.1, since⟩, (ih since h.2).mono fun r m' post => ?_⟩
    rcases r with fault | step
    · exact post
    · cases step with
      | done completion => exact post
      | again next => exact ih (x := .loop next .pure) post.2 post.1

include refl

theorem Engine.safe_chain (engine : Engine σ) {fuel : Nat} {a : α}
    (h : x.Safe J (engine.promises J fuel) m Q)
    (run : (engine.answers fuel).run x m = .finished a m') : R m.store m'.store := by
  have since := engine.safe_since (R := R) trans changes (refl m.store) h
  exact (engine.safe_result run since).2

theorem Engine.Meets.chain {engine : Engine σ} {moment : Moment σ} (meets : engine.Meets x m moment)
    (safe : ∀ fuel, ∃ Q, x.Safe J (engine.promises J fuel) m Q) :
    R m.store moment.machine.store := by
  have since (fuel : Nat) := (safe fuel).imp' _ fun _ =>
    engine.safe_since (R := R) trans changes (refl m.store)
  exact (meets.holds engine since).2

end

/-! ## Evaluations -/

namespace Eval

variable {J : Moment σ → Prop} {P : Promises σ} {A : Answers σ} {m : Machine σ} {x : Eval σ α}
  {Q : Except Fault α → Machine σ → Prop}

def Safe (J : Moment σ → Prop) (P : Promises σ) (x : Eval σ α) (m : Machine σ)
    (Q : Except Fault α → Machine σ → Prop) : Prop := x.run.Safe J P m Q

def After (next : α → Machine σ → Prop) (Q : Except Fault β → Machine σ → Prop) :
    Except Fault α → Machine σ → Prop
  | .ok a, m => next a m
  | .error fault, m => Q (.error fault) m

theorem safe_bind {f : α → Eval σ β} {Q : Except Fault β → Machine σ → Prop} :
    (x >>= f).Safe J P m Q = x.Safe J P m (After (fun a m' => (f a).Safe J P m' Q) Q) := by
  change (x.run.bind _).Safe J P m Q = _
  rw [Action.safe_bind]
  refine congrArg (x.run.Safe J P m) (funext fun r => funext fun m' => ?_)
  cases r <;> rfl

theorem safe_outcome {Q : Except Fault (Except Fault α) → Machine σ → Prop} :
    (outcome x).Safe J P m Q = x.Safe J P m fun r m' => Q (.ok r) m' :=
  Action.safe_bind

theorem safe_ask {view : Machine σ → α} :
    (ask view).Safe J P m Q = (J (.look m) ∧ Q (.ok (view m)) m) := rfl

theorem safe_askFor {view : Machine σ → Except Fault α} :
    (askFor view).Safe J P m Q = (J (.look m) ∧ Q (view m) m) := rfl

theorem safe_perform {effect : Effect σ α} :
    (perform effect).Safe J P m Q =
      (J (.change m (effect.apply m).2) ∧ Q (.ok (effect.apply m).1) (effect.apply m).2) := rfl

theorem safe_attempt {effect : Effect σ (Except Fault α)} :
    (attempt effect).Safe J P m Q =
      (J (.change m (effect.apply m).2) ∧ Q (effect.apply m).1 (effect.apply m).2) := rfl

theorem Safe.mono [P.Lawful] {Q' : Except Fault α → Machine σ → Prop}
    (h : x.Safe J P m Q) (weaker : ∀ r m, Q r m → Q' r m) : x.Safe J P m Q' :=
  Action.Safe.mono h weaker

theorem Safe.and (faithful : P.Faithful A) {R : Except Fault α → Machine σ → Prop}
    (h : x.Safe J P m Q) (h' : ∀ r m', A.eval x m = .finished r m' → R r m') :
    x.Safe J P m fun r m' => Q r m' ∧ R r m' :=
  Action.Safe.and faithful h h'

end Eval

end ScriptEngine
