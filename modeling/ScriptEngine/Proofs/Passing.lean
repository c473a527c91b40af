import ScriptEngine.Proofs.Moments

/-!
# The moments of a run in their order

`Engine.Passes` gives the moments that a run comes by from its start to its end. There is such a
list for every run that ends (`Engine.exists_passes_iff`).
-/

namespace ScriptEngine

variable {σ α β : Type}

/-- An action run on a machine comes by the moments of a list, one after the other, and ends with a
result and a machine. -/
inductive Engine.Passes (engine : Engine σ) :
    {α : Type} → Action σ α → Machine σ → List (Moment σ) → α → Machine σ → Prop where
  | pure {α : Type} {a : α} {m : Machine σ} : engine.Passes (.pure a) m [] a m
  | read {α β : Type} {view : Machine σ → β} {next : β → Action σ α} {m m' : Machine σ} {a : α}
      {trace : List (Moment σ)} (h : engine.Passes (next (view m)) m trace a m') :
      engine.Passes (.read view next) m (.look m :: trace) a m'
  | perform {α β : Type} {effect : Effect σ β} {next : β → Action σ α} {m m' : Machine σ} {a : α}
      {trace : List (Moment σ)}
      (h : engine.Passes (next (effect.apply m).1) (effect.apply m).2 trace a m') :
      engine.Passes (.perform effect next) m (.change m (effect.apply m).2 :: trace) a m'
  | inScope {α β : Type} {lexical : EnvironmentId} {varScope : Option EnvironmentId}
      {body : Action σ β} {next : β → Action σ α} {m m₁ m' : Machine σ} {b : β} {a : α}
      {inner trace : List (Moment σ)}
      (entered : engine.Passes body (m.setScope lexical (varScope.getD m.varScope)) inner b m₁)
      (h : engine.Passes (next b) (m₁.setScope m.lexical m.varScope) trace a m') :
      engine.Passes (.inScope lexical varScope body next) m (inner ++ trace) a m'
  | inFrame {α β : Type} {frame : Frame} {body : Action σ β} {next : β → Action σ α}
      {m m₁ m' : Machine σ} {b : β} {a : α} {inner trace : List (Moment σ)}
      (entered : engine.Passes body (m.push frame) inner b m₁)
      (h : engine.Passes (next b) m₁.pop trace a m') :
      engine.Passes (.inFrame frame body next) m (inner ++ trace) a m'
  | invoke {α : Type} {invocation : Invocation} {next : Except Fault Value → Action σ α}
      {m m₁ m' : Machine σ} {r : Except Fault Value} {a : α} {inner trace : List (Moment σ)}
      (called : engine.Passes (invocation.eval engine).run m inner r m₁)
      (h : engine.Passes (next r) m₁ trace a m') :
      engine.Passes (.invoke invocation next) m (.look m :: (inner ++ trace)) a m'
  | done {α : Type} {l : Loop} {next : Except Fault Completion → Action σ α}
      {m m₁ m' : Machine σ} {completion : Completion} {a : α} {inner trace : List (Moment σ)}
      (round : engine.Passes (l.round engine.shortcuts).run m inner (.ok (.done completion)) m₁)
      (h : engine.Passes (next (.ok completion)) m₁ trace a m') :
      engine.Passes (.loop l next) m (.round l m :: (inner ++ trace)) a m'
  | failed {α : Type} {l : Loop} {next : Except Fault Completion → Action σ α}
      {m m₁ m' : Machine σ} {fault : Fault} {a : α} {inner trace : List (Moment σ)}
      (round : engine.Passes (l.round engine.shortcuts).run m inner (.error fault) m₁)
      (h : engine.Passes (next (.error fault)) m₁ trace a m') :
      engine.Passes (.loop l next) m (.round l m :: (inner ++ trace)) a m'
  | again {α : Type} {l l' : Loop} {next : Except Fault Completion → Action σ α}
      {m m₁ m' : Machine σ} {a : α} {inner trace : List (Moment σ)}
      (round : engine.Passes (l.round engine.shortcuts).run m inner (.ok (.again l')) m₁)
      (h : engine.Passes (.loop l' next) m₁ trace a m') :
      engine.Passes (.loop l next) m (.round l m :: (inner ++ trace)) a m'

namespace Engine

variable {engine : Engine σ} {x : Action σ α} {m m' : Machine σ} {a : α}

theorem Passes.run {trace : List (Moment σ)} (h : engine.Passes x m trace a m') :
    engine.total.run x m = .finished a m' := by
  induction h with
  | pure => rfl
  | read _ ih | perform _ ih => exact ih
  | inScope _ _ ihBody ih => rw [run_inScope, ihBody, Outcome.andThen_finished, ih]
  | inFrame _ _ ihBody ih => rw [run_inFrame, ihBody, Outcome.andThen_finished, ih]
  | invoke _ _ ihCalled ih =>
    rw [run_invoke, engine.total_invoke, Answers.eval, ihCalled, Outcome.andThen_finished,
      ih]
  | done _ _ ihRound ih | failed _ _ ihRound ih =>
    rw [run_loop, engine.total_loop, Answers.eval, ihRound]
    exact ih
  | again _ _ ihRound ih =>
    rw [run_loop] at ih ⊢
    rw [engine.total_loop, Answers.eval, ihRound]
    exact ih

structure Passing (engine : Engine σ) (A : Answers σ) : Prop where
  invoke : ∀ {invocation m r m'}, A.invoke invocation m = .finished r m' →
    ∃ trace, engine.Passes (invocation.eval engine).run m trace r m'
  loop : ∀ {l m r m'}, A.loop l m = .finished r m' →
    ∀ {α : Type} {next : Except Fault Completion → Action σ α} {a m''} {trace : List (Moment σ)},
      engine.Passes (next r) m' trace a m'' →
        ∃ trace', engine.Passes (.loop l next) m trace' a m''

theorem Passing.passes {A : Answers σ} (passing : engine.Passing A)
    (run : A.run x m = .finished a m') : ∃ trace, engine.Passes x m trace a m' := by
  induction x generalizing m m' with
  | pure a =>
    cases run
    exact ⟨_, .pure⟩
  | read view next ih => exact (ih _ run).imp' _ fun _ => .read
  | perform effect next ih => exact (ih _ run).imp' _ fun _ => .perform
  | inScope lexical varScope body next ihBody ih =>
    rw [run_inScope, andThen_eq_finished] at run
    obtain ⟨b, m₁, first, rest⟩ := run
    obtain ⟨inner, first⟩ := ihBody first
    exact (ih b rest).imp' _ fun _ => .inScope first
  | inFrame frame body next ihBody ih =>
    rw [run_inFrame, andThen_eq_finished] at run
    obtain ⟨b, m₁, first, rest⟩ := run
    obtain ⟨inner, first⟩ := ihBody first
    exact (ih b rest).imp' _ fun _ => .inFrame first
  | invoke invocation next ih =>
    rw [run_invoke, andThen_eq_finished] at run
    obtain ⟨r, m₁, first, rest⟩ := run
    obtain ⟨inner, first⟩ := passing.invoke first
    exact (ih r rest).imp' _ fun _ => .invoke first
  | loop l next ih =>
    rw [run_loop, andThen_eq_finished] at run
    obtain ⟨r, m₁, first, rest⟩ := run
    obtain ⟨trace, rest⟩ := ih r rest
    exact passing.loop first rest

theorem passing (fuel : Nat) : engine.Passing (engine.answers fuel) := by
  induction fuel with
  | zero => exact ⟨fun h => by simp at h, fun h => by simp at h⟩
  | succ fuel ih =>
    constructor
    · intro invocation m r m' run
      rw [answers_succ_invoke] at run
      exact ih.passes run
    · intro l m r m' run α next a m'' trace rest
      rw [answers_succ_loop, Answers.afterRound_eq_finished] at run
      obtain ⟨r₁, m₁, round, after⟩ := run
      obtain ⟨inner, round⟩ := ih.passes round
      rcases r₁ with fault | step
      · cases after
        exact ⟨_, .failed round rest⟩
      · cases step with
        | done completion =>
          cases after
          exact ⟨_, .done round rest⟩
        | again l' => exact (ih.loop after rest).imp' _ fun _ => .again round

theorem exists_passes (run : engine.total.run x m = .finished a m') :
    ∃ trace, engine.Passes x m trace a m' := by
  obtain ⟨fuel, -, run⟩ := engine.exists_answers_run run 0
  exact (engine.passing fuel).passes run

theorem exists_passes_iff {x : Eval σ α} {r : Except Fault α} :
    (∃ trace, engine.Passes x.run m trace r m') ↔ ∃ fuel, engine.run fuel x m = .finished r m' := by
  rw [engine.exists_run_iff]
  exact ⟨fun ⟨_, h⟩ => h.run, exists_passes⟩

/-! ## Evaluations -/

theorem Passes.bind {f : α → Action σ β} {m₁ : Machine σ} {first rest : List (Moment σ)} {b : β}
    (h : engine.Passes x m first a m₁) (next : engine.Passes (f a) m₁ rest b m') :
    engine.Passes (x.bind f) m (first ++ rest) b m' := by
  induction h with
  | pure => exact next
  | read _ ih => exact .read (ih next)
  | perform _ ih => exact .perform (ih next)
  | inScope entered _ _ ih =>
    rw [List.append_assoc]
    exact .inScope entered (ih next)
  | inFrame entered _ _ ih =>
    rw [List.append_assoc]
    exact .inFrame entered (ih next)
  | invoke called _ _ ih =>
    rw [List.cons_append, List.append_assoc]
    exact .invoke called (ih next)
  | done round _ _ ih =>
    rw [List.cons_append, List.append_assoc]
    exact .done round (ih next)
  | failed round _ _ ih =>
    rw [List.cons_append, List.append_assoc]
    exact .failed round (ih next)
  | again round _ _ ih =>
    rw [List.cons_append, List.append_assoc]
    exact .again round (ih next)

section

variable {m₁ : Machine σ} {trace first rest : List (Moment σ)} {x : Eval σ α} {r : Except Fault α}

theorem Passes.proceed {f : α → Eval σ β} {a : α} {r : Except Fault β}
    (h : engine.Passes x.run m first (.ok a) m₁) (next : engine.Passes (f a).run m₁ rest r m') :
    engine.Passes (x >>= f).run m (first ++ rest) r m' :=
  .bind h next

theorem Passes.fault {f : α → Eval σ β} {fault : Fault}
    (h : engine.Passes x.run m trace (.error fault) m') :
    engine.Passes (x >>= f).run m trace (.error fault) m' := by
  rw [← List.append_nil trace]
  exact .bind h .pure

theorem Passes.outcome (h : engine.Passes x.run m trace r m') :
    engine.Passes (Eval.outcome x).run m trace (.ok r) m' := by
  rw [← List.append_nil trace]
  exact .bind h .pure

theorem Passes.handle {f : Except Fault α → Eval σ β} {r' : Except Fault β}
    (h : engine.Passes x.run m first r m₁) (next : engine.Passes (f r).run m₁ rest r' m') :
    engine.Passes (Eval.outcome x >>= f).run m (first ++ rest) r' m' :=
  h.outcome.proceed next

theorem Passes.within {scope : EnvironmentId}
    (h : engine.Passes x.run (m.setScope scope m.varScope) trace r m') :
    engine.Passes (Eval.within scope x).run m trace r (m'.setScope m.lexical m.varScope) := by
  rw [← List.append_nil trace]
  exact .inScope h .pure

theorem Passes.withinBody {scope : EnvironmentId}
    (h : engine.Passes x.run (m.setScope scope scope) trace r m') :
    engine.Passes (Eval.withinBody scope x).run m trace r (m'.setScope m.lexical m.varScope) := by
  rw [← List.append_nil trace]
  exact .inScope h .pure

theorem Passes.framed {frame : Frame} (h : engine.Passes x.run (m.push frame) trace r m') :
    engine.Passes (Eval.inFrame frame x).run m trace r m'.pop := by
  rw [← List.append_nil trace]
  exact .inFrame h .pure

theorem Passes.call {callee this : Value} {arguments : List Value} {r : Except Fault Value}
    (h : engine.Passes ((Invocation.call callee this arguments).eval engine).run m trace r m') :
    engine.Passes (Eval.call callee this arguments).run m (.look m :: trace) r m' := by
  rw [← List.append_nil trace]
  exact .invoke h .pure

theorem Passes.construct {callee : Value} {arguments : List Value} {newTarget : Option Value}
    {r : Except Fault Value}
    (h : engine.Passes ((Invocation.construct callee arguments newTarget).eval engine).run m trace
      r m') :
    engine.Passes (Eval.construct callee arguments newTarget).run m (.look m :: trace) r m' := by
  rw [← List.append_nil trace]
  exact .invoke h .pure

theorem Passes.loopFault {l : Loop} {fault : Fault}
    (h : engine.Passes (l.round engine.shortcuts).run m trace (.error fault) m') :
    engine.Passes (Eval.loop l).run m (.round l m :: trace) (.error fault) m' := by
  rw [← List.append_nil trace]
  exact .failed h .pure

theorem Passes.loopAgain {l l' : Loop} {r : Except Fault Completion}
    (h : engine.Passes (l.round engine.shortcuts).run m first (.ok (.again l')) m₁)
    (next : engine.Passes (Eval.loop l').run m₁ rest r m') :
    engine.Passes (Eval.loop l).run m (.round l m :: (first ++ rest)) r m' :=
  .again h next

end

end Engine

end ScriptEngine
