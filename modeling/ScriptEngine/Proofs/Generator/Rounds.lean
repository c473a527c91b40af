import ScriptEngine.Proofs.Generator.Following

/-!
# Following loops in place

A loop is followed round by round (`Engine.follows_loop`). A round that was suspended is entered again
through `Loop.reentry`, which finds it by the record of the loop.
-/

namespace ScriptEngine

open Eval

variable {σ : Type}

def Loop.Step.proceed : Loop.Step → Eval σ Completion
  | .done completion => pure completion
  | .again next => loop next

def Loop.reentry (shortcuts : Bool) (outer : EnvironmentId) (l : Loop) : Eval σ Loop.Step := do
  match ← takeLoop with
  | some (value, environment) =>
    (l.entered true value (environment.getD outer)).round shortcuts
  | none => l.round shortcuts

theorem Engine.total_eval_loop (engine : Engine σ) (l : Loop) (m : Machine σ) :
    engine.total.eval (loop l) m =
      engine.total.eval (l.round engine.shortcuts >>= Loop.Step.proceed) m := by
  rw [eval_loop, total_loop, eval_bind, Answers.afterRound]
  refine congrArg _ (funext fun step => funext fun m' => ?_)
  cases step with
  | done completion => rfl
  | again next => exact (engine.total.eval_loop next m').symm

namespace Loop

variable {l l' : Loop} {outer : EnvironmentId}

theorem reentry_resumes {P : Promises σ} [P.Lawful] {A : Answers σ} (kept : P.Kept A) (shortcuts strict : Bool)
    (outer : EnvironmentId) (l : Loop) :
    Resumes P strict (l.Leaves strict) (l.Leaves strict) (l.reentry shortcuts outer) := by
  refine Resumes.take (D := fun a =>
    (l.entered true a.1 (a.2.getD outer)).Fits strict) ?_
    (round_resumes kept strict shortcuts l).starts fun a _ => ?_
  · rintro _ ⟨value, environment, rest, rfl, fits⟩
    refine ⟨.loop value environment, (value, environment), rest, rfl, rfl, ?_⟩
    cases l with
    | whileLoop | forLoop => exact ⟨rfl, fits⟩
    | doWhile => exact fits
  · rw [← l.entered_leaves true strict a.1 (a.2.getD outer)]
    exact round_resumes kept strict shortcuts _

theorem reentry_again {A : Answers σ} {shortcuts : Bool} {m m' : Machine σ}
    (h : A.eval (l.reentry shortcuts outer) m = .finished (.ok (.again l')) m') :
    ∃ value environment, l' = l.entered false value environment := by
  rw [reentry, eval_bind, proceed_eq_ok] at h
  obtain ⟨taken, m₁, -, h⟩ := h
  cases taken with
  | none => exact round_again shortcuts h
  | some record =>
    obtain ⟨value, environment, rfl⟩ := round_again shortcuts h
    exact ⟨value, environment, l.entered_entered ..⟩

end Loop

namespace Engine

variable {engine : Engine σ} {stack : CallStack} {talk : Talk} {m : Machine σ}
  {d : Dialogue σ Completion}

theorem turns_round (fair : engine.Fair) (l : Loop) (value : Value) (environment : EnvironmentId) :
    engine.Turns stack ((l.entered false value environment).Fits stack.strict)
      (l.Leaves stack.strict) ((l.entered false value environment).round engine.shortcuts) := by
  rw [← l.entered_leaves false stack.strict value environment]
  exact turns_of_resumes fun fuel =>
    Loop.round_resumes (promises_kept fair fuel) stack.strict engine.shortcuts _

theorem turns_reentry (fair : engine.Fair) (outer : EnvironmentId) (l : Loop) :
    engine.Turns stack (l.Leaves stack.strict) (l.Leaves stack.strict)
      (l.reentry engine.shortcuts outer) :=
  turns_of_resumes fun fuel =>
    Loop.reentry_resumes (promises_kept fair fuel) engine.shortcuts stack.strict outer l

section

variable (fair : engine.Fair) {again : Eval σ Completion} {l : Loop} {outer : EnvironmentId}
  (back : ∀ m value environment points w, m.Placed stack →
    m.records = some (.loop value environment :: points, some w) →
    engine.total.eval again m = engine.total.eval
      (loop (l.entered true value (environment.getD outer))) (m.setRecords points (some w)))

include fair back

theorem driven_loop (calm : m.Calm stack) (value : Value) (environment : EnvironmentId) :
    engine.driven again (loop (l.entered false value environment)) talk m =
      (engine.driven (l.reentry engine.shortcuts outer)
        ((l.entered false value environment).round engine.shortcuts) talk m).andThen
          fun r talk m => match r with
            | .ok (.done completion) => .finished (.ok completion) talk m
            | .ok (.again next) => engine.driven again (loop next) talk m
            | .error fault => .finished (.error fault) talk m := by
  have back' (m : Machine σ) (points : List ResumePoint) (w : Resumption) (placed : m.Placed stack)
      (records : m.records = some (points, some w)) (fits : l.Leaves stack.strict points) :
      engine.total.eval again m = engine.total.eval
        (l.reentry engine.shortcuts outer >>= Loop.Step.proceed)
        (m.setRecords points (some w)) := by
    obtain ⟨value, environment, rest, rfl, -⟩ := fits
    rw [Machine.setRecords_self records, back m value environment rest w placed records,
      total_eval_loop, Loop.reentry, Answers.eval_bind_assoc, takeLoop,
      engine.total.eval_takeRecord records]
  rw [driven_congr (engine.total_eval_loop _ m), driven_then (turns_round fair l value environment)
    (turns_reentry fair outer l) (marks_self _) (marks_self _) back' calm]
  refine congrArg _ (funext fun r => funext fun talk => funext fun m => ?_)
  rcases r with fault | step
  · rfl
  · cases step with
    | done completion =>
      exact (driven_eq ..).trans (Outcome.afterTurn_unsuspended (unsuspended_ok completion) ..)
    | again next => rfl

omit back in
theorem driven_again {talk' : Talk} {m' : Machine σ} {next : Loop} (calm : m.Calm stack)
    {value : Value} {environment : EnvironmentId}
    (h : engine.driven (l.reentry engine.shortcuts outer)
      ((l.entered false value environment).round engine.shortcuts) talk m =
        .finished (.ok (.again next)) talk' m') :
    m'.Calm stack ∧ ∃ value environment, next = l.entered false value environment := by
  obtain ⟨placed, -, quiet, -⟩ := driven_finished (turns_round fair l value environment)
    (turns_reentry fair outer l) calm.toPlaced (.inl calm.quiet) h
  refine ⟨⟨placed, quiet⟩, driven_result (Q := fun r => ∀ next, r = .ok (.again next) →
    ∃ value environment, next = l.entered false value environment) ?_ ?_ h next rfl⟩
  · rintro m r m' run next rfl
    obtain ⟨value, environment, rfl⟩ := Loop.round_again engine.shortcuts run
    exact ⟨value, environment, l.entered_entered ..⟩
  · rintro m r m' run next rfl
    exact Loop.reentry_again run

variable {round : Loop → Dialogue σ Loop.Step}
  (each : ∀ value environment, engine.Follows stack (l.reentry engine.shortcuts outer)
    ((l.entered false value environment).round engine.shortcuts)
    (round (l.entered false value environment)))

include each

theorem rounds_within (fuel : Nat) (calm : m.Calm stack) (value : Value)
    (environment : EnvironmentId) :
    Dialogue.rounds round (l.entered false value environment) fuel talk m = .exhausted ∨
      Dialogue.rounds round (l.entered false value environment) fuel talk m =
        engine.driven again (loop (l.entered false value environment)) talk m := by
  induction fuel generalizing talk m value environment with
  | zero => exact .inl rfl
  | succ fuel ih =>
    rw [driven_loop fair back calm]
    unfold Dialogue.rounds
    rcases (each value environment talk m calm).within fuel with short | same
    · rw [short]
      exact .inl rfl
    · rw [same]
      cases dialogue : engine.driven (l.reentry engine.shortcuts outer)
          ((l.entered false value environment).round engine.shortcuts) talk m with
      | exhausted => exact .inl rfl
      | waiting answers m' => exact .inr rfl
      | finished r talk' m' =>
        rcases r with fault | step
        · exact .inr rfl
        · cases step with
          | done completion => exact .inr rfl
          | again next =>
            obtain ⟨calm', value', environment', rfl⟩ := driven_again fair calm dialogue
            exact ih calm' value' environment'

theorem rounds_reached (calm : m.Calm stack) (value : Value) (environment : EnvironmentId)
    (ends : engine.driven again (loop (l.entered false value environment)) talk m ≠ .exhausted) :
    ∃ least, ∀ fuel, least ≤ fuel →
      Dialogue.rounds round (l.entered false value environment) fuel talk m =
        engine.driven again (loop (l.entered false value environment)) talk m := by
  induction talk using Talk.shorter_induction generalizing m value environment with
    | step talk ih => ?_
  obtain ⟨turn, some⟩ : ∃ turn, (engine.answers turn).loop (l.entered false value environment) m ≠
      .exhausted := by
    have ends : engine.total.loop (l.entered false value environment) m ≠ .exhausted := by
      intro exhausted
      rw [driven_eq, eval_loop, exhausted] at ends
      exact ends rfl
    obtain ⟨turn, reached⟩ := (engine.loop_approaches _ m).reached ends
    exact ⟨turn, reached turn (Nat.le_refl _) ▸ ends⟩
  induction turn generalizing m value environment with
  | zero => exact absurd (engine.answers_zero_loop _ m) some
  | succ turn ihTurn =>
    rw [answers_succ_loop] at some
    rw [driven_loop fair back calm] at ends ⊢
    refine (Approaches.of_succ rfl ((each value environment talk m calm).andThen
      fun r talk' m' dialogue => ?_)).reached ends
    rcases r with fault | step
    · exact .const _ _
    · cases step with
      | done completion => exact .const _ _
      | again next =>
        have talked := (driven_finished (turns_round fair l value environment)
          (turns_reentry fair outer l) calm.toPlaced (.inl calm.quiet) dialogue).2.2.2
        obtain ⟨calm', value', environment', rfl⟩ := driven_again fair calm dialogue
        refine ⟨fun fuel => rounds_within fair back each fuel calm' value' environment',
          fun ends' => ?_⟩
        rcases talked with ⟨rfl, run⟩ | less
        · refine ihTurn calm' value' environment' ends' ?_
          rcases (engine.run_approaches _ m).within turn with short | same
          · rw [← run_eq, short] at some
            exact absurd rfl some
          · rwa [← run_eq, same, run] at some
        · exact ih talk' less calm' value' environment' ends'

theorem follows_loop (value : Value) (environment : EnvironmentId) :
    engine.Follows stack again (loop (l.entered false value environment))
      (Dialogue.rounds round (l.entered false value environment)) :=
  fun _ _ calm => ⟨fun fuel => rounds_within fair back each fuel calm value environment,
    rounds_reached fair back each calm value environment⟩

end

theorem follows_roundBody {again : Eval σ Loop.Step} {E : Bool → List ResumePoint → Prop}
    {x : Eval σ Completion} (h : engine.Performs E x d) {point : ResumePoint} {labels : List String}
    {value : Value} {next : Value → Eval σ Loop.Step} {next' : Value → Dialogue σ Loop.Step}
    (back : ∀ m points w, m.Placed stack → m.records = some (point :: points, some w) →
      engine.total.eval again m = engine.total.eval (do
        let completion ← recording point x
        Loop.afterBody completion labels value next) (m.setRecords points (some w)))
    (rest : ∀ value, engine.Follows stack again (next value) (next' value)) :
    engine.Follows stack again (do
        let completion ← recording point x
        Loop.afterBody completion labels value next)
      (do
        let completion ← d
        Dialogue.afterBody completion labels value next') := by
  refine h.recording back fun completion => ?_
  unfold Loop.afterBody Dialogue.afterBody
  split
  · exact rest _
  · exact fun _ _ _ => matches_pure _

theorem follows_round (fair : engine.Fair) {l : Loop} (outer : EnvironmentId)
    (own : ∀ r, l = .forLoop r → r.outer = outer)
    (h : engine.Performs (fun strict => l.body.Fits strict) (l.body.eval engine.shortcuts []) d)
    (value : Value) (environment : EnvironmentId) :
    engine.Follows stack (l.reentry engine.shortcuts outer)
      ((l.entered false value environment).round engine.shortcuts)
      (Dialogue.round engine d (l.entered false value environment)) := by
  cases l with
  | whileLoop test body labels value₀ resuming =>
    refine follows_bind (settled_of_plain fair (simple_holds (some test)).plain) fun enter => ?_
    cases enter with
    | false => exact fun _ _ _ => matches_pure _
    | true =>
      refine follows_roundBody h (fun m points w _ records => ?_)
        fun value _ _ _ => matches_pure _
      rw [Loop.reentry, takeLoop, Answers.eval_takeRecord _ records]
      rfl
  | doWhile body test labels value₀ =>
    refine follows_roundBody h (fun m points w _ records => ?_) fun value => ?_
    · rw [Loop.reentry, takeLoop, Answers.eval_takeRecord _ records]
      rfl
    · refine follows_bind (settled_of_plain fair (simple_holds (some test)).plain) fun enter => ?_
      cases enter <;> exact fun _ _ _ => matches_pure _
  | forLoop r =>
    obtain ⟨test, update, body, copied, labels, outer', _, _, _⟩ := r
    have own : outer' = outer := own _ rfl
    refine follows_bind (settled_of_plain fair (plain_within _ (simple_holds test).plain))
      fun enter => ?_
    cases enter with
    | false => exact fun _ _ _ => matches_pure _
    | true =>
      refine follows_roundBody (h.within environment) (fun m points w _ records => ?_)
        fun value => ?_
      · have scope : (if environment = outer' then none else some environment).getD outer =
            environment := by
          split <;> simp_all
        rw [Loop.reentry, takeLoop, Answers.eval_takeRecord _ records]
        simp only [Loop.entered, scope]
        rfl
      · refine follows_bind (settled_of_plain fair (simple_copyBindings environment copied).plain)
          fun environment' => ?_
        cases update with
        | none => exact fun _ _ _ => matches_pure _
        | some update =>
          exact follows_bind (settled_of_plain fair (plain_within _ (Expr.plain update none)))
            fun _ _ _ _ => matches_pure _

end Engine

end ScriptEngine
