import ScriptEngine.Proofs.Generator.Replay

/-!
# Following a replayed run in place

`Engine.Matches` says that a dialogue in place comes to what a driven evaluation comes to, with
enough fuel. The rules follow the ways in which evaluations are put together.
-/

namespace ScriptEngine

open Eval

variable {σ α β : Type} {m : Machine σ} (A : Answers σ)

/-- From a machine on, with ever more fuel, the dialogue comes to what driving `z` comes to, where
`again` is entered after each suspension. -/
def Engine.Matches (engine : Engine σ) (again z : Eval σ α) (d : Dialogue σ α) (talk : Talk)
    (m : Machine σ) : Prop :=
  Exchange.Approaches (fun fuel => d fuel talk m) (engine.driven again z talk m)

def Engine.Follows (engine : Engine σ) (stack : CallStack) (again z : Eval σ α)
    (d : Dialogue σ α) : Prop :=
  ∀ talk m, m.Calm stack → engine.Matches again z d talk m

namespace Engine

variable {engine : Engine σ} {stack : CallStack} {again z z' : Eval σ α} {d : Dialogue σ α}
  {talk : Talk} {dx : Dialogue σ β} {x y : Eval σ β} {mark : List ResumePoint → List ResumePoint}
  {g : β → Dialogue σ α} {f : β → Eval σ α}

theorem Matches.congr (h : engine.Matches again z d talk m)
    (same : engine.total.eval z' m = engine.total.eval z m) : engine.Matches again z' d talk m := by
  unfold Matches
  rw [driven_congr same]
  exact h

theorem Follows.congr (h : engine.Follows stack again z d)
    (same : ∀ m, engine.total.eval z' m = engine.total.eval z m) :
    engine.Follows stack again z' d :=
  fun talk m calm => (h talk m calm).congr (same m)

theorem matches_ofExcept {r : Except Fault α} (h : Unsuspended r) :
    engine.Matches again (Eval.ofExcept r) (Dialogue.ofExcept r) talk m := by
  have driven : engine.driven again (Eval.ofExcept r) talk m = .finished r talk m := by
    rw [driven_eq, eval_ofExcept, Outcome.afterTurn_unsuspended h]
  unfold Matches
  rw [driven]
  exact .const _ _

theorem matches_pure (a : α) : engine.Matches again (pure a) (pure a) talk m :=
  matches_ofExcept (unsuspended_ok a)

theorem driven_settled (hz : engine.Settled z) (calm : m.Calm stack) :
    engine.driven again z talk m = (engine.total.eval z m).exchange talk := by
  rw [driven_eq]
  cases run : engine.total.eval z m with
  | exhausted => rfl
  | finished r m' => exact Outcome.afterTurn_unsuspended (hz stack m r m' calm run).2 ..

theorem matches_silent (hz : engine.Settled z) (calm : m.Calm stack) :
    engine.Matches again z (Dialogue.silent engine z) talk m := by
  unfold Matches
  rw [driven_settled hz calm]
  exact Dialogue.silent_approaches engine z talk m

theorem driven_bind (hx : engine.Settled x) (calm : m.Calm stack) :
    engine.driven again (x >>= f) talk m =
      ((engine.total.eval x m).exchange talk).andThen fun r talk m => match r with
        | .ok a => engine.driven again (f a) talk m
        | .error fault => .finished (.error fault) talk m := by
  cases run : engine.total.eval x m with
  | exhausted =>
    rw [driven_eq, eval_bind, run]
    rfl
  | finished r m' =>
    cases r with
    | ok a =>
      refine driven_congr ?_
      rw [eval_bind, run, proceed_ok]
    | error fault =>
      rw [driven_eq, eval_bind, run, proceed_error,
        Outcome.afterTurn_unsuspended (unsuspended_error.2
          (unsuspended_error.1 (hx stack m _ m' calm run).2))]
      rfl

theorem matches_bind (hx : engine.Settled x) (calm : m.Calm stack)
    (rest : ∀ a m', engine.total.eval x m = .finished (.ok a) m' → m'.Calm stack → engine.Matches again (f a) (g a) talk m') :
    engine.Matches again (x >>= f) (Dialogue.silent engine x >>= g) talk m := by
  unfold Matches
  rw [driven_bind hx calm]
  refine (Dialogue.silent_approaches engine x talk m).andThen fun r talk' m' finished => ?_
  cases run : engine.total.eval x m with
  | exhausted =>
    rw [run] at finished
    cases finished
  | finished r' m₁ =>
    rw [run] at finished
    cases finished
    cases r with
    | ok a => exact rest a m' run (hx stack m _ m' calm run).1
    | error fault => exact .const _ _

theorem follows_bind (hx : engine.Settled x) (rest : ∀ a, engine.Follows stack again (f a) (g a)) :
    engine.Follows stack again (x >>= f) (Dialogue.silent engine x >>= g) :=
  fun talk _ calm => matches_bind hx calm fun a m' _ calm' => rest a talk m' calm'

variable {E F : List ResumePoint → Prop}

theorem matches_handle {post : Except Fault β → Eval σ α} {after : Except Fault β → Dialogue σ α}
    (hx : engine.Turns stack E E x) (marks : engine.Marks mark x y)
    (passes : ∀ v, post (.error (.suspended v)) = throw (.suspended v))
    (aborts : ∀ fault, fault.isHostAbort = true → post (.error fault) = throw fault ∧ after (.error fault) = Dialogue.ofExcept (.error fault))
    (back : ∀ m points w, m.Placed stack → m.records = some (mark points, some w) → E points → engine.total.eval again m = engine.total.eval (outcome y >>= post) (m.setRecords points (some w)))
    (calm : m.Calm stack) (inner : engine.Matches x x dx talk m)
    (rest : ∀ r talk' m', Unsuspended r → m'.Calm stack → engine.Matches again (post r) (after r) talk' m') :
    engine.Matches again (outcome y >>= post) (dx.handle after) talk m := by
  unfold Matches
  rw [driven_handle hx hx marks marks passes back calm.toPlaced (.inl calm.quiet)]
  refine inner.andThen fun r talk' m' finished => ?_
  obtain ⟨placed', unsuspended, left, -⟩ :=
    driven_finished hx hx calm.toPlaced (.inl calm.quiet) finished
  by_cases abort : ∃ fault, r = .error fault ∧ fault.isHostAbort = true
  · obtain ⟨fault, rfl, abort⟩ := abort
    obtain ⟨throws, throws'⟩ := aborts fault abort
    have same : (throw fault : Eval σ α) = Eval.ofExcept (.error fault) := rfl
    rw [throws, throws', same]
    exact matches_ofExcept (unsuspended_error.2 (unsuspended_error.1 unsuspended))
  · refine rest r talk' m' unsuspended ⟨placed', left.quiet unsuspended fun fault hr => ?_⟩
    simpa using fun aborts => abort ⟨fault, hr, aborts⟩

theorem driven_then {x₀ y₀ : Eval σ β} (hx : engine.Turns stack F E x)
    (hx₀ : engine.Turns stack E E x₀) (marks : engine.Marks mark x y)
    (marks₀ : engine.Marks mark x₀ y₀)
    (back : ∀ m points w, m.Placed stack → m.records = some (mark points, some w) → E points → engine.total.eval again m = engine.total.eval (y₀ >>= f) (m.setRecords points (some w)))
    (calm : m.Calm stack) :
    engine.driven again (y >>= f) talk m =
      (engine.driven x₀ x talk m).andThen fun r talk m => match r with
        | .ok a => engine.driven again (f a) talk m
        | .error fault => .finished (.error fault) talk m := by
  let post : Except Fault β → Eval σ α
    | .ok a => f a
    | .error fault => throw fault
  have same (y : Eval σ β) (m : Machine σ) :
      engine.total.eval (y >>= f) m = engine.total.eval (outcome y >>= post) m := by
    rw [eval_bind, eval_bind, eval_outcome]
    cases engine.total.eval y m with
    | exhausted => rfl
    | finished r m' => cases r <;> rfl
  have passes (v : Value) : post (.error (.suspended v)) = throw (.suspended v) := rfl
  rw [driven_congr (same y m), driven_handle hx hx₀ marks marks₀ passes
    (fun m points w placed records fits => (back m points w placed records fits).trans (same y₀ _))
    calm.toPlaced (.inl calm.quiet)]
  cases dialogue : engine.driven x₀ x talk m with
  | exhausted => rfl
  | waiting answers m' => rfl
  | finished r talk' m' =>
    cases r with
    | ok a => rfl
    | error fault =>
      have unsuspended := (driven_finished hx hx₀ calm.toPlaced (.inl calm.quiet) dialogue).2.1
      rw [Exchange.andThen_finished, driven_eq]
      exact Outcome.afterTurn_unsuspended (unsuspended_error.2 (unsuspended_error.1 unsuspended)) ..

theorem matches_then (hx : engine.Turns stack E E x) (marks : engine.Marks mark x y)
    (back : ∀ m points w, m.Placed stack → m.records = some (mark points, some w) → engine.total.eval again m = engine.total.eval (y >>= f) (m.setRecords points (some w)))
    (calm : m.Calm stack) (inner : engine.Matches x x dx talk m)
    (rest : ∀ a talk' m', m'.Calm stack → engine.Matches again (f a) (g a) talk' m') :
    engine.Matches again (y >>= f) (dx >>= g) talk m := by
  unfold Matches
  rw [driven_then hx hx marks marks (fun m points w placed records _ =>
    back m points w placed records) calm]
  refine inner.andThen fun r talk' m' finished => ?_
  obtain ⟨placed', -, left, -⟩ := driven_finished hx hx calm.toPlaced (.inl calm.quiet) finished
  cases r with
  | ok a => exact rest a talk' m' ⟨placed', left⟩
  | error fault => exact .const _ _

theorem matches_within {body : Eval σ α} {e : EnvironmentId}
    (hz : engine.Turns (stack.setScope e m.varScope) F E z)
    (hbody : engine.Turns (stack.setScope e m.varScope) E E body)
    (back : ∀ m, m.Placed stack → m.Replays E →
      engine.total.eval again m = engine.total.eval (within e body) m)
    (calm : m.Calm stack)
    (inner : engine.Matches body z d talk (m.setScope e m.varScope)) :
    engine.Matches again (within e z) (Dialogue.within e d) talk m := by
  unfold Matches
  rw [driven_within hz hbody back calm.toPlaced rfl (.inl calm.quiet)]
  exact inner.map (·.mapMachine _) rfl

end Engine

theorem Answers.eval_takeRecord_calm {reading : ResumePoint → Option β} {next : Option β → Eval σ α}
    {stack : CallStack} (calm : m.Calm stack) :
    A.eval (takeRecord reading >>= next) m = A.eval (next none) m := by
  rw [takeRecord, eval_bind, eval_bind, eval_perform, Machine.takeResumePoint_apply calm.records]
  simp only [List.head?_nil, List.tail_nil, Machine.setRecords_self calm.records,
    proceed_ok, eval_pure]

theorem Answers.eval_takeRecord {reading : ResumePoint → Option β} {next : Option β → Eval σ α}
    {point : ResumePoint} {points : List ResumePoint} {resumption : Option Resumption}
    (records : m.records = some (point :: points, resumption)) :
    A.eval (takeRecord reading >>= next) m = A.eval (match reading point with
      | some b => next (some b)
      | none => throw (.internal (.resumePoint point))) (m.setRecords points resumption) := by
  rw [takeRecord, eval_bind, eval_bind, eval_perform, Machine.takeResumePoint_apply records]
  simp only [List.head?_cons, List.tail_cons, proceed_ok]
  cases reading point <;> rfl

theorem Answers.eval_resumeAt {points : List ResumePoint} {w : Resumption}
    (records : m.records = some (points, some w)) (span : Span) :
    A.eval (resumeAt span) m =
      .finished (Dialogue.deliver span w) (m.setRecords points none) := by
  rw [resumeAt, eval_bind, eval_perform, Machine.takeResumption_apply records]
  cases w <;> rfl

theorem Dialogue.bind_assoc {γ : Type} (d : Dialogue σ α) (f : α → Dialogue σ β)
    (g : β → Dialogue σ γ) : (d >>= f) >>= g = d >>= fun a => f a >>= g := by
  funext fuel talk m
  change ((d fuel talk m).andThen _).andThen _ = (d fuel talk m).andThen _
  cases d fuel talk m with
  | finished r talk m => cases r <;> rfl
  | waiting answers m => rfl
  | exhausted => rfl

namespace Engine

variable {engine : Engine σ} {stack : CallStack} {again : Eval σ α} {talk : Talk}

theorem follows_take {reading : ResumePoint → Option β} {next : Option β → Eval σ α}
    {d : Dialogue σ α} (h : engine.Follows stack again (next none) d) :
    engine.Follows stack again (takeRecord reading >>= next) d :=
  fun talk m calm => (h talk m calm).congr (engine.total.eval_takeRecord_calm calm)

theorem follows_yield {operand : Option Expr} {slot : Nat} {span : Span} {f : Yielded → Eval σ α}
    {g : Yielded → Dialogue σ α} (settled : engine.Settled (yieldOperand operand))
    (back : ∀ m w, m.Placed stack → m.records = some ([.yield slot], some w) →
      engine.total.eval again m =
        engine.total.eval (Eval.ofExcept (Dialogue.deliver span w) >>= f) (m.setRecords [] none))
    (follow : ∀ y, engine.Follows stack again (f y) (g y)) :
    engine.Follows stack again (suspendAt (yieldOperand operand) slot span >>= f)
      (Dialogue.yield engine operand span >>= g) := by
  intro talk m calm
  have fresh : engine.total.eval (suspendAt (yieldOperand operand) slot span >>= f) m =
      engine.total.eval (yieldOperand operand >>= fun v => do
        perform (.pushResumePoint (.yield slot))
        throw (.suspended v)) m := by
    obtain ⟨g, running⟩ := Option.ne_none_iff_exists'.1 calm.inside
    rw [suspendAt]
    simp only [eval_bind, eval_ask, proceed_ok, running]
    rcases engine.total.eval (yieldOperand operand) m with ⟨r, m'⟩ | _
    · cases r <;> rfl
    · rfl
  refine Matches.congr ?_ fresh
  rw [Dialogue.yield, Dialogue.bind_assoc]
  refine matches_bind settled calm fun v m₁ _ calm₁ => ?_
  have unwound : engine.total.eval (do
      perform (.pushResumePoint (.yield slot))
      throw (.suspended v) : Eval σ α) m₁ =
        .finished (.error (.suspended v)) (m₁.setRecords [.yield slot] none) := by
    rw [eval_bind, eval_perform, Machine.pushResumePoint_apply calm₁.records]
    rfl
  have calm₂ := calm₁.answer v false
  unfold Matches
  rw [driven_eq, unwound]
  simp only [Outcome.afterTurn, Machine.answer_setRecords]
  -- what the driver says next, if anything
  obtain ⟨resumptions, answers⟩ := talk
  cases resumptions with
  | nil =>
    simp only [respond, Machine.setRecords_setRecords, Machine.setRecords_self calm₂.records]
    exact .const _ _
  | cons w rest =>
    have records : ((m₁.answer v false).2.setRecords [.yield slot] none).records =
        some ([.yield slot], none) := Machine.records_setRecords calm₂.records
    simp only [respond]
    rw [Machine.resume_eq records, Machine.setRecords_setRecords,
      driven_congr (back _ w (calm₂.setRecords _ _) (Machine.records_setRecords calm₂.records)),
      Machine.setRecords_setRecords, Machine.setRecords_self calm₂.records]
    change engine.Matches again _ (Dialogue.ofExcept (Dialogue.deliver span w) >>= g) _ _
    have delivered {y : Yielded} (h : Dialogue.deliver span w = .ok y) :
        engine.Matches again (Eval.ofExcept (Dialogue.deliver span w) >>= f)
          (Dialogue.ofExcept (Dialogue.deliver span w) >>= g)
          ⟨rest, answers ++ [(m₁.answer v false).1]⟩ (m₁.answer v false).2 := by
      rw [h]
      exact (follow y _ _ calm₂).congr rfl
    cases w with
    | next v => exact delivered rfl
    | «return» v => exact delivered rfl
    | throw v => exact matches_ofExcept (unsuspended_error.2 (by simp))

end Engine

/-- A part of a statement that is resumed by records of its own, with the dialogue that follows
it. -/
structure Engine.Performs (engine : Engine σ) (E : Bool → List ResumePoint → Prop) (x : Eval σ α)
    (d : Dialogue σ α) : Prop where
  resumes : ∀ fuel strict,
    Resumes (engine.promises Moment.Orderly fuel) strict (E strict) (E strict) x
  follows : ∀ stack, engine.Follows stack x x d

namespace Engine.Performs

variable {engine : Engine σ} {E : Bool → List ResumePoint → Prop} {x : Eval σ α} {d : Dialogue σ α}

variable (h : engine.Performs E x d)

include h

theorem turns (stack : CallStack) : engine.Turns stack (E stack.strict) (E stack.strict) x :=
  turns_of_resumes fun fuel => h.resumes fuel stack.strict

theorem within (e : EnvironmentId) : engine.Performs E (Eval.within e x) (Dialogue.within e d) := by
  refine ⟨fun fuel strict => resumes_within
    (h.resumes fuel strict) e, fun stack talk m calm => ?_⟩
  have turns := h.turns (stack.setScope e m.varScope)
  exact matches_within turns turns (fun _ _ _ => rfl) calm
    (h.follows _ talk _ (calm.setScope e m.varScope))

theorem withinSome (scope : Option EnvironmentId) :
    engine.Performs E (Eval.withinSome scope x) (Dialogue.withinSome scope d) := by
  cases scope with
  | none => exact h
  | some e => exact h.within e

section

variable {stack : CallStack} {point : ResumePoint}

theorem recording {again : Eval σ β} {f : α → Eval σ β} {g : α → Dialogue σ β}
    (back : ∀ m points w, m.Placed stack → m.records = some (point :: points, some w) →
      engine.total.eval again m = engine.total.eval (Eval.recording point x >>= f)
        (m.setRecords points (some w)))
    (rest : ∀ a, engine.Follows stack again (f a) (g a)) :
    engine.Follows stack again (Eval.recording point x >>= f) (d >>= g) :=
  fun talk m calm => matches_then (h.turns stack) (marks_recording point x) back calm
    (h.follows stack talk m calm) fun a talk' m' calm' => rest a talk' m' calm'

theorem recorded {again : Eval σ α}
    (back : ∀ m points w, m.Placed stack → m.records = some (point :: points, some w) →
      engine.total.eval again m = engine.total.eval (Eval.recording point x)
        (m.setRecords points (some w))) :
    engine.Follows stack again (Eval.recording point x) d := by
  have same (m : Machine σ) : engine.total.eval (Eval.recording point x >>= pure) m =
      engine.total.eval (Eval.recording point x) m := by
    rw [eval_bind]
    rcases engine.total.eval (Eval.recording point x) m with ⟨r, m'⟩ | _
    · cases r <;> rfl
    · rfl
  have unchanged : d >>= pure = d := by
    funext fuel talk m
    change (d fuel talk m).andThen _ = d fuel talk m
    rcases d fuel talk m with ⟨r, _, _⟩ | _ | _
    · cases r <;> rfl
    · rfl
    · rfl
  intro talk m calm
  rw [← unchanged]
  refine Matches.congr (h.recording ?_ (fun a _ _ _ => matches_pure a) talk m calm) (same m).symm
  intro m points w placed records
  rw [back m points w placed records, same]

end

end Engine.Performs

end ScriptEngine
