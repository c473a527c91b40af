import ScriptEngine.Proofs.Generator.InPlace
import ScriptEngine.Proofs.Generator.StateMachine

/-!
# Replay

`Engine.driven` says what an evaluation and its driver come to when each suspension unwinds the
evaluation and each resumption enters it again. `Engine.Matches` compares that with a dialogue in
place.
-/

namespace ScriptEngine

open Eval

variable {σ α β : Type}

/-! ## Answers to the driver -/

def Machine.answer (m : Machine σ) (v : Value) (done : Bool) : Value × Machine σ :=
  let properties := Table.empty
    |>.insert "value" (.data v)
    |>.insert "done" (.data (.boolean done))
  let allocated :=
    (Effect.allocate { prototype := some m.realm.objectPrototype, properties }).apply m
  (.object allocated.1, allocated.2)

namespace Machine

variable {m : Machine σ} {v : Value} {done : Bool}

theorem answer_setScope (lexical varScope : EnvironmentId) :
    (m.setScope lexical varScope).answer v done =
      ((m.answer v done).1, (m.answer v done).2.setScope lexical varScope) := rfl

theorem answer_setRecords (points : List ResumePoint) (resumption : Option Resumption) :
    (m.setRecords points resumption).answer v done =
      ((m.answer v done).1, (m.answer v done).2.setRecords points resumption) := by
  have running : (m.answer v done).2.runningGenerator? = m.runningGenerator? := rfl
  simp only [setRecords, running]
  split <;> rfl

def resume (m : Machine σ) (w : Resumption) : Machine σ :=
  match m.runningGenerator? with
  | none => m
  | some g => m.modifyGenerator g fun generator => { generator with resumption := some w }

theorem resume_eq {points : List ResumePoint} {resumption : Option Resumption}
    (h : m.records = some (points, resumption)) (w : Resumption) :
    m.resume w = m.setRecords points (some w) := by
  obtain ⟨g, generator, running, hg, rfl, -⟩ := records_eq_some.1 h
  simp only [resume, setRecords, running]
  exact modifyGenerator_congr hg rfl

end Machine

namespace Exchange

@[simp] theorem andThen_finished (a : α) (talk : Talk) (m : Machine σ)
    (next : α → Talk → Machine σ → Exchange σ β) :
    (Exchange.finished a talk m).andThen next = next a talk m := rfl

@[simp] theorem andThen_waiting (answers : List Value) (m : Machine σ)
    (next : α → Talk → Machine σ → Exchange σ β) :
    (Exchange.waiting answers m : Exchange σ α).andThen next = .waiting answers m := rfl

@[simp] theorem andThen_exhausted (next : α → Talk → Machine σ → Exchange σ β) :
    (Exchange.exhausted : Exchange σ α).andThen next = .exhausted := rfl

abbrev Approaches (f : Nat → Exchange σ α) (e : Exchange σ α) : Prop :=
  ScriptEngine.Approaches .exhausted f e

theorem Approaches.andThen {f : Nat → Exchange σ α} {e : Exchange σ α}
    {next : Nat → α → Talk → Machine σ → Exchange σ β} {last : α → Talk → Machine σ → Exchange σ β}
    (h : Approaches f e)
    (hnext : ∀ a talk m, e = .finished a talk m →
      Approaches (fun n => next n a talk m) (last a talk m)) :
    Approaches (fun n => (f n).andThen (next n)) (e.andThen last) := by
  refine h.follow (g := fun n e => e.andThen (next n)) (fun _ => rfl) ?_ fun hb => ?_
  · rintro rfl
    rfl
  · cases e with
    | exhausted => exact absurd rfl hb
    | waiting answers m => exact .const _ _
    | finished a talk m => exact hnext a talk m rfl

end Exchange

theorem Dialogue.silent_approaches (engine : Engine σ) (x : Eval σ α) (talk : Talk)
    (m : Machine σ) :
    Exchange.Approaches (fun n => Dialogue.silent engine x n talk m)
      ((engine.total.eval x m).exchange talk) :=
  (engine.run_approaches x m).map (·.exchange talk) rfl

def Outcome.afterTurn (o : Outcome σ (Except Fault α)) (talk : Talk)
    (next : Value → Machine σ → Exchange σ (Except Fault α)) : Exchange σ (Except Fault α) :=
  match o with
  | .finished (.error (.suspended v)) m => next (m.answer v false).1 (m.answer v false).2
  | .finished r m => .finished r talk m
  | .exhausted => .exhausted

noncomputable def Engine.drivenFrom (engine : Engine σ) (again : Eval σ α) :
    List Resumption → List Value → Eval σ α → Machine σ → Exchange σ (Except Fault α)
  | [], answers, z, m =>
    (engine.total.eval z m).afterTurn ⟨[], answers⟩ fun answer m =>
      .waiting (answers ++ [answer]) (m.setRecords [] none)
  | w :: rest, answers, z, m =>
    (engine.total.eval z m).afterTurn ⟨w :: rest, answers⟩ fun answer m =>
      engine.drivenFrom again rest (answers ++ [answer]) again (m.resume w)

noncomputable def Engine.driven (engine : Engine σ) (again z : Eval σ α) (talk : Talk)
    (m : Machine σ) : Exchange σ (Except Fault α) :=
  engine.drivenFrom again talk.resumptions talk.answers z m

noncomputable def Engine.respond (engine : Engine σ) (again : Eval σ α) (talk : Talk)
    (answer : Value) (m : Machine σ) : Exchange σ (Except Fault α) :=
  match talk.resumptions with
  | [] => .waiting (talk.answers ++ [answer]) (m.setRecords [] none)
  | w :: rest => engine.driven again again ⟨rest, talk.answers ++ [answer]⟩ (m.resume w)

theorem Engine.driven_eq (engine : Engine σ) (again z : Eval σ α) (talk : Talk) (m : Machine σ) :
    engine.driven again z talk m =
      (engine.total.eval z m).afterTurn talk (engine.respond again talk) := by
  obtain ⟨resumptions, answers⟩ := talk
  cases resumptions <;> rfl

theorem Engine.driven_congr {engine : Engine σ} {again z z' : Eval σ α} {talk : Talk}
    {m m' : Machine σ} (h : engine.total.eval z m = engine.total.eval z' m') :
    engine.driven again z talk m = engine.driven again z' talk m' := by
  rw [driven_eq, driven_eq, h]

/-! ## Machines in the body of a generator -/

def CallStack.strict (s : CallStack) : Bool := s.running?.any (·.strict)

structure Machine.Placed (m : Machine σ) (stack : CallStack) : Prop where
  orderly : m.Orderly
  stack : m.stack = stack
  limits : m.limits = []
  inside : m.runningGenerator? ≠ none

structure Machine.Calm (m : Machine σ) (stack : CallStack) : Prop extends m.Placed stack where
  quiet : m.Quiet

theorem limits_kept : Kept fun m m' : Machine σ => m.limits = [] → m'.limits = [] where
  refl _ := id
  trans h₁ h₂ := h₂ ∘ h₁
  effect effect m h := by
    cases effect with
    | checkLimits | resetLimits => simp [Effect.apply, h, Limit.checkAll]
    | startRun g resumption =>
      simp only [Effect.apply]
      repeat' split
      all_goals exact h
    | takeResumePoint | pushResumePoint point | takeResumption =>
      simp only [Effect.apply]
      split <;> exact h
    | _ => exact h
  scope _ _ h := h
  frame _ h := h

namespace Machine

variable {m m' : Machine σ} {stack : CallStack}

theorem Calm.records (h : m.Calm stack) : m.records = some ([], none) := by
  cases hr : m.records with
  | none => exact absurd (h.orderly.records_eq_none.1 hr) h.inside
  | some records => rw [h.quiet _ hr]

theorem Placed.calm (h : m.Placed stack) (records : m.records = some ([], none)) :
    m.Calm stack :=
  ⟨h, fun _ hr => by simpa [records] using hr.symm⟩

theorem Placed.answer (h : m.Placed stack) (v : Value) (done : Bool) :
    (m.answer v done).2.Placed stack :=
  ⟨h.orderly.congr rfl rfl, h.stack, h.limits, h.inside⟩

theorem Calm.answer (h : m.Calm stack) (v : Value) (done : Bool) :
    (m.answer v done).2.Calm stack :=
  (h.toPlaced.answer v done).calm h.records

theorem Placed.setRecords (h : m.Placed stack) (points : List ResumePoint)
    (resumption : Option Resumption) : (m.setRecords points resumption).Placed stack := by
  cases hr : m.records with
  | none => exact absurd (h.orderly.records_eq_none.1 hr) h.inside
  | some records =>
    refine ⟨h.orderly.setRecords hr, setRecords_stack.trans h.stack, ?_, ?_⟩
    · simp only [Machine.setRecords]
      split <;> exact h.limits
    · rw [runningGenerator?, setRecords_stack]
      exact h.inside

end Machine

def Engine.Turns (engine : Engine σ) (stack : CallStack) (E F : List ResumePoint → Prop)
    (x : Eval σ α) : Prop :=
  ∀ m r m', m.Placed stack → m.Quiet ∨ m.Replays E → engine.total.eval x m = .finished r m' →
    m'.Placed stack ∧ m'.Left F (Except.fault? r)

def Engine.Settled (engine : Engine σ) (x : Eval σ α) : Prop :=
  ∀ stack m r m', m.Calm stack → engine.total.eval x m = .finished r m' →
    m'.Calm stack ∧ Unsuspended r

namespace Engine

variable {engine : Engine σ}

theorem turns_of_resumes {stack : CallStack} {E F : List ResumePoint → Prop} {x : Eval σ α}
    (h : ∀ fuel, Resumes (engine.promises Moment.Orderly fuel) stack.strict E F x) :
    engine.Turns stack E F x := by
  intro m r m' placed entered run
  obtain ⟨fuel, run⟩ := engine.exists_run_iff.2 run
  have strict : m.strict = stack.strict := by rw [← placed.stack]; rfl
  obtain ⟨orderly, advances, left⟩ :=
    engine.safe_result run (h fuel m placed.orderly strict entered)
  exact ⟨⟨orderly, advances.stack.trans placed.stack, limits_kept.run engine run placed.limits,
    advances.running ▸ placed.inside⟩, left⟩

theorem settled_of_plain (fair : engine.Fair) {x : Eval σ α} (plain : Plain x) : engine.Settled x := by
  intro stack m r m' calm run
  obtain ⟨fuel, run⟩ := engine.exists_run_iff.2 run
  have kept := promises_kept fair fuel
  obtain ⟨orderly, steady, unsuspended⟩ :=
    engine.safe_result run (plain.ordinary kept.calls m calm.orderly)
  exact ⟨⟨⟨orderly, steady.stack.trans calm.stack, limits_kept.run engine run calm.limits,
    steady.runningGenerator? ▸ calm.inside⟩, calm.quiet.congr (steady.records calm.orderly)⟩,
    unsuspended⟩

end Engine

/-! ## Whole dialogues -/

theorem Talk.shorter_induction {motive : Talk → Prop}
    (step : ∀ talk, (∀ shorter : Talk,
      shorter.resumptions.length < talk.resumptions.length → motive shorter) → motive talk)
    (talk : Talk) : motive talk :=
  (measure fun talk : Talk => talk.resumptions.length).wf.induction talk step

theorem Outcome.afterTurn_unsuspended {r : Except Fault α} (h : Unsuspended r) (m : Machine σ)
    (talk : Talk) (next : Value → Machine σ → Exchange σ (Except Fault α)) :
    (Outcome.finished r m).afterTurn talk next = .finished r talk m := by
  unfold Outcome.afterTurn
  split
  · rename_i v _ finished
    cases finished
    exact absurd rfl (h v)
  · rename_i finished
    cases finished
    rfl
  · rename_i finished
    cases finished

theorem Machine.Left.quiet {m : Machine σ} {F : List ResumePoint → Prop} {r : Except Fault α}
    (h : m.Left F (Except.fault? r)) (unsuspended : Unsuspended r)
    (noAbort : ∀ fault, r = .error fault → fault.isHostAbort = false) : m.Quiet := by
  cases r with
  | ok a => exact h
  | error fault =>
    have noAbort := noAbort fault rfl
    cases fault with
    | suspended v => exact absurd rfl (unsuspended v)
    | _ => exact (h.resolve_left (by simp_all))

namespace Engine

variable {engine : Engine σ} {stack : CallStack} {E F : List ResumePoint → Prop} {m : Machine σ}

theorem Turns.resumed (placed : m.Placed stack) (left : m.Unwinds E) (v : Value) (w : Resumption) :
    ((m.answer v false).2.resume w).Placed stack ∧ ((m.answer v false).2.resume w).Replays E := by
  obtain ⟨points, records, fits⟩ := left
  rw [Machine.resume_eq (m := (m.answer v false).2) records w]
  exact ⟨(placed.answer v false).setRecords points (some w),
    points, w, Machine.records_setRecords (m := (m.answer v false).2) records, fits⟩

theorem driven_finished {again z : Eval σ α} (hz : engine.Turns stack F E z)
    (hagain : engine.Turns stack E E again) {talk talk' : Talk} {m' : Machine σ}
    {r : Except Fault α} (placed : m.Placed stack) (entered : m.Quiet ∨ m.Replays F)
    (h : engine.driven again z talk m = .finished r talk' m') :
    m'.Placed stack ∧ Unsuspended r ∧ m'.Left E (Except.fault? r) ∧
      (talk' = talk ∧ engine.total.eval z m = .finished r m' ∨
        talk'.resumptions.length < talk.resumptions.length) := by
  induction talk using Talk.shorter_induction generalizing m z F with | step talk ih => ?_
  rw [driven_eq] at h
  cases run : engine.total.eval z m with
  | exhausted =>
    rw [run] at h
    cases h
  | finished r₀ m₀ =>
    obtain ⟨placed₀, left⟩ := hz m r₀ m₀ placed entered run
    rw [run] at h
    by_cases suspended : ∃ v, r₀ = .error (.suspended v)
    · obtain ⟨v, rfl⟩ := suspended
      obtain ⟨resumptions, answers⟩ := talk
      cases resumptions with
      | nil => cases h
      | cons w rest =>
        obtain ⟨placed₁, replays⟩ := Turns.resumed placed₀ left v w
        obtain ⟨placed', unsuspended, left', talked⟩ :=
          ih _ (Nat.lt_succ_self _) hagain placed₁ (.inr replays) h
        refine ⟨placed', unsuspended, left', .inr ?_⟩
        rcases talked with ⟨rfl, _⟩ | less
        · exact Nat.lt_succ_self _
        · exact Nat.lt_succ_of_lt less
    · have unsuspended : Unsuspended r₀ := fun v hv => suspended ⟨v, hv⟩
      rw [Outcome.afterTurn_unsuspended unsuspended] at h
      cases h
      exact ⟨placed₀, unsuspended, left, .inl ⟨rfl, rfl⟩⟩

theorem driven_result {again z : Eval σ α} {Q : Except Fault α → Prop}
    (hz : ∀ m r m', engine.total.eval z m = .finished r m' → Q r)
    (hagain : ∀ m r m', engine.total.eval again m = .finished r m' → Q r) {talk talk' : Talk}
    {m' : Machine σ} {r : Except Fault α} (h : engine.driven again z talk m = .finished r talk' m') :
    Q r := by
  induction talk using Talk.shorter_induction generalizing m z with | step talk ih => ?_
  rw [driven_eq] at h
  cases run : engine.total.eval z m with
  | exhausted =>
    rw [run] at h
    cases h
  | finished r₀ m₀ =>
    rw [run] at h
    by_cases suspended : ∃ v, r₀ = .error (.suspended v)
    · obtain ⟨v, rfl⟩ := suspended
      obtain ⟨resumptions, answers⟩ := talk
      cases resumptions with
      | nil => cases h
      | cons w rest => exact ih _ (Nat.lt_succ_self _) hagain h
    · rw [Outcome.afterTurn_unsuspended fun v hv => suspended ⟨v, hv⟩] at h
      cases h
      exact hz m _ _ run

/-- Evaluating `y` is evaluating `x`, but when `x` is suspended with some records, `y` is suspended
with others. -/
structure Marks (engine : Engine σ) (mark : List ResumePoint → List ResumePoint)
    (x y : Eval σ α) : Prop where
  exhausted : ∀ {m}, engine.total.eval x m = .exhausted → engine.total.eval y m = .exhausted
  unsuspended : ∀ {m r m'}, Unsuspended r → engine.total.eval x m = .finished r m' →
    engine.total.eval y m = .finished r m'
  suspended : ∀ {m m' v points}, engine.total.eval x m = .finished (.error (.suspended v)) m' →
    m'.records = some (points, none) → engine.total.eval y m =
      .finished (.error (.suspended v)) (m'.setRecords (mark points) none)

theorem marks_self (x : Eval σ α) : engine.Marks id x x :=
  ⟨id, fun _ run => run, fun run records => by rw [run, id, Machine.setRecords_self records]⟩

theorem marks_recording (point : ResumePoint) (x : Eval σ α) :
    engine.Marks (point :: ·) x (recording point x) := by
  constructor
  · intro m exhausted
    rw [recording, eval_bind, eval_outcome, exhausted]
    rfl
  · intro m r m' unsuspended finished
    rw [recording, eval_bind, eval_outcome, finished]
    cases r with
    | ok a => rfl
    | error fault =>
      cases fault with
      | suspended v => exact absurd rfl (unsuspended v)
      | _ => rfl
  · intro m m' v points finished records
    have pushed : ((Effect.pushResumePoint point).apply m').2 =
        m'.setRecords (point :: points) none := by rw [Machine.pushResumePoint_apply records]
    rw [recording, eval_bind, eval_outcome, finished, ← pushed]
    rfl

theorem driven_handle {x y x₀ y₀ : Eval σ α} {mark : List ResumePoint → List ResumePoint}
    (hx : engine.Turns stack F E x) (hx₀ : engine.Turns stack E E x₀)
    (marks : engine.Marks mark x y) (marks₀ : engine.Marks mark x₀ y₀) {again : Eval σ β}
    {post : Except Fault α → Eval σ β}
    (passes : ∀ v, post (.error (.suspended v)) = throw (.suspended v))
    (back : ∀ m points w, m.Placed stack → m.records = some (mark points, some w) → E points →
      engine.total.eval again m =
        engine.total.eval (outcome y₀ >>= post) (m.setRecords points (some w))) {talk : Talk}
    (placed : m.Placed stack) (entered : m.Quiet ∨ m.Replays F) :
    engine.driven again (outcome y >>= post) talk m =
      (engine.driven x₀ x talk m).andThen fun r => engine.driven again (post r) := by
  induction talk using Talk.shorter_induction generalizing m x y F with | step talk ih => ?_
  rw [driven_eq, driven_eq engine x₀]
  cases run : engine.total.eval x m with
  | exhausted =>
    rw [eval_bind, eval_outcome, marks.exhausted run]
    rfl
  | finished r m₀ =>
    obtain ⟨placed₀, left⟩ := hx m r m₀ placed entered run
    by_cases suspended : ∃ v, r = .error (.suspended v)
    · obtain ⟨v, rfl⟩ := suspended
      obtain ⟨points, records, fits⟩ := left
      have records' : (m₀.answer v false).2.records = some (points, none) := records
      have unwound : engine.total.eval (outcome y >>= post) m =
          .finished (.error (.suspended v)) (m₀.setRecords (mark points) none) := by
        rw [eval_bind, eval_outcome, marks.suspended run records]
        simp only [Outcome.andThen_finished, proceed_ok, passes, eval_throw]
      rw [unwound]
      simp only [Outcome.afterTurn, Machine.answer_setRecords]
      obtain ⟨resumptions, answers⟩ := talk
      cases resumptions with
      | nil => simp only [respond, Machine.setRecords_setRecords, Exchange.andThen_waiting]
      | cons w rest =>
        obtain ⟨placed₁, replays⟩ := Turns.resumed placed₀ ⟨points, records, fits⟩ v w
        have marked : ((m₀.answer v false).2.setRecords (mark points) none).records =
            some (mark points, none) := Machine.records_setRecords records'
        simp only [respond]
        rw [Machine.resume_eq marked, Machine.setRecords_setRecords,
          driven_congr (back _ points w ((placed₀.answer v false).setRecords _ _)
            (Machine.records_setRecords records') fits),
          Machine.setRecords_setRecords, ← Machine.resume_eq records']
        exact ih _ (Nat.lt_succ_self _) hx₀ marks₀ placed₁ (.inr replays)
    · have unsuspended : Unsuspended r := fun v hv => suspended ⟨v, hv⟩
      have rest : engine.total.eval (outcome y >>= post) m =
          engine.total.eval (post r) m₀ := by
        rw [eval_bind, eval_outcome, marks.unsuspended unsuspended run]
        rfl
      rw [rest, Outcome.afterTurn_unsuspended unsuspended, Exchange.andThen_finished, driven_eq]

end Engine

namespace Machine

variable {m m' : Machine σ} {stack : CallStack}

theorem Orderly.scope_eq (h : m.Orderly) (same : m'.stack = m.stack) :
    m'.lexical = m.lexical ∧ m'.varScope = m.varScope := by
  have root := h.root
  cases frames : m.stack.frames with
  | nil => simp [links, frames] at root
  | cons frame rest => simp [lexical, varScope, same, CallStack.running?, frames]

theorem setRecords_setScope (lexical varScope : EnvironmentId) (points : List ResumePoint)
    (resumption : Option Resumption) :
    (m.setScope lexical varScope).setRecords points resumption =
      (m.setRecords points resumption).setScope lexical varScope := by
  have running : (m.setScope lexical varScope).runningGenerator? = m.runningGenerator? := by
    simp only [runningGenerator?_eq, links_setScope]
  simp only [setRecords, running]
  split <;> rfl

theorem resume_setScope (lexical varScope : EnvironmentId) (w : Resumption) :
    (m.setScope lexical varScope).resume w = (m.resume w).setScope lexical varScope := by
  have running : (m.setScope lexical varScope).runningGenerator? = m.runningGenerator? := by
    simp only [runningGenerator?_eq, links_setScope]
  simp only [resume, running]
  split <;> rfl

theorem Placed.setScope (h : m.Placed stack) (lexical varScope : EnvironmentId) :
    (m.setScope lexical varScope).Placed (stack.setScope lexical varScope) := by
  refine ⟨h.orderly.setScope lexical varScope, ?_, h.limits, ?_⟩
  · rw [← h.stack]
    rfl
  · rw [runningGenerator?_eq, links_setScope, ← runningGenerator?_eq]
    exact h.inside

theorem Calm.setScope (h : m.Calm stack) (lexical varScope : EnvironmentId) :
    (m.setScope lexical varScope).Calm (stack.setScope lexical varScope) :=
  ⟨h.toPlaced.setScope lexical varScope, h.quiet.congr (m.records_setScope lexical varScope)⟩

theorem setScope_setScope {lexical varScope : EnvironmentId} (l v : EnvironmentId)
    (h : m.stack = stack.setScope lexical varScope) :
    (m.setScope l v).setScope lexical varScope = m := by
  have again : (m.stack.setScope l v).setScope lexical varScope = m.stack := by
    rw [h]
    obtain ⟨frames⟩ := stack
    cases frames <;> rfl
  simp only [Machine.setScope, again]

end Machine

namespace Engine

variable {engine : Engine σ} {stack : CallStack} {E F : List ResumePoint → Prop}

theorem driven_within {again z body : Eval σ α} {e v : EnvironmentId}
    (hz : engine.Turns (stack.setScope e v) F E z)
    (hbody : engine.Turns (stack.setScope e v) E E body)
    (back : ∀ m, m.Placed stack → m.Replays E →
      engine.total.eval again m = engine.total.eval (within e body) m)
    {talk : Talk} {m : Machine σ} (placed : m.Placed stack) (own : m.varScope = v)
    (entered : m.Quiet ∨ m.Replays F) :
    engine.driven again (within e z) talk m =
      (engine.driven body z talk (m.setScope e v)).mapMachine (·.setScope m.lexical m.varScope) := by
  induction talk using Talk.shorter_induction generalizing m z F with | step talk ih => ?_
  have entered' : (m.setScope e v).Quiet ∨ (m.setScope e v).Replays F := by
    simpa only [Machine.Quiet, Machine.Replays, m.records_setScope] using entered
  rw [driven_eq, driven_eq, eval_within, own]
  cases run : engine.total.eval z (m.setScope e v) with
  | exhausted => rfl
  | finished r m₀ =>
    obtain ⟨placed₀, left⟩ := hz _ r m₀ (placed.setScope e v) entered' run
    rw [Outcome.andThen_finished]
    by_cases suspended : ∃ v, r = .error (.suspended v)
    · obtain ⟨value, rfl⟩ := suspended
      obtain ⟨points, records, fits⟩ := left
      simp only [Outcome.afterTurn, Machine.answer_setScope]
      obtain ⟨resumptions, answers⟩ := talk
      cases resumptions with
      | nil => simp only [respond, Machine.setRecords_setScope, Exchange.mapMachine]
      | cons w rest =>
        obtain ⟨placed₁, replays⟩ := Turns.resumed placed₀ ⟨points, records, fits⟩ value w
        simp only [respond, Machine.resume_setScope]
        generalize (m₀.answer value false).2.resume w = inner at placed₁ replays
        have restored : (stack.setScope e v).setScope m.lexical v = stack := by
          rw [← placed.stack, ← own]
          exact m.setScope_restores e m.varScope
        have placed' := placed₁.setScope m.lexical v
        rw [restored] at placed'
        have replays' : (inner.setScope m.lexical v).Replays E := by
          simpa only [Machine.Replays, inner.records_setScope] using replays
        obtain ⟨lexical, varScope⟩ := placed.orderly.scope_eq
          (placed'.stack.trans placed.stack.symm)
        rw [driven_congr (back _ placed' replays'), ih _ (Nat.lt_succ_self _) hbody placed'
          (varScope.trans own) (.inr replays'), Machine.setScope_setScope _ _ placed₁.stack,
          lexical, varScope, own]
    · have unsuspended : Unsuspended r := fun v hv => suspended ⟨v, hv⟩
      rw [Outcome.afterTurn_unsuspended unsuspended, Outcome.afterTurn_unsuspended unsuspended]
      rfl

end Engine

end ScriptEngine
