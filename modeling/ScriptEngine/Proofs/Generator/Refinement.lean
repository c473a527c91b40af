import ScriptEngine.Proofs.Generator.Performing

/-!
# Replay refines a run in place

A generator is driven through its object. What the driver is told, drive by drive, and the machine
that is left in the end are those of a run of the body in place (`driveAll_iff_runInPlace`).
-/

namespace ScriptEngine

open Eval

variable {σ : Type} {g : GeneratorId} {frame : Frame} {brand : Option String} {engine : Engine σ}
  {receiver : Value} (A : Answers σ)

def Answers.driveAll (A : Answers σ) (shortcuts : Bool) (receiver : Value) (brand : Option String)
    (g : GeneratorId) : List Resumption → Machine σ → Outcome σ (List (Except Fault Value))
  | [], m => .finished [] m
  | w :: rest, m => (A.eval (drive shortcuts receiver w brand) m).andThen fun result m =>
    if (m.generator? g).any (·.state = .completed) then .finished [result] m
    else (A.driveAll shortcuts receiver brand g rest m).andThen fun results m =>
      .finished (result :: results) m

def Engine.driveAll (engine : Engine σ) (fuel : Nat) (receiver : Value) (brand : Option String)
    (g : GeneratorId) (resumptions : List Resumption) (m : Machine σ) :
    Outcome σ (List (Except Fault Value)) :=
  (engine.answers fuel).driveAll engine.shortcuts receiver brand g resumptions m

theorem Engine.driveAll_approaches (engine : Engine σ) (receiver : Value) (brand : Option String)
    (g : GeneratorId) (resumptions : List Resumption) (m : Machine σ) :
    Outcome.Approaches (fun fuel => engine.driveAll fuel receiver brand g resumptions m)
      (engine.total.driveAll engine.shortcuts receiver brand g resumptions m) := by
  induction resumptions generalizing m with
  | nil => exact .const _ _
  | cons w rest ih =>
    refine (engine.run_approaches _ m).andThen fun result m' => ?_
    split
    · exact .const _ _
    · exact (ih m').andThen fun _ _ => .const _ _

def Machine.withoutRecords (m : Machine σ) (g : GeneratorId) : Machine σ :=
  m.modifyGenerator g fun generator => { generator with resumePoints := [] }

theorem Answers.eval_runGenerator {m : Machine σ} {generator : Generator}
    (hg : m.generator? g = some generator) (parked : generator.frame = some frame)
    (room : m.isFull = false) (shortcuts : Bool) (resumption : Option Resumption) :
    A.eval (runGenerator shortcuts g resumption) m =
      (A.eval (generator.closure.node.run shortcuts)
        ((m.modifyGenerator g (·.run resumption)).push frame)).andThen fun r m' =>
          A.eval (finishRun g frame r) m'.pop := by
  have started : (Effect.startRun g resumption).apply m =
      (.ok (frame, generator.closure), m.modifyGenerator g (·.run resumption)) := by
    simp only [Effect.apply, hg, parked, room, Bool.false_eq_true, if_false]
  rw [runGenerator, eval_bind, eval_attempt, started, proceed_ok, eval_bind, eval_outcome,
    eval_inFrame]
  cases A.eval (generator.closure.node.run shortcuts)
    ((m.modifyGenerator g (·.run resumption)).push frame) <;> rfl

theorem finishRun_eq {r : Except Fault Completion} (h : Unsuspended r) (g : GeneratorId)
    (frame : Frame) : (finishRun g frame r : Eval σ Value) = concludeRun g r := by
  cases r with
  | ok completion => rfl
  | error fault =>
    cases fault with
    | suspended v => exact absurd rfl (h v)
    | _ => rfl

theorem Answers.eval_concludeRun (m : Machine σ) (g : GeneratorId) (r : Except Fault Completion) :
    ∃ result m', A.eval (concludeRun g r) m = .finished result m' ∧
      m'.generators = (m.modifyGenerator g (·.complete)).generators := by
  cases r with
  | error fault => exact ⟨_, _, rfl, rfl⟩
  | ok completion =>
    have ended (m : Machine σ) : ∃ result m', A.eval (do
        let v ← Eval.ofExcept completion.result
        iterationResult v true : Eval σ Value) m = .finished result m' ∧
          m'.generators = m.generators := by
      cases completion.result with
      | error fault => exact ⟨_, _, rfl, rfl⟩
      | ok v => exact ⟨_, _, rfl, rfl⟩
    exact ended (m.modifyGenerator g (·.complete))

/-! ## A generator between two drives -/

structure Machine.Drives (m : Machine σ) (receiver : Value) (brand : Option String)
    (g : GeneratorId) (generator : Generator) (frame : Frame) : Prop where
  orderly : m.Orderly
  limits : m.limits = []
  room : m.isFull = false
  drivable : m.drivable receiver brand = .ok (g, generator)
  parked : generator.frame = some frame

inductive Generator.Takes (generator : Generator) : Resumption → Option Resumption → Prop where
  | start {v : Value} (state : generator.state = .suspendedStart) : generator.Takes (.next v) none
  | resume {w : Resumption} (state : generator.state = .suspendedYield) :
      generator.Takes w (some w)

theorem Generator.Takes.ready {generator : Generator} {w : Resumption}
    {resumption : Option Resumption} (h : generator.Takes w resumption) :
    generator.Ready resumption := by
  cases h with
  | start state => exact .inl ⟨state, rfl⟩
  | resume state => exact .inr ⟨state, rfl⟩

theorem Answers.eval_drive {m : Machine σ} {generator : Generator} {w : Resumption}
    {resumption : Option Resumption} (drivable : m.drivable receiver brand = .ok (g, generator))
    (takes : generator.Takes w resumption) (shortcuts : Bool) :
    A.eval (drive shortcuts receiver w brand) m = A.eval (runGenerator shortcuts g resumption) m := by
  rw [drive, eval_bind, eval_askFor, drivable, proceed_ok]
  cases takes with
  | start state => simp only [state]
  | resume state => simp only [state]

namespace Machine.Drives

variable {m m' : Machine σ} {generator : Generator} {w : Resumption}
  {resumption : Option Resumption}

variable (h : m.Drives receiver brand g generator frame)

include h

theorem found : m.generator? g = some generator :=
  (drivable_eq_ok.1 h.drivable).2.1

theorem placed (takes : generator.Takes w resumption) :
    ((m.modifyGenerator g (·.run resumption)).push frame).Placed (m.stack.push frame) ∧
      (((m.modifyGenerator g (·.run resumption)).push frame).Quiet ∨
        ((m.modifyGenerator g (·.run resumption)).push frame).Replays
          (generator.closure.node.body.Fits frame.strict)) := by
  obtain ⟨own, entered⟩ := h.orderly.entered h.found takes.ready h.parked
  have idle := (drivable_eq_ok.1 h.drivable).2.2.2
  have running : ((m.modifyGenerator g (·.run resumption)).push frame).runningGenerator? = some g :=
    own
  exact ⟨⟨h.orderly.enter h.found idle resumption own, rfl, h.limits, by rw [running]; nofun⟩,
    entered⟩

theorem eval_drive (takes : generator.Takes w resumption) (A : Answers σ) (shortcuts : Bool) :
    A.eval (drive shortcuts receiver w brand) m =
      (A.eval (generator.closure.node.run shortcuts)
        ((m.modifyGenerator g (·.run resumption)).push frame)).andThen fun r m' =>
          A.eval (finishRun g frame r) m'.pop := by
  rw [A.eval_drive h.drivable takes, A.eval_runGenerator h.found h.parked h.room]

theorem after (fair : engine.Fair) {result : Except Fault Value}
    (run : engine.total.eval (drive engine.shortcuts receiver w brand) m = .finished result m')
    {generator' : Generator} (hg : m'.generator? g = some generator')
    (brand' : generator'.brand = brand) (idle : generator'.state ≠ .executing) {frame' : Frame}
    (parked : generator'.frame = some frame') : m'.Drives receiver brand g generator' frame' := by
  obtain ⟨fuel, run⟩ := engine.exists_run_iff.2 run
  obtain ⟨orderly, steady, -⟩ := engine.safe_result run
    (ordinary_drive (Engine.promises_kept fair fuel) engine.shortcuts receiver w brand m h.orderly)
  refine ⟨orderly, limits_kept.run engine run h.limits, ?_, drivable_eq_ok.2
    ⟨?_, hg, brand', idle⟩, parked⟩
  · rw [← h.room, isFull, isFull, options_kept.run engine run, steady.stack]
  · obtain ⟨o, object, kind⟩ := Option.bind_eq_some_iff.1 (drivable_eq_ok.1 h.drivable).1
    exact Option.bind_eq_some_iff.2 ⟨o, object, (kinds_kept.run engine run).generator? kind⟩

end Machine.Drives

theorem Machine.push_pop {m : Machine σ} {stack : CallStack} (h : m.stack = stack.push frame) :
    m.pop.push frame = m := by
  have again : m.stack.pop.push frame = m.stack := by rw [h, CallStack.pop_push]
  simp only [pop, push, again]

namespace Machine.Drives

variable {m m' : Machine σ} {generator : Generator} {w : Resumption}
  {resumption : Option Resumption} {v : Value}

variable (h : m.Drives receiver brand g generator frame)

include h

theorem body (fair : engine.Fair) (takes : generator.Takes w resumption)
    {r : Except Fault Completion}
    (run : engine.total.eval (generator.closure.node.run engine.shortcuts)
      ((m.modifyGenerator g (·.run resumption)).push frame) = .finished r m') :
    ∃ points w', m'.generator? g = some { generator.run resumption with
        resumePoints := points, resumption := w' } ∧
      m'.stack = m.stack.push frame ∧ m'.runningGenerator? = some g ∧
      ∀ v, r = .error (.suspended v) → w' = none := by
  obtain ⟨placed, entered⟩ := h.placed takes
  obtain ⟨own, -⟩ := h.orderly.entered h.found takes.ready h.parked
  obtain ⟨fuel, run⟩ := engine.exists_run_iff.2 run
  obtain ⟨-, advances, left⟩ := engine.safe_result run
    (FunctionNode.resumes (Engine.promises_kept fair fuel) engine.shortcuts frame.strict
      generator.closure.node _ placed.orderly rfl entered)
  have running : m'.runningGenerator? = some g := advances.running.trans own
  obtain ⟨points, w', found, -⟩ := advances.executing g (generator.run resumption)
    (by rw [generator?_push, generator?_modifyGenerator]; simp [h.found]) rfl
  refine ⟨points, w', found, advances.stack, running, ?_⟩
  rintro v rfl
  obtain ⟨_, records, -⟩ := left
  obtain ⟨_, _, running', found', -, unresumed⟩ := records_eq_some.1 records
  cases running.symm.trans running'
  cases found.symm.trans found'
  exact unresumed

theorem suspended (fair : engine.Fair) (takes : generator.Takes w resumption)
    (run : engine.total.eval (generator.closure.node.run engine.shortcuts)
      ((m.modifyGenerator g (·.run resumption)).push frame) =
        .finished (.error (.suspended v)) m') :
    ∃ m₁ generator', engine.total.eval (drive engine.shortcuts receiver w brand) m =
        .finished (.ok (m'.answer v false).1) m₁ ∧
      m₁.Drives receiver brand g generator' frame ∧ generator'.state = .suspendedYield ∧
      generator'.closure = generator.closure ∧
      (∀ w, (m₁.modifyGenerator g (·.run (some w))).push frame = (m'.answer v false).2.resume w) ∧
      m₁.withoutRecords g =
        ((m'.answer v false).2.setRecords [] none).pop.modifyGenerator g (·.suspend frame) := by
  obtain ⟨points, w', found, stack, running, unresumed⟩ := h.body fair takes run
  cases unresumed v rfl
  have parked : (m'.pop.modifyGenerator g (·.suspend frame)).generator? g =
      some ({ generator.run resumption with
        resumePoints := points, resumption := none } |>.suspend frame) := by
    rw [generator?_modifyGenerator, if_pos rfl, generator?_pop, found, Option.map_some]
  have driven : engine.total.eval (drive engine.shortcuts receiver w brand) m = .finished
      (.ok (m'.answer v false).1) ((m'.pop.modifyGenerator g (·.suspend frame)).answer v false).2 := by
    rw [h.eval_drive takes, run]
    rfl
  have brand' : generator.brand = brand := (drivable_eq_ok.1 h.drivable).2.2.1
  have stack' : (m'.answer v false).2.stack = m.stack.push frame := stack
  refine ⟨_, _, driven, h.after fair driven parked brand' nofun rfl, rfl, rfl, fun w => ?_, ?_⟩
  · change ((((m'.answer v false).2.pop.push frame).modifyGenerator g (·.suspend frame)
      ).modifyGenerator g (·.run (some w))) = _
    rw [push_pop stack', modifyGenerator_modifyGenerator]
    simp only [resume, show (m'.answer v false).2.runningGenerator? = some g from running]
    exact modifyGenerator_congr found rfl
  · rw [setRecords_eq (m := (m'.answer v false).2) running]
    change ((m'.answer v false).2.pop.modifyGenerator g (·.suspend frame)).withoutRecords g =
      ((m'.answer v false).2.pop.modifyGenerator g fun generator =>
        { generator with resumePoints := [], resumption := none }).modifyGenerator g
          (·.suspend frame)
    rw [withoutRecords, modifyGenerator_modifyGenerator, modifyGenerator_modifyGenerator]
    exact modifyGenerator_congr found rfl

theorem ended (fair : engine.Fair) (takes : generator.Takes w resumption)
    {r : Except Fault Completion} (unsuspended : Unsuspended r)
    (run : engine.total.eval (generator.closure.node.run engine.shortcuts)
      ((m.modifyGenerator g (·.run resumption)).push frame) = .finished r m') :
    ∃ result m₁, engine.total.eval (drive engine.shortcuts receiver w brand) m =
        .finished result m₁ ∧
      engine.total.eval (concludeRun g r) m'.pop = .finished result m₁ ∧
      (m₁.generator? g).any (·.state = .completed) ∧ m₁.withoutRecords g = m₁ := by
  obtain ⟨points, w', found, -⟩ := h.body fair takes run
  obtain ⟨result, m₁, concluded, generators⟩ := engine.total.eval_concludeRun m'.pop g r
  have completed : m₁.generator? g = some (generator.run resumption).complete := by
    have same : m₁.generator? g = (m'.pop.modifyGenerator g (·.complete)).generator? g := by
      simp only [generator?, generators]
    rw [same, generator?_modifyGenerator, if_pos rfl, generator?_pop, found, Option.map_some]
    rfl
  refine ⟨result, m₁, ?_, concluded, by rw [completed]; rfl, modifyGenerator_self completed rfl⟩
  rw [h.eval_drive takes, run, Outcome.andThen_finished, finishRun_eq unsuspended, concluded]

end Machine.Drives

theorem Machine.Drives.driveAll_eq (fair : engine.Fair) {m : Machine σ} {generator : Generator}
    {w : Resumption} {resumption : Option Resumption}
    (h : m.Drives receiver brand g generator frame) (takes : generator.Takes w resumption)
    (rest : List Resumption) (answers : List Value) :
    ((engine.total.driveAll engine.shortcuts receiver brand g (w :: rest) m).andThen
      fun results m' => .finished (answers.map .ok ++ results) (m'.withoutRecords g)) =
    engine.total.conclude g frame (engine.driven (generator.closure.node.run engine.shortcuts)
      (generator.closure.node.run engine.shortcuts) ⟨rest, answers⟩
      ((m.modifyGenerator g (·.run resumption)).push frame)) := by
  rw [Engine.driven_eq, Answers.driveAll]
  cases run : engine.total.eval (generator.closure.node.run engine.shortcuts)
      ((m.modifyGenerator g (·.run resumption)).push frame) with
  | exhausted =>
    rw [h.eval_drive takes, run]
    rfl
  | finished r m' =>
    by_cases suspended : ∃ v, r = .error (.suspended v)
    · obtain ⟨v, rfl⟩ := suspended
      obtain ⟨m₁, generator', driven, later, state, closure, resumed, parked⟩ :=
        h.suspended fair takes run
      have waiting : (m₁.generator? g).any (·.state = .completed) = false := by
        simp [later.found, state]
      rw [driven, Outcome.andThen_finished, waiting]
      cases rest with
      | nil => simp [Answers.driveAll, Outcome.afterTurn, Engine.respond, Answers.conclude, parked]
      | cons w' rest =>
        have next := later.driveAll_eq fair (.resume (w := w') state) rest
          (answers ++ [(m'.answer v false).1])
        rw [resumed, closure] at next
        refine Eq.trans ?_ next
        cases engine.total.driveAll engine.shortcuts receiver brand g (w' :: rest) m₁ <;> simp
    · have unsuspended : Unsuspended r := fun v hv => suspended ⟨v, hv⟩
      obtain ⟨result, m₁, driven, concluded, completed, same⟩ :=
        h.ended fair takes unsuspended run
      rw [driven, Outcome.afterTurn_unsuspended unsuspended, Answers.conclude, concluded]
      simp only [Outcome.andThen_finished, completed, if_true, same]
termination_by structural rest

theorem Exchange.Approaches.conclude {f : Nat → Exchange σ (Except Fault Completion)}
    {e : Exchange σ (Except Fault Completion)} (h : Exchange.Approaches f e) (engine : Engine σ)
    (g : GeneratorId) (frame : Frame) :
    Outcome.Approaches (fun fuel => (engine.answers fuel).conclude g frame (f fuel))
      (engine.total.conclude g frame e) := by
  refine h.follow (g := fun fuel => (engine.answers fuel).conclude g frame) (fun _ => rfl) ?_
    fun hb => ?_
  · rintro rfl
    rfl
  · cases e with
    | exhausted => exact absurd rfl hb
    | waiting answers m => exact .const _ _
    | finished r talk m =>
      exact (engine.run_approaches (concludeRun g r) m.pop).andThen fun _ _ => .const _ _

theorem Machine.Drives.runInPlace_approaches (fair : engine.Fair) {m : Machine σ}
    {generator : Generator} (h : m.Drives receiver brand g generator frame)
    (fresh : generator.state = .suspendedStart) (rest : List Resumption) :
    Outcome.Approaches (fun fuel => engine.runInPlace fuel g rest m)
      (engine.total.conclude g frame (engine.driven (generator.closure.node.run engine.shortcuts)
        (generator.closure.node.run engine.shortcuts) ⟨rest, []⟩
        ((m.modifyGenerator g (·.run none)).push frame))) := by
  have started : (Effect.startRun g none).apply m =
      (.ok (frame, generator.closure), m.modifyGenerator g (·.run none)) := by
    simp only [Effect.apply, h.found, h.parked, h.room, Bool.false_eq_true, if_false]
  obtain ⟨placed, entered⟩ := h.placed (w := .next .undefined) (.start fresh)
  have quiet : ((m.modifyGenerator g (·.run none)).push frame).Quiet := by
    refine entered.resolve_right ?_
    rintro ⟨points, w, records, -⟩
    obtain ⟨g', generator', running, found, -, resumed⟩ := Machine.records_eq_some.1 records
    obtain ⟨own, -⟩ := h.orderly.entered h.found (.inl ⟨fresh, rfl⟩) h.parked
    cases running.symm.trans own
    rw [Machine.generator?_push, Machine.generator?_modifyGenerator, if_pos rfl, h.found] at found
    cases found
    cases resumed
  have follows := FunctionNode.follows fair generator.closure.node (m.stack.push frame) ⟨rest, []⟩ _
    ⟨placed, quiet⟩
  have approaches := follows.conclude engine g frame
  simpa only [Engine.runInPlace, started] using approaches

/-- The machines at which a host can look: between operations and within one. -/
def Engine.Observable (engine : Engine σ) (change : Machine σ → Machine σ → Prop)
    (m : Machine σ) : Prop :=
  engine.Reachable change m ∨ ∃ (α : Type) (operation : Operation α) (m₀ : Machine σ),
    engine.Reachable change m₀ ∧ engine.Meets (operation.evaluate engine).run m₀ (.look m)

theorem Engine.Observable.orderly (fair : engine.Fair) {change : Machine σ → Machine σ → Prop}
    (leaves : ∀ m m', change m m' → m'.generators = m.generators ∧ m'.stack = m.stack)
    {m : Machine σ} (h : engine.Observable change m) : m.Orderly := by
  rcases h with reachable | ⟨α, operation, m₀, reachable, met⟩
  · exact (reachable_orderly fair leaves reachable).1
  · obtain ⟨orderly, links⟩ := reachable_orderly fair leaves reachable
    have free : m₀.runningGenerator? = none := by rw [m₀.runningGenerator?_eq, links]; rfl
    exact met.holds engine fun fuel =>
      ⟨_, detached_operation (promises_kept fair fuel) engine operation m₀ orderly free⟩

/-- A generator that has not been started is driven by a first `next` and then in any way, up to the
drive that completes it. What the driver is told in each drive, values and exceptions, and the
machine in the end are those of a run of the body in place; the drives do not end if that does not.
-/
theorem driveAll_iff_runInPlace {engine : Engine σ} (fair : engine.Fair)
    {change : Machine σ → Machine σ → Prop}
    (leaves : ∀ m m', change m m' → m'.generators = m.generators ∧ m'.stack = m.stack)
    {m : Machine σ} (observable : engine.Observable change m) (limits : m.limits = [])
    (room : m.isFull = false) {receiver : Value} {brand : Option String} {g : GeneratorId}
    {generator : Generator} (drivable : m.drivable receiver brand = .ok (g, generator))
    (fresh : generator.state = .suspendedStart) (v : Value) (rest : List Resumption)
    (results : List (Except Fault Value)) (final : Machine σ) :
    (∃ fuel m', engine.driveAll fuel receiver brand g (.next v :: rest) m = .finished results m' ∧
      m'.withoutRecords g = final) ↔
    ∃ fuel, engine.runInPlace fuel g rest m = .finished results final := by
  have orderly := observable.orderly fair leaves
  have parts := orderly.generators g generator (Machine.drivable_eq_ok.1 drivable).2.1
  simp only [Generator.Orderly, fresh] at parts
  obtain ⟨⟨frame, parked, -⟩, -⟩ := parts
  have drives : m.Drives receiver brand g generator frame :=
    ⟨orderly, limits, room, drivable, parked⟩
  have same := drives.driveAll_eq fair (.start (v := v) fresh) rest []
  have inPlace := drives.runInPlace_approaches fair fresh rest
  have driven := engine.driveAll_approaches receiver brand g (.next v :: rest) m
  rw [inPlace.exists_finished_iff, ← same, Outcome.andThen_eq_finished]
  constructor
  · rintro ⟨fuel, m', run, rfl⟩
    exact ⟨results, m', driven.exists_finished_iff.1 ⟨fuel, run⟩, rfl⟩
  · rintro ⟨results', m', run, finished⟩
    cases finished
    obtain ⟨fuel, run⟩ := driven.exists_finished_iff.2 run
    exact ⟨fuel, m', run, rfl⟩

/-- A generator that yields in a `try` statement and in its finalizer is told to return at the first
of them. It does so after the second. -/
theorem driveAll_iff_runInPlace_finalizer :
    let engine : Engine Unit := {}
    let yield : Stmt := .expression (.yield none {}) {}
    let told : List Resumption := [.return (.boolean true), .next .undefined]
    let results : List (Except Fault Value) :=
      [.ok (.object ⟨2⟩), .ok (.object ⟨3⟩), .ok (.object ⟨4⟩)]
    ∃ m generator final, engine.Reachable Machine.Untouched m ∧ m.generator? ⟨0⟩ = some generator ∧
      generator.state = .suspendedStart ∧
      generator.closure.node.body = .block [.tryCatch [yield] none (some [yield]) {}] ∧
      (∃ fuel m', engine.driveAll fuel (.object ⟨1⟩) none ⟨0⟩ (.next .undefined :: told) m =
        .finished results m' ∧ m'.withoutRecords ⟨0⟩ = final) ∧
      ∃ fuel, engine.runInPlace fuel ⟨0⟩ told m = .finished results final := by
  intro engine yield told results
  have fair : engine.Fair := ⟨nofun, nofun⟩
  have first : engine.Reachable Machine.Untouched
      (Machine.withGenerator [.tryCatch [yield] none (some [yield]) {}]) := by
    refine .change (.start {} ()) ⟨?_, ?_⟩
    · rw [engine.start_generators]
      rfl
    · rw [engine.start_stack]
      rfl
  have runs : ((engine.run 1 (Operation.evaluate engine (.call (.object ⟨0⟩) .undefined []))
      (Machine.withGenerator [.tryCatch [yield] none (some [yield]) {}])).andThen fun _ m =>
        (engine.driveAll 0 (.object ⟨1⟩) none ⟨0⟩ (.next .undefined :: told) m).andThen
          fun results _ => .finished (m.limits, m.isFull, (m.drivable (.object ⟨1⟩) none).map
            fun found => (found.1, found.2.state, found.2.closure.node.body), results)
              Machine.bare) =
      .finished ([], false, .ok (⟨0⟩, .suspendedStart,
        .block [.tryCatch [yield] none (some [yield]) {}]), results) Machine.bare := by
    cbv
  simp only [Outcome.andThen_eq_finished] at runs
  obtain ⟨_, m, call, results', m', drives, facts⟩ := runs
  simp only [Outcome.finished.injEq, Prod.mk.injEq, and_true] at facts
  obtain ⟨limits, room, found, rfl⟩ := facts
  have reachable := first.operate _ call
  cases drivable : m.drivable (.object ⟨1⟩) none with
  | error fault =>
      rw [drivable] at found
      cases found
  | ok found' =>
      obtain ⟨g, generator⟩ := found'
      rw [drivable] at found
      simp only [Except.map, Except.ok.injEq, Prod.mk.injEq] at found
      obtain ⟨rfl, fresh, body⟩ := found
      refine ⟨m, generator, m'.withoutRecords ⟨0⟩, reachable,
        (Machine.drivable_eq_ok.1 drivable).2.1, fresh, body, ⟨0, m', drives, rfl⟩, ?_⟩
      exact (driveAll_iff_runInPlace fair (fun _ _ untouched => untouched) (.inl reachable) limits
        room drivable fresh .undefined told results _).1 ⟨0, m', drives, rfl⟩

end ScriptEngine
