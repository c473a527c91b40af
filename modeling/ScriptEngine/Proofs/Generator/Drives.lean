import ScriptEngine.Proofs.Generator.Calls
import ScriptEngine.Proofs.Parts

/-!
# Drives

Starting, driving and ending generators keeps the machine orderly. A drive puts the frame of the
generator on the stack, where the body is entered with the records that the last suspension left, and
parks it again or completes the generator.
-/

namespace ScriptEngine

open Eval

variable {σ : Type} {g : GeneratorId} {m : Machine σ} {generator : Generator}

namespace Machine

theorem generator?_createGenerator (function : ObjectId) (closure : Closure) (frame : Frame)
    (g : GeneratorId) :
    ((Effect.createGenerator function closure frame).apply m).2.generator? g =
      if g.index = m.generators.size then
        some { frame := some { frame with generator := some g }, function, closure }
      else m.generator? g := by
  simp only [Effect.apply, generator?, Array.getElem?_push]
  split
  · rename_i index
    obtain ⟨index⟩ := g
    simp_all
  · rfl

theorem generator?_eq_none {g : GeneratorId} (index : g.index = m.generators.size) :
    m.generator? g = none := by
  simp [generator?, index]

variable {function : ObjectId} {closure : Closure} {frame : Frame}

theorem Orderly.create (h : m.Orderly) :
    ((Effect.createGenerator function closure frame).apply m).2.Orderly := by
  refine ⟨fun g generator hg => ?_, fun g linked => ?_, h.root⟩
  · rw [generator?_createGenerator] at hg
    split at hg
    · rename_i index
      cases hg
      have unlinked : m.links.count (some g) = 0 :=
        List.count_eq_zero.2 fun linked => h.linked g linked (generator?_eq_none index)
      exact ⟨⟨_, rfl, rfl⟩, rfl, rfl, unlinked⟩
    · exact h.generators g generator hg
  · have found := h.linked g linked
    rw [generator?_createGenerator]
    split
    · nofun
    · exact found

theorem Moves.create : m.Moves ((Effect.createGenerator function closure frame).apply m).2 := by
  intro g
  rw [generator?_createGenerator]
  by_cases index : g.index = m.generators.size
  · simp [index, generator?_eq_none index]
  · simp only [index, if_false]
    cases m.generator? g with
    | none => trivial
    | some generator => exact .inl rfl

theorem Steady.create :
    m.Steady ((Effect.createGenerator function closure frame).apply m).2 := by
  have found {g : GeneratorId} {generator : Generator} (hg : m.generator? g = some generator) :
      ((Effect.createGenerator function closure frame).apply m).2.generator? g =
        some generator := by
    rw [generator?_createGenerator, if_neg, hg]
    intro index
    simp [generator?_eq_none index] at hg
  exact ⟨rfl, fun g generator hg _ => found hg, fun g generator hg _ => found hg⟩

end Machine

theorem Machine.Steady.modify {change : Generator → Generator}
    (hg : m.generator? g = some generator) (idle : generator.state ≠ .executing)
    (incomplete : generator.state ≠ .completed) : m.Steady (m.modifyGenerator g change) := by
  refine ⟨rfl, fun g' generator' hg' executing => ?_, fun g' generator' hg' completed => ?_⟩
  · rw [generator?_modifyGenerator, if_neg, hg']
    rintro rfl
    cases hg.symm.trans hg'
    exact idle executing
  · rw [generator?_modifyGenerator, if_neg, hg']
    rintro rfl
    cases hg.symm.trans hg'
    exact incomplete completed

def Generator.Ready (generator : Generator) (resumption : Option Resumption) : Prop :=
  generator.state = .suspendedStart ∧ resumption = none ∨
    generator.state = .suspendedYield ∧ resumption.isSome

theorem Generator.Ready.idle {resumption : Option Resumption} (ready : generator.Ready resumption) :
    generator.state ≠ .executing := by
  rcases ready with ⟨state, _⟩ | ⟨state, _⟩ <;> simp [state]

theorem Generator.Ready.step {resumption : Option Resumption} (ready : generator.Ready resumption) :
    generator.state.Step .executing := by
  rcases ready with ⟨state, _⟩ | ⟨state, _⟩ <;> rw [state]
  · exact .start
  · exact .resume

theorem Generator.ready_of_resumed {resumption : Resumption} {resumed : Option Resumption}
    (idle : generator.state ≠ .executing)
    (runs : generator.resumed? resumption = some resumed) : generator.Ready resumed := by
  obtain ⟨state⟩ := generator
  cases state with
  | executing => exact absurd rfl idle
  | completed => cases runs
  | suspendedYield =>
    cases runs
    exact .inr ⟨rfl, rfl⟩
  | suspendedStart =>
    cases resumption <;> cases runs
    exact .inl ⟨rfl, rfl⟩

namespace Machine

variable {m' : Machine σ} {frame : Frame} {resumption : Option Resumption}

theorem Orderly.entered_of (h : m.Orderly) (hg : m.generator? g = some generator)
    (ready : generator.Ready resumption) (parked : generator.frame = some frame)
    {E : List ResumePoint → Prop}
    (left : generator.state = .suspendedYield → E generator.resumePoints) :
    frame.generator = some g ∧
      (((m.modifyGenerator g (·.run resumption)).push frame).Quiet ∨
        ((m.modifyGenerator g (·.run resumption)).push frame).Replays E) := by
  have orderly := h.generators g generator hg
  have records (own : frame.generator = some g) :
      ((m.modifyGenerator g (·.run resumption)).push frame).records =
        some (generator.resumePoints, resumption) := by
    refine records_eq_some.2 ⟨g, generator.run resumption, own, ?_, rfl, rfl⟩
    rw [generator?_push, generator?_modifyGenerator, if_pos rfl, hg, Option.map_some]
  rcases ready with ⟨state, rfl⟩ | ⟨state, resumed⟩
  · simp only [Generator.Orderly, state, parked] at orderly
    obtain ⟨⟨_, ⟨rfl⟩, own⟩, none, _⟩ := orderly
    refine ⟨own, .inl fun found hr => ?_⟩
    simpa [records own, none] using hr.symm
  · simp only [Generator.Orderly, state, parked] at orderly
    obtain ⟨⟨_, ⟨rfl⟩, own, _⟩, _⟩ := orderly
    obtain ⟨w, rfl⟩ := Option.isSome_iff_exists.1 resumed
    exact ⟨own, .inr ⟨_, w, records own, left state⟩⟩

theorem Orderly.entered (h : m.Orderly) (hg : m.generator? g = some generator)
    (ready : generator.Ready resumption) (parked : generator.frame = some frame) :
    frame.generator = some g ∧
      (((m.modifyGenerator g (·.run resumption)).push frame).Quiet ∨
        ((m.modifyGenerator g (·.run resumption)).push frame).Replays
          (generator.closure.node.body.Fits frame.strict)) := by
  refine h.entered_of hg ready parked fun state => ?_
  have orderly := h.generators g generator hg
  simp only [Generator.Orderly, state, parked] at orderly
  obtain ⟨⟨_, ⟨rfl⟩, _, fits⟩, _⟩ := orderly
  exact fits

theorem Advances.leave (hg : m.generator? g = some generator)
    (step : generator.state.Step .executing) (own : frame.generator = some g)
    {run change : Generator → Generator}
    (h : ((m.modifyGenerator g run).push frame).Advances m') :
    m.Steady (m'.pop.modifyGenerator g change) := by
  have before {g' : GeneratorId} {generator' : Generator}
      (hg' : m.generator? g' = some generator') (other : g' ≠ g) :
      ((m.modifyGenerator g run).push frame).generator? g' = some generator' := by
    rw [generator?_push, generator?_modifyGenerator, if_neg other, hg']
  have other {g' : GeneratorId} {generator' : Generator} (hg' : m.generator? g' = some generator')
      (still : ¬generator'.state.Step .executing) : g' ≠ g := by
    rintro rfl
    cases hg.symm.trans hg'
    exact still step
  refine ⟨?_, fun g' generator' hg' executing => ?_, fun g' generator' hg' completed => ?_⟩
  · change m'.stack.pop = m.stack
    rw [h.stack]
    exact CallStack.pop_push m.stack frame
  · have other := other hg' (by rw [executing]; nofun)
    have running : ((m.modifyGenerator g run).push frame).runningGenerator? = some g := own
    obtain ⟨points, resumption, after, same⟩ :=
      h.executing g' generator' (before hg' other) executing
    obtain ⟨rfl, rfl⟩ := same (by simpa [running] using other.symm)
    rw [generator?_modifyGenerator, if_neg other, generator?_pop, after]
  · have other := other hg' (by rw [completed]; nofun)
    rw [generator?_modifyGenerator, if_neg other, generator?_pop,
      h.completed g' generator' (before hg' other) completed]

end Machine

/-! ## Drives by their cases -/

section

variable {J : Moment σ → Prop} {P : Promises σ} {Q : Except Fault Value → Machine σ → Prop}
  {receiver : Value} {brand : Option String} (shortcuts : Bool)

theorem safe_runGenerator_of (h : m.Orderly) (hg : m.generator? g = some generator) {resumption : Option Resumption}
    (ready : generator.Ready resumption)
    (full : J (.change m m) ∧ Q (.error (.stackOverflow m.stack.depth)) m)
    (ran : ∀ frame, generator.frame = some frame →
      J (.change m (m.modifyGenerator g (·.run resumption))) ∧
        (generator.closure.node.run shortcuts).Safe J P
          ((m.modifyGenerator g (·.run resumption)).push frame)
          fun r m' => (finishRun g frame r).Safe J P m'.pop Q) :
    (runGenerator shortcuts g resumption).Safe J P m Q := by
  have orderly := h.generators g generator hg
  obtain ⟨frame, parked⟩ : ∃ frame, generator.frame = some frame := by
    rcases ready with ⟨state, _⟩ | ⟨state, _⟩ <;> simp only [Generator.Orderly, state] at orderly
    all_goals exact orderly.1.imp fun _ parked => parked.1
  rw [runGenerator, safe_bind, safe_attempt]
  by_cases deep : m.isFull
  · simp only [Effect.apply, hg, parked, deep, if_true]
    exact full
  · simp only [Effect.apply, hg, parked, deep, Bool.false_eq_true, if_false]
    obtain ⟨moment, ran⟩ := ran frame parked
    refine ⟨moment, ?_⟩
    rw [After, safe_bind, safe_outcome]
    exact ran

theorem safe_drive {resumption : Resumption} (looks : J (.look m))
    (refused : ∀ fault, m.drivable receiver brand = .error fault → Q (.error fault) m)
    (done : (driveDone resumption).Safe J P m Q)
    (abandoned : ∀ g generator, m.generator? g = some generator →
      generator.state = .suspendedStart →
        (perform (.complete g) >>= fun _ => driveDone resumption).Safe J P m Q)
    (ran : ∀ g generator resumed, m.generator? g = some generator → generator.Ready resumed →
      (runGenerator shortcuts g resumed).Safe J P m Q) :
    (drive shortcuts receiver resumption brand).Safe J P m Q := by
  obtain ⟨f, drive, leads⟩ := drive_eq (σ := σ) shortcuts receiver resumption brand
  rw [drive, safe_bind, safe_askFor]
  refine ⟨looks, ?_⟩
  cases drivable : m.drivable receiver brand with
  | error fault => exact refused fault drivable
  | ok driven =>
    obtain ⟨g, generator⟩ := driven
    obtain ⟨-, hg, -, idle⟩ := Machine.drivable_eq_ok.1 drivable
    have leads := leads g generator
    change (f (g, generator)).Safe J P m Q
    cases runs : generator.resumed? resumption with
    | none =>
      simp only [runs] at leads
      rcases leads with e | ⟨state, e⟩ <;> rw [e]
      · exact done
      · exact abandoned g generator hg state
    | some resumed =>
      simp only [runs] at leads
      rw [leads]
      exact ran g generator resumed hg (Generator.ready_of_resumed idle runs)

end

variable {P : Promises σ} [P.Lawful] {A : Answers σ} (kept : P.Kept A) (shortcuts : Bool)

include kept

theorem ordinary_startGenerator (function : ObjectId) (closure : Closure) (this : Value)
    (arguments : List Value) :
    Ordinary P (startGenerator function closure this arguments) := by
  refine ordinary_enter kept fun scope => Ordinary.detached ?_
  refine ordinary_bind ((simple_bindThis closure scope this).plain.keeps kept) fun _ => ?_
  refine ordinary_bind ((simple_instantiate closure.node scope arguments).plain.keeps kept)
    fun own => Ordinary.ask fun _ => Ordinary.ask fun _ => Ordinary.ask fun _ => ?_
  refine ordinary_bind (x := perform (.createGenerator function closure _))
    (fun _ h => ⟨.create, h.create, .create, unsuspended_ok _⟩) fun g => ?_
  exact Plain.keeps kept (plain_bind (plain_perform (by grind)) fun o => plain_pure _)

theorem safe_finishRun {m' : Machine σ} {frame : Frame} {resumption : Option Resumption}
    (h : m.Orderly) (hg : m.generator? g = some generator) (step : generator.state.Step .executing)
    (own : frame.generator = some g) (h' : m'.Orderly)
    (advances : ((m.modifyGenerator g (·.run resumption)).push frame).Advances m')
    {r : Except Fault Completion}
    (left : m'.Left (generator.closure.node.body.Fits frame.strict) (Except.fault? r)) :
    (finishRun g frame r).Safe Moment.Orderly P m'.pop m.Settles := by
  have frames : m'.links = some g :: m.links := by simp [advances.links, own]
  obtain ⟨points, w, hg', -⟩ := advances.executing g (generator.run resumption)
    (by rw [Machine.generator?_push, Machine.generator?_modifyGenerator]; simp [hg]) rfl
  have running : m'.runningGenerator? = some g := advances.running.trans own
  have answers := (simple_answerRun r).plain.keeps kept
  rcases finishRun_cases g frame r with ⟨⟨v, rfl⟩, e⟩ | ⟨-, e⟩ <;> rw [e, safe_bind, safe_perform]
  · obtain ⟨points, hr, fits⟩ := left
    obtain ⟨_, _, running', found, rfl, resumed⟩ := Machine.records_eq_some.1 hr
    cases running.symm.trans running'
    cases hg'.symm.trans found
    exact ⟨.modify _ hg' (.inr .suspend), Ordinary.after answers
      (h'.leave frames h.root hg' ⟨⟨frame, rfl, own, fits⟩, resumed, rfl⟩)
      (advances.leave hg step own)⟩
  · exact ⟨.modify _ hg' (.inr .finish), Ordinary.after answers
      (h'.leave frames h.root hg' ⟨rfl, rfl, rfl, rfl⟩) (advances.leave hg step own)⟩

theorem safe_runGenerator (h : m.Orderly) (hg : m.generator? g = some generator)
    {resumption : Option Resumption} (ready : generator.Ready resumption) :
    (runGenerator shortcuts g resumption).Safe Moment.Orderly P m m.Settles := by
  refine safe_runGenerator_of shortcuts h hg ready
    ⟨.of_eq rfl, h, .of_eq rfl rfl, unsuspended_error.2 (by simp)⟩ fun frame parked => ?_
  obtain ⟨own, entered⟩ := h.entered hg ready parked
  refine ⟨.modify m hg (.inr ready.step), ?_⟩
  refine (FunctionNode.resumes kept shortcuts frame.strict generator.closure.node _
    (h.enter hg ready.idle resumption own) rfl entered).mono fun r m' post => ?_
  exact safe_finishRun kept h hg ready.step own post.1 post.2.1 post.2.2

theorem ordinary_drive (receiver : Value) (resumption : Resumption) (brand : Option String) :
    Ordinary P (drive shortcuts receiver resumption brand) := by
  intro m h
  have done := (simple_driveDone resumption).plain.keeps kept
  refine safe_drive shortcuts h (fun fault drivable => ?_) (done m h) (fun g generator hg state => ?_)
    fun g generator resumed hg ready => safe_runGenerator kept shortcuts h hg ready
  · refine ⟨h, .of_eq rfl rfl, unsuspended_error.2 fun v => ?_⟩
    rintro rfl
    exact m.drivable_unsuspended receiver brand v drivable
  · have orderly := h.generators g generator hg
    simp only [Generator.Orderly, state] at orderly
    rw [safe_bind, safe_perform]
    exact ⟨.modify m hg (.inr (state ▸ .abandon)), Ordinary.after done
      (h.modify hg ⟨rfl, rfl, rfl, orderly.2.2.2⟩)
      (.modify hg (by simp [state]) (by simp [state]))⟩

end ScriptEngine
