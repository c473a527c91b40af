import ScriptEngine.Proofs.Abort
import ScriptEngine.Proofs.Generator.StateMachine

/-!
# Suspensions stay in their generator

Of all evaluations only statements can end with the marker of a suspension, and only in a frame that
belongs to a generator (`Eval.Composed.contained`). Wherever that happens, the marker goes back to
the drive that entered this frame.
-/

namespace ScriptEngine

open Eval

variable {σ α β : Type} {engine : Engine σ} {m m' : Machine σ}

/-! ## What can suspend -/

def Outcome.Contained (o : Outcome σ (Except Fault α)) : Prop :=
  ∀ r m, o = .finished r m → Unsuspended r

namespace Outcome.Contained

theorem finished {r : Except Fault α} (h : Unsuspended r) (m : Machine σ) :
    (Outcome.finished r m).Contained := by
  rintro r m ⟨rfl, rfl⟩
  exact h

theorem andThen {o : Outcome σ α} {next : α → Machine σ → Outcome σ (Except Fault β)}
    (h : ∀ a m, o = .finished a m → (next a m).Contained) : (o.andThen next).Contained := by
  intro r m' run
  obtain ⟨a, m, first, rest⟩ := andThen_eq_finished.1 run
  exact h a m first r m' rest

theorem proceed {o : Outcome σ (Except Fault α)}
    {next : α → Machine σ → Outcome σ (Except Fault β)} (ho : o.Contained)
    (h : ∀ a m, o = .finished (.ok a) m → (next a m).Contained) : (o.proceed next).Contained := by
  refine .andThen fun r m run => ?_
  cases r with
  | ok a => exact h a m run
  | error fault => exact .finished (unsuspended_error.2 (unsuspended_error.1 (ho _ _ run))) m

end Outcome.Contained

def Engine.HostUnsuspended (engine : Engine σ) : Prop :=
  ∀ f ∈ engine.host, ∀ this arguments fuel m,
    (engine.run fuel (f.run this arguments) m).Contained

namespace Eval

inductive OfHost (engine : Engine σ) : (α : Type) → Eval σ α → Prop where
  | run {f : HostFunction σ} (listed : f ∈ engine.host) (this : Value) (arguments : List Value) :
      OfHost engine Value (f.run this arguments)

section

variable {fuel : Nat}
  (calls : ∀ invocation m, ((engine.answers fuel).invoke invocation m).Contained)

include calls

theorem Simple.contained {x : Eval σ α} (h : Simple x) (m : Machine σ) :
    ((engine.answers fuel).eval x m).Contained := by
  induction h generalizing m with
  | ofExcept h => exact .finished h m
  | ask _ => exact .finished (unsuspended_ok _) m
  | askFor _ h => exact .finished (h m) m
  | perform _ => exact .finished (unsuspended_ok _) _
  | attempt _ h => exact .finished (h m) _
  | bind _ _ ihx ihf =>
    rw [eval_bind]
    exact .proceed (ihx m) fun a m' _ => ihf a m'
  | within scope _ ih =>
    rw [eval_within]
    exact .andThen fun r m' run => .finished (ih _ r m' run) _
  | call callee this arguments =>
    rw [eval_call]
    exact calls _ m
  | construct callee arguments newTarget =>
    rw [eval_construct]
    exact calls _ m

theorem contained_settle {r : Except Fault Completion} (h : Unsuspended r) (location : Span)
    (m : Machine σ) : ((engine.answers fuel).eval (settle location r) m).Contained := by
  cases r with
  | ok completion => exact .finished (unsuspended_ok _) m
  | error fault =>
    simp only [settle]
    split
    · exact .finished (unsuspended_error.2 (unsuspended_error.1 h)) m
    · exact Simple.contained calls (.bind (simple_faultValue fault) fun _ => simple_pure _) m

omit calls in
theorem contained_recording {r : Except Fault α} (h : Unsuspended r) (point : ResumePoint)
    (m : Machine σ) : ((engine.answers fuel).eval (match r with
      | .ok a => pure a
      | .error fault => do
        if fault.isSuspension then perform (.pushResumePoint point)
        throw fault) m).Contained := by
  cases r with
  | ok a => exact .finished (unsuspended_ok _) m
  | error fault =>
    have calm : fault.isSuspension = false := by
      cases fault with
      | suspended v => exact absurd rfl (h v)
      | _ => rfl
    simp only [calm]
    exact .finished (unsuspended_error.2 (unsuspended_error.1 h)) m

theorem contained_runBody {program : Program} {r : Except Fault Completion} (h : Unsuspended r)
    (m : Machine σ) : ((engine.answers fuel).eval (match r with
      | .ok completion => pure completion
      | .error fault =>
        if fault.isHostAbort then throw fault
        else do
          let v ← faultValue fault
          pure (.throwing v (fault.location.getD program.span))) m).Contained := by
  cases r with
  | ok completion => exact .finished (unsuspended_ok _) m
  | error fault =>
    dsimp only
    split
    · exact .finished (unsuspended_error.2 (unsuspended_error.1 h)) m
    · exact Simple.contained calls (.bind (simple_faultValue fault) fun _ => simple_pure _) m

theorem contained_finishRun (g : GeneratorId) (frame : Frame) (r : Except Fault Completion)
    (m : Machine σ) : ((engine.answers fuel).eval (finishRun g frame r) m).Contained := by
  rcases finishRun_cases g frame r with ⟨-, e⟩ | ⟨-, e⟩ <;> rw [e, eval_bind]
  all_goals exact (simple_answerRun r).contained calls _

theorem contained_drive (receiver : Value) (resumption : Resumption) (brand : Option String)
    (m : Machine σ) :
    ((engine.answers fuel).eval (drive engine.shortcuts receiver resumption brand) m).Contained := by
  obtain ⟨f, drive, leads⟩ := drive_eq (σ := σ) engine.shortcuts receiver resumption brand
  have done : Simple (driveDone resumption : Eval σ Value) := simple_driveDone resumption
  rw [drive, eval_bind, eval_askFor]
  refine .proceed (.finished (m.drivable_unsuspended receiver brand) m) fun driven m' _ => ?_
  obtain ⟨g, generator⟩ := driven
  have leads := leads g generator
  cases runs : generator.resumed? resumption with
  | none =>
    simp only [runs] at leads
    rcases leads with e | ⟨-, e⟩ <;> rw [e]
    · exact done.contained calls m'
    · rw [eval_bind]
      exact done.contained calls _
  | some resumed =>
    simp only [runs] at leads
    rw [leads, runGenerator, eval_bind, eval_attempt]
    refine .proceed (.finished ?_ _) fun started m₁ _ => ?_
    · intro v
      simp only [Effect.apply]
      grind
    · rw [eval_handle]
      exact .andThen fun r m₂ _ => contained_finishRun calls g started.1 r m₂

theorem Composed.contained_step (host : engine.HostUnsuspended)
    (loops : ∀ l m, m.runningGenerator? = none → ((engine.answers fuel).loop l m).Contained)
    {yields : Bool} {x : Eval σ α} (h : Composed engine (OfHost engine) yields x) {m : Machine σ}
    (free : yields = true → m.runningGenerator? = none) :
    ((engine.answers fuel).eval x m).Contained := by
  have keep : (engine.answers fuel).Keep fun m m' : Machine σ => m'.stack = m.stack :=
    stack_kept.answers engine fuel
  induction h generalizing m with
  | leaf h =>
    obtain ⟨listed, this, arguments⟩ := h
    exact host _ listed this arguments fuel m
  | simple h => exact h.contained calls m
  | checkDepth =>
    refine .finished ?_ m
    dsimp only
    split <;> nofun
  | perform _ => exact .finished (unsuspended_ok _) _
  | checkLimits =>
    refine .finished (fun v failed => ?_) _
    cases Limit.checkAll_isHostAbort failed
  | bind _ _ ihx ihf =>
    rw [eval_bind]
    refine .proceed (ihx free) fun a m' run => ihf a fun yields => ?_
    have stack := stack_kept.action keep run
    rw [← free yields, Machine.runningGenerator?, Machine.runningGenerator?, stack]
  | look _ _ ih =>
    rw [eval_bind]
    exact ih m free
  | within scope _ ih | withinBody scope _ ih =>
    simp only [eval_within, eval_withinBody]
    refine .andThen fun r m' run => .finished (ih (fun yields => ?_) r m' run) _
    rw [← free yields, Machine.runningGenerator?_eq, Machine.runningGenerator?_eq,
      Machine.links_setScope]
  | inFrame unlinked _ ih =>
    rw [eval_inFrame]
    exact .andThen fun r m' run => .finished (ih (m := m.push _) (fun _ => unlinked) r m' run) _
  | loop l =>
    rw [eval_loop]
    exact loops l m (free rfl)
  | recorded point _ ih =>
    rw [recording, eval_handle]
    exact .andThen fun r m' run => contained_recording (ih free r m' run) point m'
  | settled location _ ih =>
    rw [eval_handle]
    exact .andThen fun r m' run => contained_settle calls (ih free r m' run) location m'
  | suspendAt _ slot span _ =>
    rw [Eval.suspendAt, eval_bind, eval_ask, proceed_ok, free rfl]
    exact Simple.contained calls (simple_throw_syntaxError ..) m
  | script unlinked _ ih =>
    rw [eval_inFrame]
    refine .andThen fun r m' run => .finished ?_ _
    rw [Program.runBody, eval_handle] at run
    refine Outcome.Contained.andThen (fun r m' run => ?_) r m' run
    exact contained_runBody calls (ih (m := m.push _) (fun _ => unlinked) r m' run) m'
  | driven receiver resumption brand _ _ => exact contained_drive calls receiver resumption brand m

end

end Eval

namespace Engine

variable (host : engine.HostUnsuspended)

include host

theorem contained_requests (fuel : Nat) :
    (∀ invocation m, ((engine.answers fuel).invoke invocation m).Contained) ∧
      ∀ l m, m.runningGenerator? = none → ((engine.answers fuel).loop l m).Contained := by
  induction fuel with
  | zero => exact ⟨fun _ _ r m' h => by simp at h, fun _ _ _ r m' h => by simp at h⟩
  | succ fuel ih =>
    obtain ⟨calls, loops⟩ := ih
    constructor
    · intro invocation m
      rw [answers_succ_invoke]
      have composed : Composed engine (OfHost engine) false (invocation.eval engine) :=
        invocation.composed fun f listed this arguments => .leaf (.run listed this arguments)
      exact Composed.contained_step calls host loops composed Bool.noConfusion
    · intro l m free
      rw [answers_succ_loop]
      have round := Composed.contained_step calls host loops (x := l.round engine.shortcuts)
        l.composed_round fun _ => free
      refine .proceed round fun step m' run => ?_
      cases step with
      | done completion => exact .finished (unsuspended_ok _) m'
      | again next =>
        refine loops next m' ?_
        have stack := stack_kept.action (stack_kept.answers engine fuel) run
        rw [← free, Machine.runningGenerator?, Machine.runningGenerator?, stack]

end Engine

theorem Eval.Composed.contained (host : engine.HostUnsuspended) {yields : Bool} {x : Eval σ α}
    (h : Composed engine (OfHost engine) yields x)
    (free : yields = true → m.runningGenerator? = none) (fuel : Nat) :
    (engine.run fuel x m).Contained :=
  have requests := engine.contained_requests host fuel
  h.contained_step requests.1 host requests.2 free

/-! ## The way back of a suspension -/

def Moment.Records (moment : Moment σ) : Prop :=
  ∃ m point, moment = .change m ((Effect.pushResumePoint point).apply m).2

def Machine.SameStates (m m' : Machine σ) : Prop :=
  ∀ g, (m'.generator? g).map (·.state) = (m.generator? g).map (·.state)

theorem Machine.sameStates_pushResumePoint (m : Machine σ) (point : ResumePoint) :
    m.SameStates ((Effect.pushResumePoint point).apply m).2 := by
  intro g
  simp only [Effect.apply]
  split
  · rfl
  · rw [Machine.generator?_modifyGenerator]
    split
    · cases m.generator? g <;> rfl
    · rfl

namespace Engine

variable {x : Eval σ α} {y : Eval σ β} {m₁ m₂ : Machine σ} {before inner : List (Moment σ)}
  {entered outer : List (Option GeneratorId)} {v : Value}

/-- The run of `x` ends with the marker as well, and on the way from `m₂` only records are left. -/
def Relays (engine : Engine σ) (x : Eval σ α) (m : Machine σ) (trace : List (Moment σ)) (v : Value)
    (m₂ : Machine σ) : Prop :=
  ∃ after m', engine.Passes x.run m (trace ++ after) (.error (.suspended v)) m' ∧
    (∀ moment ∈ after, moment.Records) ∧ m₂.SameStates m'

theorem relays_recording {trace : List (Moment σ)} {point : ResumePoint}
    (h : engine.Relays x m trace v m₂) : engine.Relays (recording point x) m trace v m₂ := by
  obtain ⟨after, m', run, records, same⟩ := h
  have pushed : engine.Passes (do
      perform (.pushResumePoint point)
      throw (.suspended v) : Eval σ α).run m'
      [.change m' ((Effect.pushResumePoint point).apply m').2] (.error (.suspended v))
      ((Effect.pushResumePoint point).apply m').2 := .perform .pure
  refine ⟨after ++ [.change m' ((Effect.pushResumePoint point).apply m').2], _, ?_, ?_, fun g =>
    (m'.sameStates_pushResumePoint point g).trans (same g)⟩
  · rw [← List.append_assoc]
    exact run.handle pushed
  · intro moment mem
    rcases List.mem_append.1 mem with earlier | last
    · exact records moment earlier
    · exact ⟨m', point, List.mem_singleton.1 last⟩

theorem Part.relays (h : engine.Part x m before [] y m₁)
    (ends : engine.Passes y.run m₁ inner (.error (.suspended v)) m₂) :
    engine.Relays x m (before ++ inner) v m₂ := by
  generalize none : ([] : List (Option GeneratorId)) = entered at h
  induction h with
  | self => exact ⟨[], m₂, by simpa using ends, by simp, fun _ => rfl⟩
  | first _ ih =>
    obtain ⟨after, m', run, rest⟩ := ih ends none
    exact ⟨after, m', run.fault, rest⟩
  | next run _ ih =>
    obtain ⟨after, m', rest, kept⟩ := ih ends none
    exact ⟨after, m', by simpa only [List.append_assoc] using run.proceed rest, kept⟩
  | within _ ih =>
    obtain ⟨after, m', run, rest⟩ := ih ends none
    exact ⟨after, _, run.within, rest⟩
  | withinBody _ ih =>
    obtain ⟨after, m', run, rest⟩ := ih ends none
    exact ⟨after, _, run.withinBody, rest⟩
  | call _ ih =>
    obtain ⟨after, m', run, rest⟩ := ih ends none
    exact ⟨after, m', run.call, rest⟩
  | construct _ ih =>
    obtain ⟨after, m', run, rest⟩ := ih ends none
    exact ⟨after, m', run.construct, rest⟩
  | round _ ih =>
    obtain ⟨after, m', run, rest⟩ := ih ends none
    exact ⟨after, m', run.loopFault, rest⟩
  | again run _ ih =>
    obtain ⟨after, m', rest, kept⟩ := ih ends none
    exact ⟨after, m', by simpa only [List.cons_append, List.append_assoc] using run.loopAgain rest,
      kept⟩
  | recorded _ ih => exact relays_recording (ih ends none)
  | settled _ ih =>
    obtain ⟨after, m', run, rest⟩ := ih ends none
    exact ⟨after, m', by simpa using run.handle (f := settle _) .pure, rest⟩
  | handled run _ ih =>
    obtain ⟨after, m', rest, kept⟩ := ih ends none
    exact ⟨after, m', by simpa only [List.append_assoc] using run.handle rest, kept⟩
  | frame | script | driven => simp at none

inductive EnteredBy (engine : Engine σ) (x : Eval σ α) (m : Machine σ) (before : List (Moment σ))
    (g : GeneratorId) (outer : List (Option GeneratorId)) (y : Eval σ β) (m₁ : Machine σ) : Prop where
  | drive {receiver : Value} {resumption : Resumption} {brand : Option String}
      {resumed : Option Resumption} {frame : Frame} {closure : Closure} {m₀ m' : Machine σ}
      {pre mid : List (Moment σ)}
      (drives : engine.Part x m pre outer (drive engine.shortcuts receiver resumption brand) m₀)
      (start : m₀.Starts receiver resumption brand g resumed frame closure m')
      (body : engine.Part (closure.node.run engine.shortcuts) (m'.push frame) mid [] y m₁)
      (path : before = pre ++ .look m₀ :: .change m₀ m' :: mid)

theorem EnteredBy.lift {γ : Type} {x' : Eval σ γ} {m' : Machine σ} {g : GeneratorId}
    {inner : List (Option GeneratorId)} (h : engine.EnteredBy x' m' before g inner y m₁)
    (trace : List (Moment σ))
    (into : ∀ {δ : Type} {z : Eval σ δ} {m₀ : Machine σ} {pre : List (Moment σ)},
      engine.Part x' m' pre inner z m₀ → engine.Part x m (trace ++ pre) outer z m₀) :
    engine.EnteredBy x m (trace ++ before) g outer y m₁ := by
  obtain ⟨drives, start, body, rfl⟩ := h
  exact ⟨into drives, start, body, (List.append_assoc ..).symm⟩

theorem Part.enteredBy {g : GeneratorId} (h : engine.Part x m before (some g :: outer) y m₁) :
    engine.EnteredBy x m before g outer y m₁ := by
  generalize links : some g :: outer = entered at h
  induction h generalizing outer with
  | self => cases links
  | first _ ih => exact (ih links).lift [] .first
  | next run _ ih => exact (ih links).lift _ (.next run)
  | within _ ih => exact (ih links).lift [] .within
  | withinBody _ ih => exact (ih links).lift [] .withinBody
  | call _ ih => exact (ih links).lift [_] .call
  | construct _ ih => exact (ih links).lift [_] .construct
  | round _ ih => exact (ih links).lift [_] .round
  | again run _ ih => exact (ih links).lift (_ :: _) (.again run)
  | recorded _ ih => exact (ih links).lift [] .recorded
  | settled _ ih => exact (ih links).lift [] .settled
  | handled run _ ih => exact (ih links).lift _ (.handled run)
  | @frame _ _ _ _ _ _ _ _ entered unlinked _ ih =>
    cases entered with
    | nil => cases links
    | cons link rest =>
      cases links
      exact (ih rfl).lift [] (.frame unlinked)
  | @script _ _ _ _ _ _ _ _ entered unlinked _ ih =>
    cases entered with
    | nil => cases links
    | cons link rest =>
      cases links
      exact (ih rfl).lift [] (.script unlinked)
  | @driven _ _ _ _ _ _ _ _ _ _ _ _ _ entered start body ih =>
    cases entered with
    | nil =>
      cases links
      exact ⟨.self, start, body, rfl⟩
    | cons link rest =>
      cases links
      exact (ih rfl).lift [_, _] (.driven start)

end Engine

/-! ## The frame that runs -/

def Machine.RunsIn (m m₁ : Machine σ) : (entered : List (Option GeneratorId)) → Prop
  | [] => m₁.runningGenerator? = m.runningGenerator?
  | none :: _ => m₁.runningGenerator? = none
  | some _ :: _ => True

namespace Machine.RunsIn

variable {m₁ : Machine σ} {entered : List (Option GeneratorId)}

theorem of_eq (h : m'.RunsIn m₁ entered) (same : m'.runningGenerator? = m.runningGenerator?) :
    m.RunsIn m₁ entered := by
  rcases entered with _ | ⟨_ | g, outer⟩
  · exact h.trans same
  · exact h
  · trivial

theorem of_stack (h : m'.RunsIn m₁ entered) (stack : m'.stack = m.stack) : m.RunsIn m₁ entered :=
  h.of_eq (by rw [runningGenerator?, runningGenerator?, stack])

theorem setScope {lexical varScope : EnvironmentId}
    (h : (m.setScope lexical varScope).RunsIn m₁ entered) : m.RunsIn m₁ entered :=
  h.of_eq (by rw [runningGenerator?_eq, runningGenerator?_eq, links_setScope])

theorem push {frame : Frame} (unlinked : frame.generator = none)
    (h : (m.push frame).RunsIn m₁ entered) : m.RunsIn m₁ (entered ++ [none]) := by
  rcases entered with _ | ⟨_ | g, outer⟩
  · exact h.trans unlinked
  · exact h
  · trivial

theorem drive {frame : Frame} {g : GeneratorId} (h : (m.push frame).RunsIn m₁ entered) :
    m.RunsIn m₁ (entered ++ [some g]) := by
  rcases entered with _ | ⟨_ | g, outer⟩
  · trivial
  · exact h
  · trivial

end Machine.RunsIn

namespace Engine

variable {x : Eval σ α} {y : Eval σ β} {m₁ m₂ : Machine σ} {before inner : List (Moment σ)}
  {entered outer : List (Option GeneratorId)} {v : Value}

theorem Part.runsIn (h : engine.Part x m before entered y m₁) : m.RunsIn m₁ entered := by
  induction h with
  | self => rfl
  | first _ ih | call _ ih | construct _ ih | round _ ih | recorded _ ih | settled _ ih => exact ih
  | next run _ ih | again run _ ih | handled run _ ih => exact ih.of_stack run.stack
  | within _ ih | withinBody _ ih => exact ih.setScope
  | frame unlinked _ ih | script unlinked _ ih => exact ih.push unlinked
  | driven start _ ih => exact ih.drive.of_stack start.stack

/-- The marker with which a part suspends goes back to the drive that entered the innermost frame,
and only records are left on its way. -/
inductive ReachesDrive (engine : Engine σ) (x : Eval σ α) (m : Machine σ)
    (before : List (Moment σ)) (g : GeneratorId) (outer : List (Option GeneratorId))
    (inner : List (Moment σ)) (v : Value) (m₂ : Machine σ) : Prop where
  | answers {receiver : Value} {resumption : Resumption} {brand : Option String}
      {resumed : Option Resumption} {frame : Frame} {closure : Closure}
      {m₀ m' m₃ parked m₄ : Machine σ} {pre mid after : List (Moment σ)} {o : ObjectId}
      (drives : engine.Part x m pre outer (drive engine.shortcuts receiver resumption brand) m₀)
      (start : m₀.Starts receiver resumption brand g resumed frame closure m')
      (path : before = pre ++ .look m₀ :: .change m₀ m' :: mid)
      (body : engine.Passes (closure.node.run engine.shortcuts).run (m'.push frame)
        (mid ++ inner ++ after) (.error (.suspended v)) m₃)
      (records : ∀ moment ∈ after, moment.Records) (same : m₂.SameStates m₃)
      (parks : parked = m₃.pop.modifyGenerator g (·.suspend frame))
      (answer : engine.Passes (drive engine.shortcuts receiver resumption brand).run m₀
        (.look m₀ :: .change m₀ m' :: (mid ++ inner ++ after ++
          [.change m₃.pop parked, .look parked, .change parked m₄])) (.ok (.object o)) m₄)

theorem EnteredBy.reachesDrive {g : GeneratorId} (h : engine.EnteredBy x m before g outer y m₁)
    (ends : engine.Passes y.run m₁ inner (.error (.suspended v)) m₂) :
    engine.ReachesDrive x m before g outer inner v m₂ := by
  obtain ⟨drives, start, body, path⟩ := h
  obtain ⟨after, m₃, run, records, same⟩ := body.relays ends
  exact ⟨drives, start, path, run, records, same, rfl,
    start.passes run (.perform (.read (.perform .pure)))⟩

end Engine

def Machine.Executing (m : Machine σ) (g : GeneratorId) : Prop :=
  ∃ generator, m.generator? g = some generator ∧ generator.state = .executing

theorem Machine.SameStates.executing {g : GeneratorId} (h : m.SameStates m')
    (running : m'.Executing g) : m.Executing g := by
  obtain ⟨generator, hg, state⟩ := running
  have same := h g
  rw [hg, Option.map_some, state] at same
  exact Option.map_eq_some_iff.1 same.symm

theorem Machine.Starts.executing (fair : engine.Fair) {receiver : Value} {resumption : Resumption}
    {brand : Option String} {g : GeneratorId} {resumed : Option Resumption} {frame : Frame}
    {closure : Closure} {m₁ : Machine σ}
    (start : m.Starts receiver resumption brand g resumed frame closure m') (h : m.Orderly)
    {trace : List (Moment σ)} {r : Except Fault Completion}
    (body : engine.Passes (closure.node.run engine.shortcuts).run (m'.push frame) trace r m₁) :
    frame.generator = some g ∧ m₁.Executing g := by
  obtain ⟨generator, drivable, runs, hg, parked, rfl, rfl⟩ := start.found
  have idle := (Machine.drivable_eq_ok.1 drivable).2.2.2
  obtain ⟨own, entered⟩ := h.entered hg (Generator.ready_of_resumed idle runs) parked
  refine ⟨own, ?_⟩
  obtain ⟨fuel, -, run⟩ := engine.exists_answers_run body.run 0
  have resumes := FunctionNode.resumes (engine.promises_kept fair fuel) engine.shortcuts
    frame.strict generator.closure.node _ (h.enter hg idle resumed own) rfl entered
  obtain ⟨h₁, advances, -⟩ := engine.safe_result run resumes
  exact h₁.running (advances.running.trans own)

theorem Stmt.suspends (host : engine.HostUnsuspended) {s : Stmt} {labels : List String}
    {trace : List (Moment σ)} {v : Value}
    (ends : engine.Passes (s.eval engine.shortcuts labels).run m trace (.error (.suspended v)) m') :
    ∃ g, m.runningGenerator? = some g := by
  refine Option.ne_none_iff_exists'.1 fun free => ?_
  obtain ⟨fuel, run⟩ := Engine.exists_passes_iff.1 ⟨trace, ends⟩
  exact (s.composed labels).contained host (fun _ => free) fuel _ _ run v rfl

theorem Engine.Part.executing (fair : engine.Fair) {change : Machine σ → Machine σ → Prop}
    (leaves : ∀ m m', change m m' → m'.generators = m.generators ∧ m'.stack = m.stack)
    {m₁ m₂ : Machine σ} (reachable : engine.Reachable change m) {operation : Operation α}
    {y : Eval σ β} {before inner : List (Moment σ)} {entered : List (Option GeneratorId)}
    {v : Value} (part : engine.Part (operation.evaluate engine) m before entered y m₁)
    (ends : engine.Passes y.run m₁ inner (.error (.suspended v)) m₂)
    (running : m₁.runningGenerator? ≠ none) :
    ∃ g outer, entered = some g :: outer ∧ m₁.runningGenerator? = some g ∧ m₂.Executing g := by
  obtain ⟨h, links⟩ := Engine.reachable_orderly fair leaves reachable
  have free : m.runningGenerator? = none := by rw [m.runningGenerator?_eq, links]; rfl
  have inside := part.runsIn
  rcases entered with _ | ⟨_ | g, outer⟩
  · exact absurd (inside.trans free) running
  · exact absurd inside running
  · obtain ⟨drives, start, body, -⟩ := part.enteredBy
    obtain ⟨after, m₃, run, -, same⟩ := body.relays ends
    have looked := (drives.meets .look).holds engine fun fuel =>
      ⟨_, detached_operation (engine.promises_kept fair fuel) engine operation m h free⟩
    obtain ⟨own, executing⟩ := start.executing fair looked run
    exact ⟨g, outer, rfl, body.runsIn.trans own, same.executing executing⟩

/-- Nothing but a statement ends with the marker of a suspension. Where a statement does, in any
run, a generator runs, and the marker goes back to the drive that entered its frame, unless the
frame was there before the run. -/
theorem suspension_contained {engine : Engine σ} (host : engine.HostUnsuspended) :
    (∀ {α : Type} (operation : Operation α), operation.yields = false → ∀ fuel m r m',
      engine.run fuel (operation.evaluate engine) m = .finished r m' → Unsuspended r) ∧
    ∀ {α : Type} (operation : Operation α) {m m₁ m₂ : Machine σ} {s : Stmt} {labels : List String}
      {before inner : List (Moment σ)} {entered : List (Option GeneratorId)} {v : Value},
      engine.Part (operation.evaluate engine) m before entered (s.eval engine.shortcuts labels) m₁ →
      engine.Passes (s.eval engine.shortcuts labels).run m₁ inner (.error (.suspended v)) m₂ →
      (∃ g, m₁.runningGenerator? = some g ∧
        (entered = [] ∧ engine.Relays (operation.evaluate engine) m (before ++ inner) v m₂ ∨
          ∃ g' outer, entered = some g' :: outer ∧
            engine.ReachesDrive (operation.evaluate engine) m before g' outer inner v m₂)) ∧
      ((∀ f ∈ engine.host, ∀ this arguments, engine.HostCode (f.run this arguments).run) →
        ∀ {change : Machine σ → Machine σ → Prop},
          (∀ m m', change m m' → m'.generators = m.generators ∧ m'.stack = m.stack) →
          engine.Reachable change m →
            ∃ g outer, entered = some g :: outer ∧ m₁.runningGenerator? = some g ∧
              m₂.Executing g) := by
  constructor
  · intro α operation calm fuel m
    exact operation.composed.contained host (fun yields => by simp [calm] at yields) fuel
  intro α operation m m₁ m₂ s labels before inner entered v part ends
  obtain ⟨g, running⟩ := Stmt.suspends host ends
  refine ⟨⟨g, running, ?_⟩, fun code _ leaves reachable => ?_⟩
  · have inside := part.runsIn
    rcases entered with _ | ⟨_ | g', outer⟩
    · exact .inl ⟨rfl, part.relays ends⟩
    · cases inside.symm.trans running
    · exact .inr ⟨g', outer, rfl, part.enteredBy.reachesDrive ends⟩
  · exact part.executing ⟨code, fun f listed this arguments fuel => host f listed this arguments fuel⟩
      leaves reachable ends (by simp [running])

def Machine.withGeneratorCalled (body : List Stmt) : Machine Unit :=
  let node : FunctionNode :=
    { name := none, parameters := [], body := .block body, arrow := false, generator := true
      strict := false, span := {} }
  let closure : Closure :=
    { name := none, node, environment := ⟨0⟩, thisMode := .global, constructorKind := .base
      homeObject := none, isClass := false, constructable := false, isDefault := false
      strict := false }
  let scope : Environment :=
    { outer := some ⟨0⟩
      record := .function
        { this := .bound (.object ⟨0⟩), function := ⟨0⟩, newTarget := .undefined
          homeObject := none } }
  let frame : Frame :=
    { lexical := ⟨1⟩, varScope := ⟨1⟩, generator := some ⟨0⟩, strict := false
      name := some "<anonymous>" }
  let m := Machine.withGenerator body
  { m with
    store :=
      { heap := ⟨m.heap.objects.push { prototype := some ⟨0⟩, kind := .generator ⟨0⟩ }⟩
        environments := m.store.environments.push scope }
    generators := #[{ frame := some frame, function := ⟨0⟩, closure }] }

/-- A generator is driven to its first `yield`, in an engine with a function of the host. -/
theorem suspension_contained_yield :
    let engine : Engine Unit :=
      { host := [{ name := "stop", arity := 1
                   run := fun _ arguments => do
                    perform .cancel
                    pure (arguments.headD .undefined) }] }
    let yielding : Stmt := .expression (.yield none {}) {}
    let drive : Operation Value := .drive (.object ⟨1⟩) (.next .undefined) none
    ∃ m m₁ m₂ before inner, engine.Reachable Machine.Untouched m ∧
      engine.Part (drive.evaluate engine) m before [some ⟨0⟩] (yielding.eval engine.shortcuts []) m₁ ∧
      engine.Passes (yielding.eval engine.shortcuts []).run m₁ inner
        (.error (.suspended .undefined)) m₂ ∧
      m₁.runningGenerator? = some ⟨0⟩ ∧ m₂.Executing ⟨0⟩ ∧
      engine.ReachesDrive (drive.evaluate engine) m before ⟨0⟩ [] inner .undefined m₂ := by
  intro engine yielding drive
  have first : engine.Reachable Machine.Untouched (Machine.withGenerator [yielding]) := by
    refine .change (.start {} ()) ⟨?_, ?_⟩
    · rw [engine.start_generators]
      rfl
    · rw [engine.start_stack]
      rfl
  let call : Operation Value := .call (.object ⟨0⟩) .undefined []
  have called : engine.run 1 (call.evaluate engine) (Machine.withGenerator [yielding]) =
    .finished (.ok (.object ⟨1⟩)) (Machine.withGeneratorCalled [yielding]) := rfl
  have reachable := first.operate call called
  obtain ⟨frame, closure, m₀, start⟩ : ∃ frame closure m₀,
      (Machine.withGeneratorCalled [yielding]).Starts (.object ⟨1⟩) (.next .undefined) none ⟨0⟩ none frame closure m₀ :=
    ⟨_, _, _, ⟨_, rfl, rfl⟩, rfl⟩
  -- Until the statement is evaluated, the machine is as it was when the frame was pushed.
  obtain ⟨_, begins⟩ : ∃ before, engine.Part (closure.node.run engine.shortcuts) (m₀.push frame)
      before [] (yielding.eval engine.shortcuts []) (m₀.push frame) := by
    obtain ⟨_, taken⟩ : ∃ trace, engine.Passes takeList.run (m₀.push frame) trace (.ok none)
        (m₀.push frame) := by
      cases start.taken
      exact Engine.exists_passes_iff.2 ⟨0, rfl⟩
    obtain ⟨_, counted⟩ : ∃ trace, engine.Passes (attempt .checkLimits).run (m₀.push frame) trace
        (.ok ()) (m₀.push frame) := by
      cases start.taken
      exact Engine.exists_passes_iff.2 ⟨0, rfl⟩
    have body : closure.node.body = .block [yielding] := by
      cases start.taken
      rfl
    obtain ⟨_, listed⟩ : ∃ before, engine.Part (evalFrom engine.shortcuts [yielding] 0 0 none)
        (m₀.push frame) before [] (yielding.eval engine.shortcuts []) (m₀.push frame) := by
      simp only [evalFrom]
      exact ⟨_, .first (.next counted (.settled (.recorded .self)))⟩
    simp only [FunctionNode.run, body]
    exact ⟨_, .next taken listed⟩
  have part : engine.Part (drive.evaluate engine) (Machine.withGeneratorCalled [yielding]) _
      [some ⟨0⟩] (yielding.eval engine.shortcuts []) (m₀.push frame) := .driven start begins
  have suspends : ((engine.run 0 (yielding.eval engine.shortcuts []) (m₀.push frame)).andThen
      fun r _ => .finished r Machine.bare) =
        .finished (.error (.suspended .undefined)) Machine.bare := by
    cases start.taken
    cbv
  obtain ⟨r, m₂, run, same⟩ := Outcome.andThen_eq_finished.1 suspends
  cases same
  obtain ⟨inner, ends⟩ := Engine.exists_passes_iff.2 ⟨0, run⟩
  have host : engine.HostUnsuspended := by
    intro f found this arguments
    rw [List.mem_singleton.1 found]
    exact fun _ _ => .finished (unsuspended_ok _) _
  have code : ∀ f ∈ engine.host, ∀ this arguments, engine.HostCode (f.run this arguments).run := by
    intro f found this arguments
    rw [List.mem_singleton.1 found]
    exact .perform _ (fun _ => rfl) fun _ => .pure _
  obtain ⟨⟨-, -, reaches⟩, inside⟩ := (suspension_contained host).2 drive part ends
  obtain ⟨g, outer, entered, running, executing⟩ := inside code (fun _ _ kept => kept) reachable
  cases entered
  rcases reaches with ⟨none, -⟩ | ⟨g', outer', entered, reaches⟩
  · cases none
  · cases entered
    exact ⟨_, _, m₂, _, inner, reachable, part, ends, running, executing, reaches⟩

end ScriptEngine
