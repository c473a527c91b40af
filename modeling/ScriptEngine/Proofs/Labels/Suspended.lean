import ScriptEngine.Proofs.Generator.Containment
import ScriptEngine.Proofs.Generator.Refinement
import ScriptEngine.Proofs.Labels.Body

/-!
# The records of suspended generators

Between the runs of its body the records of a generator stay as they are, whatever other code does,
so the completions in them stay within what is around their `try` statements
(`Engine.aimed_observable`).
-/

namespace ScriptEngine

open Eval

variable {σ α β : Type} {generator : Generator} {resumption : Option Resumption}

def Generator.Aimed (generator : Generator) : Prop :=
  generator.closure.node.wellLabelled = true → generator.resumePoints = [] ∨
    ∃ strict, generator.closure.node.body.Aims strict generator.resumePoints

def Machine.Aimed (m : Machine σ) : Prop :=
  ∀ g generator, m.generator? g = some generator → some g ∉ m.links → generator.Aimed

def Moment.Aimed : Moment σ → Prop
  | .look m | .round _ m => m.Aimed
  | .change .. => True

/-! ## What keeps the records aimed -/

namespace Machine.Aimed

variable {m m' : Machine σ} {g : GeneratorId} {change : Generator → Generator}

theorem congr (h : m.Aimed) (generators : m'.generators = m.generators)
    (links : m'.links = m.links) : m'.Aimed := by
  intro g generator hg unlinked
  rw [generator?, generators] at hg
  exact h g generator hg (links ▸ unlinked)

theorem setScope (h : m.Aimed) (lexical varScope : EnvironmentId) :
    (m.setScope lexical varScope).Aimed := h.congr rfl (m.links_setScope lexical varScope)

theorem push (h : m.Aimed) (frame : Frame) : (m.push frame).Aimed :=
  fun g generator hg unlinked => h g generator hg fun linked => unlinked (.tail _ linked)

theorem pop (h : m'.Aimed) (frames : m'.links = none :: m.links) : m'.pop.Aimed := by
  intro g generator hg unlinked
  refine h g generator hg fun linked => unlinked ?_
  rw [frames] at linked
  simpa [frames] using linked

theorem modify (h : m.Aimed) (keeps : ∀ generator, m.generator? g = some generator →
    some g ∉ m.links → generator.Aimed → (change generator).Aimed) :
    (m.modifyGenerator g change).Aimed := by
  intro g' generator' hg' unlinked
  rw [generator?_modifyGenerator] at hg'
  split at hg'
  · rename_i same
    subst same
    obtain ⟨generator, hg, rfl⟩ := Option.map_eq_some_iff.1 hg'
    exact keeps generator hg unlinked (h g' generator hg unlinked)
  · exact h g' generator' hg' unlinked

theorem modify_running (h : m.Aimed) (running : m.runningGenerator? = some g) :
    (m.modifyGenerator g change).Aimed := by
  refine h.modify fun _ _ unlinked => absurd ?_ unlinked
  rw [runningGenerator?_eq, Option.join_eq_some_iff] at running
  exact List.mem_of_mem_head? running

theorem leave (h : m'.Aimed) {links : List (Option GeneratorId)}
    (frames : m'.links = some g :: links)
    (left : ∀ generator, m'.generator? g = some generator → (change generator).Aimed) :
    (m'.pop.modifyGenerator g change).Aimed := by
  intro g' generator' hg' unlinked
  rw [generator?_modifyGenerator, generator?_pop] at hg'
  split at hg'
  · rename_i same
    subst same
    obtain ⟨generator, hg, rfl⟩ := Option.map_eq_some_iff.1 hg'
    exact left generator hg
  · rename_i other
    refine h g' generator' hg' fun linked => unlinked ?_
    rw [frames, List.mem_cons] at linked
    have linked := linked.resolve_left (by simpa using other)
    simpa [frames] using linked

theorem effect (h : m.Aimed) (effect : Effect σ β) : (effect.apply m).2.Aimed := by
  cases effect with
  | createGenerator function closure frame =>
    intro g generator hg unlinked
    rw [generator?_createGenerator] at hg
    split at hg
    · cases hg
      exact fun _ => .inl rfl
    · exact h g generator hg unlinked
  | startRun g resumption =>
    simp only [Effect.apply]
    split
    · exact h
    · split
      · exact h
      · split
        · exact h
        · exact h.modify fun _ _ _ aimed => aimed
  | suspend g frame => exact h.modify fun _ _ _ aimed => aimed
  | complete g => exact h.modify fun _ _ _ _ _ => .inl rfl
  | takeResumePoint | pushResumePoint | takeResumption =>
    simp only [Effect.apply]
    split
    · exact h
    · rename_i running
      exact h.modify_running running
  | _ => exact h.congr rfl rfl

end Machine.Aimed

/-! ## Code that enters frames of generators in drives only -/

inductive Engine.Framed (engine : Engine σ) : {α : Type} → Action σ α → Prop where
  | plain {α : Type} {x : Action σ α} {received : Option Fault} {ok : α → Option Fault → Prop}
      (h : x.Plain received ok) : engine.Framed x
  | read {α β : Type} (view : Machine σ → β) {next : β → Action σ α}
      (rest : ∀ m, engine.Framed (next (view m))) : engine.Framed (.read view next)
  | perform {α β : Type} (effect : Effect σ β) {next : β → Action σ α}
      (rest : ∀ b, engine.Framed (next b)) : engine.Framed (.perform effect next)
  | inScope {α β : Type} (lexical : EnvironmentId) (varScope : Option EnvironmentId)
      {body : Action σ β} {next : β → Action σ α} (inside : engine.Framed body)
      (rest : ∀ b, engine.Framed (next b)) :
      engine.Framed (.inScope lexical varScope body next)
  | inFrame {α β : Type} {frame : Frame} (unlinked : frame.generator = none)
      {body : Action σ β} {next : β → Action σ α} (inside : engine.Framed body)
      (rest : ∀ b, engine.Framed (next b)) : engine.Framed (.inFrame frame body next)
  | loop {α : Type} (l : Loop) {next : Except Fault Completion → Action σ α}
      (rest : ∀ r, engine.Framed (next r)) : engine.Framed (.loop l next)
  | bind {α β : Type} {x : Action σ α} {f : α → Action σ β} (first : engine.Framed x)
      (rest : ∀ a, engine.Framed (f a)) : engine.Framed (x.bind f)
  | drive (receiver : Value) (resumption : Resumption) (brand : Option String)
      (bodies : ∀ closure : Closure, engine.Framed (closure.node.run engine.shortcuts).run) :
      engine.Framed (Eval.drive engine.shortcuts receiver resumption brand).run

theorem Engine.framed_pure {engine : Engine σ} (a : α) : engine.Framed (.pure a : Action σ α) :=
  .plain (show Action.Plain (.pure a) none fun _ _ => True from trivial)

namespace Eval

variable {engine : Engine σ} {x : Eval σ α}

open Engine

theorem framed_bind {f : α → Eval σ β} (hx : engine.Framed x.run)
    (hf : ∀ a, engine.Framed (f a).run) : engine.Framed (x >>= f).run := by
  refine .bind hx fun r => ?_
  cases r with
  | ok a => exact hf a
  | error fault => exact framed_pure _

theorem framed_handle {f : Except Fault α → Eval σ β} (hx : engine.Framed x.run)
    (hf : ∀ r, engine.Framed (f r).run) : engine.Framed (outcome x >>= f).run :=
  framed_bind (.bind hx fun _ => framed_pure _) hf

theorem framed_script {program : Program} {scope : EnvironmentId}
    (h : engine.Framed (do
      declareGlobals scope program.scope
      evalStatements engine.shortcuts program.body).run) :
    engine.Framed (program.runBody engine.shortcuts scope).run := by
  refine framed_handle h fun r => ?_
  cases r with
  | ok completion => exact framed_pure _
  | error fault =>
    dsimp only
    split
    · exact framed_pure _
    · exact framed_bind (.plain (simple_faultValue fault).plain) fun _ => framed_pure _

theorem framed_recording (point : ResumePoint) (h : engine.Framed x.run) :
    engine.Framed (recording point x).run := by
  refine framed_handle h fun r => ?_
  cases r with
  | ok a => exact framed_pure _
  | error fault =>
    dsimp only
    split
    · exact framed_bind (.perform _ fun _ => framed_pure _) fun _ => framed_pure _
    · exact framed_pure _

theorem framed_settle (location : Span) (r : Except Fault Completion) :
    engine.Framed (settle location r : Eval σ Completion).run := by
  unfold settle
  split
  · exact framed_pure _
  · split
    · exact framed_pure _
    · exact framed_bind (.plain (simple_faultValue _).plain) fun _ => framed_pure _

theorem framed_suspendAt {operand : Eval σ Value} (h : engine.Framed operand.run) (slot : Nat)
    (span : Span) : engine.Framed (suspendAt operand slot span).run := by
  refine .read _ fun m => ?_
  cases m.runningGenerator? with
  | none => exact framed_pure _
  | some g =>
    exact framed_bind h fun v => framed_bind (.perform _ fun _ => framed_pure _) fun _ =>
      framed_pure _

theorem Composed.framed {leaf : (α : Type) → Eval σ α → Prop}
    (leaves : ∀ {α : Type} {x : Eval σ α}, leaf α x → engine.Framed x.run) {yields : Bool}
    (h : Composed engine leaf yields x) : engine.Framed x.run := by
  induction h with
  | leaf h => exact leaves h
  | simple h => exact .plain h.plain
  | checkDepth => exact .read _ fun _ => framed_pure _
  | perform | checkLimits => exact .perform _ fun _ => framed_pure _
  | bind _ _ ihx ihf => exact framed_bind ihx ihf
  | look _ _ ih => exact .read _ ih
  | within _ _ ih | withinBody _ _ ih => exact .inScope _ _ ih fun _ => framed_pure _
  | inFrame unlinked _ ih => exact .inFrame unlinked ih fun _ => framed_pure _
  | loop l => exact .loop l fun _ => framed_pure _
  | recorded point _ ih => exact framed_recording point ih
  | settled location _ ih => exact framed_handle ih (framed_settle location)
  | suspendAt _ slot span ih => exact framed_suspendAt ih slot span
  | script unlinked _ ih => exact .inFrame unlinked (framed_script ih) fun _ => framed_pure _
  | driven receiver resumption brand _ ih => exact .drive receiver resumption brand ih

end Eval

theorem Engine.HostCode.framed {engine : Engine σ} {x : Action σ α} (h : engine.HostCode x) :
    engine.Framed x := by
  induction h with
  | pure a => exact framed_pure a
  | read view _ ih => exact .read view fun _ => ih _
  | perform effect _ _ ih => exact .perform effect ih
  | operate operation _ ih =>
    have composed : Composed engine (fun _ _ => False) _ (operation.evaluate engine) :=
      operation.composed
    exact .bind (composed.framed fun h => h.elim) ih

/-! ## Every run -/

def Engine.KeepsAim (engine : Engine σ) (fuel : Nat) (x : Action σ α) : Prop :=
  ∀ (m : Machine σ) {R : α → Machine σ → Prop},
    x.Safe Moment.Orderly (engine.promises Moment.Orderly fuel) m R → m.Aimed →
      x.Safe Moment.Aimed (engine.promises Moment.Aimed fuel) m fun _ m' => m'.Aimed

section

variable {engine : Engine σ} {fuel : Nat}
  (calls : ∀ invocation, engine.KeepsAim fuel (.invoke invocation .pure))
  {m : Machine σ}

include calls

theorem Action.Plain.aimed {x : Action σ α} {received : Option Fault} {ok : α → Option Fault → Prop}
    (plain : x.Plain received ok) {R : α → Machine σ → Prop}
    (safe : x.Safe Moment.Orderly (engine.promises Moment.Orderly fuel) m R) (aimed : m.Aimed) :
    x.Safe Moment.Aimed (engine.promises Moment.Aimed fuel) m fun a m' =>
      m'.Aimed ∧ ∃ received, ok a received := by
  have faithful := engine.promises_faithful (J := Moment.Orderly) fuel
  have faithful' := engine.promises_faithful (J := Moment.Aimed) fuel
  induction x generalizing received m with
  | pure a => exact ⟨aimed, received, plain⟩
  | read view next ih => exact ⟨aimed, ih _ (plain.2 m) safe.2 aimed⟩
  | perform effect next ih => exact ⟨trivial, ih _ (plain.2.2 m) safe.2 (aimed.effect effect)⟩
  | inScope lexical varScope body next ihBody ih =>
    have safe : body.Safe _ _ _ _ := safe
    refine ((ihBody plain safe (aimed.setScope _ _)).and faithful'
      (((Action.safe_iff faithful).1 safe).2)).mono fun b m₁ post => ?_
    obtain ⟨⟨aimed₁, received₁, rest⟩, safe₁⟩ := post
    exact ih b rest safe₁ (aimed₁.setScope _ _)
  | inFrame frame body next _ _ => exact plain.elim
  | invoke invocation next ih =>
    have asked := faithful.invoke.1 safe.2
    have answer := faithful'.invoke.1 (calls invocation m (R := fun _ _ => True) ⟨safe.1, asked.1⟩ aimed).2
    exact ⟨aimed, faithful'.invoke.2 ⟨answer.1, fun r m' run =>
      ih r (plain.2 r) (asked.2 r m' run) (answer.2 r m' run)⟩⟩
  | loop l next ih => exact plain.elim

theorem Eval.Plain.aimed {x : Eval σ α} (plain : Plain x) : engine.KeepsAim fuel x.run :=
  fun _ _ safe aimed => (Action.Plain.aimed calls plain safe aimed).mono fun _ _ post => post.1

theorem aimed_finishRun {g : GeneratorId} {generator : Generator} {frame : Frame}
    {r : Except Fault Completion} {R : Except Fault Value → Machine σ → Prop}
    {links : List (Option GeneratorId)}
    (safe : (finishRun g frame r).Safe Moment.Orderly (engine.promises Moment.Orderly fuel) m.pop R)
    (aimed : m.Aimed) (frames : m.links = some g :: links) (hg : m.generator? g = some generator)
    (left : ∀ v, r = .error (.suspended v) → generator.Aimed) :
    (finishRun g frame r).Safe Moment.Aimed (engine.promises Moment.Aimed fuel) m.pop
      fun _ m' => m'.Aimed := by
  have answers := (simple_answerRun r).plain.aimed calls
  rcases finishRun_cases g frame r with ⟨⟨v, suspended⟩, e⟩ | ⟨-, e⟩ <;>
    rw [e, safe_bind, safe_perform] at safe ⊢
  · refine ⟨trivial, answers _ safe.2 (aimed.leave frames fun generator' hg' => ?_)⟩
    cases hg.symm.trans hg'
    exact left v suspended
  · exact ⟨trivial, answers _ safe.2 (aimed.leave frames fun _ _ _ => .inl rfl)⟩

end

theorem Machine.Orderly.unlinked {m : Machine σ} (h : m.Orderly) {g : GeneratorId}
    (hg : m.generator? g = some generator) (idle : generator.state ≠ .executing) :
    some g ∉ m.links := by
  intro linked
  obtain ⟨generator', hg', executing⟩ := h.executing linked
  cases hg.symm.trans hg'
  exact idle executing

theorem Machine.Aimed.entered {m : Machine σ} (aimed : m.Aimed) (h : m.Orderly) {g : GeneratorId}
    (hg : m.generator? g = some generator) (ready : generator.Ready resumption) {frame : Frame}
    (parked : generator.frame = some frame) (well : generator.closure.node.wellLabelled = true) :
    ((m.modifyGenerator g (·.run resumption)).push frame).points.Enters
      (generator.closure.node.body.Aims frame.strict) := by
  obtain ⟨own, -⟩ := h.entered hg ready parked
  have points : ((m.modifyGenerator g (·.run resumption)).push frame).points =
      some generator.resumePoints := by
    have running : ((m.modifyGenerator g (·.run resumption)).push frame).runningGenerator? = some g :=
      own
    have found : ((m.modifyGenerator g (·.run resumption)).push frame).generator? g =
        some (generator.run resumption) := by
      rw [generator?_push, generator?_modifyGenerator, if_pos rfl, hg, Option.map_some]
    rw [points_of_running running found, Generator.run]
  have quiet (none : generator.resumePoints = []) :
      ((m.modifyGenerator g (·.run resumption)).push frame).points.Quiet := by
    rw [points, none]
    rintro _ ⟨⟩
    rfl
  have orderly := h.generators g generator hg
  rcases ready with ⟨state, -⟩ | ⟨state, -⟩
  · simp only [Generator.Orderly, state] at orderly
    exact .inl (quiet orderly.2.1)
  · rcases aimed g generator hg (h.unlinked hg (by simp [state])) well with none | ⟨strict, aims⟩
    · exact .inl (quiet none)
    · simp only [Generator.Orderly, state, parked] at orderly
      obtain ⟨⟨_, ⟨rfl⟩, -, fits⟩, -⟩ := orderly
      exact .inr ⟨_, points, aims.of_fits fits⟩

section

variable {engine : Engine σ} (fair : engine.Fair) {fuel : Nat}
  (calls : ∀ invocation, engine.KeepsAim fuel (.invoke invocation .pure))
  {m : Machine σ}

include fair calls

theorem aimed_runGenerator
    (bodies : ∀ closure : Closure, engine.KeepsAim fuel (closure.node.run engine.shortcuts).run)
    (h : m.Orderly) (aimed : m.Aimed) {g : GeneratorId} {generator : Generator}
    (hg : m.generator? g = some generator) {resumption : Option Resumption}
    (ready : generator.Ready resumption) :
    (runGenerator engine.shortcuts g resumption).Safe Moment.Aimed
      (engine.promises Moment.Aimed fuel) m fun _ m' => m'.Aimed := by
  have kept := Engine.promises_kept fair fuel
  have faithful := engine.promises_faithful (J := Moment.Aimed) fuel
  refine safe_runGenerator_of engine.shortcuts h hg ready ⟨trivial, aimed⟩ fun frame parked => ?_
  obtain ⟨own, entered⟩ := h.entered hg ready parked
  have orderly := h.enter hg ready.idle resumption own
  have safe := FunctionNode.resumes kept engine.shortcuts frame.strict
    generator.closure.node _ orderly rfl entered
  have started : (m.modifyGenerator g (·.run resumption)).Aimed :=
    aimed.modify fun _ _ _ aimed => aimed
  have inside := bodies generator.closure _ safe (started.push frame)
  refine ⟨trivial, (inside.and faithful fun r m' run => And.intro (engine.safe_result run safe)
    fun well => ((Engine.trusts_orderly fair).eval
      (generator.closure.node.heeds frame.strict engine.shortcuts well)
      (aimed.entered h hg ready parked well) orderly rfl run).2).mono fun r m' post => ?_⟩
  obtain ⟨aimed', ⟨orderly', advances, left⟩, ends⟩ := post
  obtain ⟨points, w, hg', -⟩ := advances.executing g (generator.run resumption)
    (by rw [Machine.generator?_push, Machine.generator?_modifyGenerator]; simp [hg]) rfl
  have frames : m'.links = some g :: m.links := by simp [advances.links, own]
  refine aimed_finishRun calls (safe_finishRun kept h hg ready.step own orderly' advances left)
    aimed' frames hg' ?_
  rintro v rfl well
  exact .inr ⟨frame.strict, ends well points
    (Machine.points_of_running (advances.running.trans own) hg')⟩

theorem aimed_drive
    (bodies : ∀ closure : Closure, engine.KeepsAim fuel (closure.node.run engine.shortcuts).run)
    (receiver : Value) (resumption : Resumption) (brand : Option String) :
    engine.KeepsAim fuel (drive engine.shortcuts receiver resumption brand).run := by
  intro m R safe aimed
  have h : m.Orderly := safe.1
  have done := (simple_driveDone (σ := σ) resumption).plain
  have settles {m : Machine σ} (h : m.Orderly) := done.keeps (Engine.promises_kept fair fuel) m h
  refine safe_drive engine.shortcuts aimed (fun _ _ => aimed) (done.aimed calls m (settles h) aimed)
    (fun g generator hg state => ?_) fun g generator resumed hg ready =>
      aimed_runGenerator fair calls bodies h aimed hg ready
  have orderly := h.generators g generator hg
  simp only [Generator.Orderly, state] at orderly
  rw [safe_bind, safe_perform]
  exact ⟨trivial, done.aimed calls _ (settles (h.modify hg ⟨rfl, rfl, rfl, orderly.2.2.2⟩))
    (aimed.effect (.complete g))⟩

theorem Engine.Framed.aimed
    (loops : ∀ l, engine.KeepsAim fuel (.loop l .pure))
    {x : Action σ α} (framed : engine.Framed x) : engine.KeepsAim fuel x := by
  intro m R safe aimed
  have faithful := engine.promises_faithful (J := Moment.Orderly) fuel
  have faithful' := engine.promises_faithful (J := Moment.Aimed) fuel
  induction framed generalizing m with
  | plain h => exact (h.aimed calls safe aimed).mono fun _ _ post => post.1
  | read view _ ih => exact ⟨aimed, ih m _ safe.2 aimed⟩
  | perform effect _ ih => exact ⟨trivial, ih _ _ safe.2 (aimed.effect effect)⟩
  | @inScope _ _ lexical varScope body _ _ _ ihBody ih =>
    have safe : body.Safe _ _ _ _ := safe
    refine ((ihBody _ safe (aimed.setScope _ _)).and faithful'
      (((Action.safe_iff faithful).1 safe).2)).mono fun b m₁ post => ?_
    exact ih b _ post.2 (post.1.setScope _ _)
  | @inFrame _ _ frame unlinked body _ _ _ ihBody ih =>
    have safe : body.Safe _ _ _ _ := safe
    refine ((ihBody _ safe (aimed.push frame)).and faithful' fun b m₁ run =>
      And.intro (((Action.safe_iff faithful).1 safe).2 b m₁ run)
        (stack_kept.action (stack_kept.answers engine fuel) run)).mono fun b m₁ post => ?_
    obtain ⟨aimed₁, safe₁, stack⟩ := post
    have frames : m₁.links = none :: m.links := by
      rw [← unlinked, ← m.links_push, Machine.links, stack]
      rfl
    exact ih b _ safe₁ (aimed₁.pop frames)
  | loop l _ ih =>
    have asked := faithful.loop.1 safe
    have answer := faithful'.loop.1 (loops l m (R := fun _ _ => True) asked.1 aimed)
    exact faithful'.loop.2 ⟨answer.1, fun r m' run =>
      ih r m' (asked.2 r m' run) (answer.2 r m' run)⟩
  | bind _ _ ihx ihf =>
    rw [Action.safe_bind] at safe ⊢
    refine ((ihx m safe aimed).and faithful' (((Action.safe_iff faithful).1 safe).2)).mono
      fun a m₁ post => ?_
    exact ihf a m₁ post.2 post.1
  | drive receiver resumption brand _ ih =>
    exact aimed_drive fair calls ih receiver resumption brand m safe aimed

end

namespace Engine

variable {engine : Engine σ} (fair : engine.Fair) {m : Machine σ}

include fair

theorem aimed_requests (fuel : Nat) : (∀ invocation, engine.KeepsAim fuel (.invoke invocation .pure)) ∧
    ∀ l, engine.KeepsAim fuel (.loop l .pure) := by
  induction fuel with
  | zero => exact ⟨fun _ _ _ _ aimed => ⟨aimed, trivial⟩, fun _ _ _ _ _ => trivial⟩
  | succ fuel ih =>
    obtain ⟨calls, loops⟩ := ih
    constructor
    · intro invocation m R safe aimed
      have composed : Composed engine (OfHost engine) false (invocation.eval engine) :=
        invocation.composed fun f listed this arguments => .leaf (.run listed this arguments)
      refine ⟨aimed, (composed.framed fun h => ?_).aimed fair calls loops m safe.2 aimed⟩
      obtain ⟨listed, this, arguments⟩ := h
      exact (fair.code _ listed this arguments).framed
    · intro l m R safe aimed
      have faithful := engine.promises_faithful (J := Moment.Aimed) fuel
      have composed : Composed engine (fun _ _ => False) true (l.round engine.shortcuts) :=
        l.composed_round
      refine ⟨aimed, (((composed.framed fun h => h.elim).aimed fair calls loops m safe.2
        aimed).and faithful fun r m' run => engine.safe_result run safe.2).mono
          fun r m' post => ?_⟩
      rcases r with fault | step
      · exact post.1
      · cases step with
        | done completion => exact post.1
        | again next => exact loops next m' post.2 post.1

theorem aimed_operation (h : m.Orderly) (free : m.runningGenerator? = none) (aimed : m.Aimed)
    (operation : Operation α) (fuel : Nat) :
    (operation.evaluate engine).Safe Moment.Aimed (engine.promises Moment.Aimed fuel) m
      fun _ m' => m'.Aimed := by
  obtain ⟨calls, loops⟩ := aimed_requests fair fuel
  have composed : Composed engine (fun _ _ => False) _ (operation.evaluate engine) :=
    operation.composed
  exact (composed.framed fun h => h.elim).aimed fair calls loops m
    (detached_operation (promises_kept fair fuel) engine operation m h free) aimed

variable {change : Machine σ → Machine σ → Prop}
  (leaves : ∀ m m', change m m' → m'.generators = m.generators ∧ m'.stack = m.stack)

include leaves

theorem reachable_aimed (h : engine.Reachable change m) : m.Aimed := by
  induction h with
  | start options host =>
    intro g generator hg
    simp [Machine.generator?, start_generators] at hg
  | @operate _ m m' operation fuel r reachable run ih =>
    obtain ⟨orderly, links⟩ := reachable_orderly fair leaves reachable
    have free : m.runningGenerator? = none := by rw [m.runningGenerator?_eq, links]; rfl
    exact engine.safe_result run (aimed_operation fair orderly free ih operation fuel)
  | @change m m' _ changed ih =>
    obtain ⟨generators, stack⟩ := leaves m m' changed
    exact ih.congr generators (by simp only [Machine.links, stack])

theorem Observable.aimed (h : engine.Observable change m) : m.Aimed := by
  rcases h with reachable | ⟨α, operation, m₀, reachable, met⟩
  · exact reachable_aimed fair leaves reachable
  · obtain ⟨orderly, links⟩ := reachable_orderly fair leaves reachable
    have free : m₀.runningGenerator? = none := by rw [m₀.runningGenerator?_eq, links]; rfl
    exact met.holds engine fun fuel =>
      ⟨_, aimed_operation fair orderly free (reachable_aimed fair leaves reachable) operation fuel⟩

end Engine

/-- Jumps end at their targets. A well-labelled script completes without a jump in every machine,
and so does a well-labelled body in a frame of a call. -/
theorem jumps_contained (engine : Engine σ) :
    (∀ (program : Program) (m : Machine σ), program.wellLabelled = true → ∀ fuel c m',
      engine.run fuel (program.run engine.shortcuts) m = .finished (.ok c) m' → c.Jumpless) ∧
    (∀ (node : FunctionNode) (m : Machine σ), node.wellLabelled = true →
      m.runningGenerator? = none → ∀ fuel c m',
        engine.run fuel (node.run engine.shortcuts) m = .finished (.ok c) m' → c.Jumpless) ∧
    (engine.Fair → ∀ change : Machine σ → Machine σ → Prop,
      (∀ m m', change m m' → m'.generators = m.generators ∧ m'.stack = m.stack) →
      ∀ m, engine.Observable change m → ∀ receiver resumption brand g resumed frame closure m₁,
        m.Starts receiver resumption brand g resumed frame closure m₁ →
        closure.node.wellLabelled = true → ∀ fuel c m',
          engine.run fuel (closure.node.run engine.shortcuts) (m₁.push frame) =
            .finished (.ok c) m' → c.Jumpless) := by
  refine ⟨fun program m well fuel c m' run => Engine.run_jumpless well run,
    fun node m well free fuel c m' run => Engine.body_jumpless well free run, ?_⟩
  intro fair change leaves m observable receiver resumption brand g resumed frame closure m₁ starts
    well fuel c m' run
  have orderly := observable.orderly fair leaves
  obtain ⟨generator, drivable, runs, hg, parked, rfl, rfl⟩ := starts.found
  have idle := (Machine.drivable_eq_ok.1 drivable).2.2.2
  have ready := Generator.ready_of_resumed idle runs
  obtain ⟨own, -⟩ := orderly.entered hg ready parked
  exact ((Engine.trusts_orderly fair).eval
    (generator.closure.node.heeds frame.strict engine.shortcuts well)
    ((observable.aimed fair leaves).entered orderly hg ready parked well)
    (orderly.enter hg idle resumed own) rfl run).2.2.jumpless

/-- A generator breaks out of a loop and is suspended in a finalizer on the way. Taken up there, it
goes on with the break that was waiting, and its body completes without one. -/
theorem jumps_contained_finalizer :
    let engine : Engine Unit := {}
    let body : List Stmt :=
      [.labelled "l" (.whileLoop (.literal (.boolean true) {})
        (.tryCatch [.break (some "l") {}] none (some [.expression (.yield none {}) {}]) {}) {}) {}]
    ∃ m frame closure m₁ c m', engine.Reachable Machine.Untouched m ∧
      m.Starts (.object ⟨1⟩) (.next .undefined) none ⟨0⟩ (some (.next .undefined)) frame closure
        m₁ ∧
      closure.node.body = .block body ∧
      engine.run 1 (closure.node.run engine.shortcuts) (m₁.push frame) = .finished (.ok c) m' ∧
      c.Jumpless := by
  intro engine body
  have fair : engine.Fair := ⟨nofun, nofun⟩
  have first : engine.Reachable Machine.Untouched (Machine.withGenerator body) := by
    refine .change (.start {} ()) ⟨?_, ?_⟩
    · rw [engine.start_generators]
      rfl
    · rw [engine.start_stack]
      rfl
  have runs : ((engine.run 1 (Operation.evaluate engine (.call (.object ⟨0⟩) .undefined []))
      (Machine.withGenerator body)).andThen fun _ m =>
        (engine.run 1 (Operation.evaluate engine (.drive (.object ⟨1⟩) (.next .undefined) none))
          m).andThen fun _ m =>
            match (Effect.startRun ⟨0⟩ (some (.next .undefined))).apply m with
            | (.ok (frame, closure), m₁) =>
                (engine.run 1 (closure.node.run engine.shortcuts) (m₁.push frame)).andThen
                  fun r _ => .finished (r, closure.node.body,
                    (m.drivable (.object ⟨1⟩) none).map fun found =>
                      (found.1, found.2.resumed? (.next .undefined))) Machine.bare
            | (.error _, _) => .exhausted) =
      .finished (.ok (.normal (some .undefined)), .block body,
        .ok (⟨0⟩, some (some (.next .undefined)))) Machine.bare := by
    cbv
  obtain ⟨_, m₀, call, rest⟩ := Outcome.andThen_eq_finished.1 runs
  obtain ⟨_, m, drive, rest⟩ := Outcome.andThen_eq_finished.1 rest
  have reachable := (first.operate _ call).operate _ drive
  obtain ⟨⟨_ | ⟨frame, closure⟩, m₁⟩, started⟩ :
      ∃ taken, (Effect.startRun ⟨0⟩ (some (.next .undefined))).apply m = taken := ⟨_, rfl⟩
  · rw [started] at rest
    cases rest
  · rw [started] at rest
    obtain ⟨r, m', run, facts⟩ := Outcome.andThen_eq_finished.1 rest
    simp only [Outcome.finished.injEq, Prod.mk.injEq, and_true] at facts
    obtain ⟨rfl, block, found⟩ := facts
    have starts : m.Starts (.object ⟨1⟩) (.next .undefined) none ⟨0⟩ (some (.next .undefined))
        frame closure m₁ := by
      refine ⟨?_, started⟩
      cases drivable : m.drivable (.object ⟨1⟩) none with
      | error fault =>
          rw [drivable] at found
          cases found
      | ok driven =>
          rw [drivable] at found
          simp only [Except.map, Except.ok.injEq, Prod.mk.injEq] at found
          exact ⟨driven.2, by rw [← found.1], found.2⟩
    have well : closure.node.wellLabelled = true := by
      rw [FunctionNode.wellLabelled, block]
      decide
    exact ⟨m, frame, closure, m₁, _, m', reachable, starts, block, run,
      (jumps_contained engine).2.2 fair _ (fun _ _ untouched => untouched) m (.inl reachable) _ _ _
        _ _ _ _ _ starts well _ _ _ run⟩

end ScriptEngine
