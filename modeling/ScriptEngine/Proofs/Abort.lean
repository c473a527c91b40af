import ScriptEngine.Proofs.Parts
import ScriptEngine.Proofs.Generator.Invariant

/-!
# Host aborts are final

A run consists of its parts (`Engine.Covers`). When a part ends with a host abort, the whole ends
with it, and until then only the generators are completed whose frames are left
(`host_aborts_final`).
-/

namespace ScriptEngine

open Eval

variable {σ α β γ : Type}

namespace Eval

inductive Primitive : (α : Type) → Eval σ α → Prop where
  | ask {α : Type} (view : Machine σ → α) : Primitive α (ask view)
  | askFor {α : Type} (view : Machine σ → Except Fault α) : Primitive α (askFor view)
  | perform {α : Type} (effect : Effect σ α) : Primitive α (perform effect)
  | attempt {α : Type} (effect : Effect σ (Except Fault α)) : Primitive α (attempt effect)

inductive Comes (m : Machine σ) : {α : Type} → Eval σ α → Moment σ → Prop where
  | ask {α : Type} (view : Machine σ → α) : Comes m (ask view) (.look m)
  | askFor {α : Type} (view : Machine σ → Except Fault α) : Comes m (askFor view) (.look m)
  | perform {α : Type} (effect : Effect σ α) :
      Comes m (perform effect) (.change m (effect.apply m).2)
  | attempt {α : Type} (effect : Effect σ (Except Fault α)) :
      Comes m (attempt effect) (.change m (effect.apply m).2)
  | call (callee this : Value) (arguments : List Value) :
      Comes m (call callee this arguments) (.look m)
  | construct (callee : Value) (arguments : List Value) (newTarget : Option Value) :
      Comes m (construct callee arguments newTarget) (.look m)
  | loop (l : Loop) : Comes m (loop l) (.round l m)

theorem safe_handle {J : Moment σ → Prop} {P : Promises σ} {m : Machine σ} {x : Eval σ α}
    {f : Except Fault α → Eval σ β} {Q : Except Fault β → Machine σ → Prop} :
    (outcome x >>= f).Safe J P m Q = x.Safe J P m fun r m' => (f r).Safe J P m' Q := by
  rw [safe_bind, safe_outcome]
  rfl

end Eval

/-- The functions of the host pass errors through: they are put together from looks, effects and
requests in such a way that the fault of each is their own. -/
def Engine.PassesErrors (engine : Engine σ) : Prop :=
  ∀ f ∈ engine.host, ∀ this arguments, Composed engine Primitive true (f.run this arguments)

namespace Engine

def Covered (engine : Engine σ) (x : Eval σ α) (m : Machine σ) (moment : Moment σ) : Prop :=
  ∃ (β : Type) (y : Eval σ β) (before : List (Moment σ)) (entered : List (Option GeneratorId))
    (m₁ : Machine σ), engine.Part x m before entered y m₁ ∧ Comes m₁ y moment

def Covers (engine : Engine σ) (x : Eval σ α) (m : Machine σ) : Prop :=
  ∀ moment, engine.Meets x.run m moment → engine.Covered x m moment

/-! ## Parts cover a run -/

def CoveredIn (engine : Engine σ) (x : Eval σ α) (m : Machine σ) (fuel : Nat) (y : Eval σ β) :
    Prop :=
  ∀ ⦃before : List (Moment σ)⦄ ⦃entered : List (Option GeneratorId)⦄ ⦃m₁ : Machine σ⦄,
    engine.Part x m before entered y m₁ →
      y.Safe (engine.Covered x m) (engine.promises (engine.Covered x m) fuel) m₁
        fun _ _ => True

section

variable {engine : Engine σ} {x : Eval σ α} {m : Machine σ} {fuel : Nat} {y : Eval σ β}

theorem Part.covered {before : List (Moment σ)} {entered : List (Option GeneratorId)}
    {m₁ : Machine σ} {moment : Moment σ} (part : engine.Part x m before entered y m₁)
    (comes : Comes m₁ y moment) :
    engine.Covered x m moment := ⟨β, y, before, entered, m₁, part, comes⟩

theorem coveredIn_ofExcept (r : Except Fault β) :
    engine.CoveredIn x m fuel (Eval.ofExcept r) := fun _ _ _ _ => trivial

theorem coveredIn_primitive (h : Primitive β y) : engine.CoveredIn x m fuel y := by
  intro before entered m₁ part
  cases h with
  | ask view => exact ⟨part.covered (.ask view), trivial⟩
  | askFor view => exact ⟨part.covered (.askFor view), trivial⟩
  | perform effect => exact ⟨part.covered (.perform effect), trivial⟩
  | attempt effect => exact ⟨part.covered (.attempt effect), trivial⟩

theorem coveredIn_bind {f : β → Eval σ γ} (hy : engine.CoveredIn x m fuel y)
    (hf : ∀ b, engine.CoveredIn x m fuel (f b)) : engine.CoveredIn x m fuel (y >>= f) := by
  intro before entered m₁ part
  rw [safe_bind]
  have faithful := engine.promises_faithful (J := engine.Covered x m) fuel
  refine (Action.safe_iff faithful).2 ⟨hy (part.trans (.first .self)), fun r m₂ run => ?_⟩
  cases r with
  | error fault => trivial
  | ok b =>
    obtain ⟨trace, passes⟩ := (engine.passing fuel).passes run
    exact hf b (part.trans (.next passes .self))

theorem coveredIn_handle {f : Except Fault β → Eval σ γ}
    (inner : ∀ {m₁}, engine.Part (outcome y >>= f) m₁ [] [] y m₁) (hy : engine.CoveredIn x m fuel y)
    (hf : ∀ r, engine.CoveredIn x m fuel (f r)) : engine.CoveredIn x m fuel (outcome y >>= f) := by
  intro before entered m₁ part
  rw [safe_handle]
  have faithful := engine.promises_faithful (J := engine.Covered x m) fuel
  refine (Action.safe_iff faithful).2 ⟨hy (part.trans inner), fun r m₂ run => ?_⟩
  obtain ⟨trace, passes⟩ := (engine.passing fuel).passes run
  exact hf r (part.trans (.handled passes .self))

theorem coveredIn_recording {point : ResumePoint} (hy : engine.CoveredIn x m fuel y) :
    engine.CoveredIn x m fuel (recording point y) := by
  refine coveredIn_handle (.recorded .self) hy fun r => ?_
  cases r with
  | ok b => exact coveredIn_ofExcept _
  | error fault =>
    dsimp only
    split
    · exact coveredIn_bind (coveredIn_primitive (.perform _)) fun _ => coveredIn_ofExcept _
    · exact coveredIn_ofExcept _

section

variable (calls : ∀ callee this arguments,
    engine.CoveredIn x m fuel (call callee this arguments))
  (constructs : ∀ callee arguments newTarget,
    engine.CoveredIn x m fuel (construct callee arguments newTarget))

include calls constructs

theorem coveredIn_simple {y : Eval σ β} (h : Simple y) : engine.CoveredIn x m fuel y := by
  induction h with
  | ofExcept _ => exact coveredIn_ofExcept _
  | ask _ => exact coveredIn_primitive (.ask _)
  | askFor _ _ => exact coveredIn_primitive (.askFor _)
  | perform _ => exact coveredIn_primitive (.perform _)
  | attempt _ _ => exact coveredIn_primitive (.attempt _)
  | bind _ _ ihx ihf => exact coveredIn_bind ihx ihf
  | within scope _ ih => exact fun _ _ _ part => ih (part.trans (.within .self))
  | call callee this arguments => exact calls callee this arguments
  | construct callee arguments newTarget => exact constructs callee arguments newTarget

theorem coveredIn_settle (location : Span) (r : Except Fault Completion) :
    engine.CoveredIn x m fuel (settle location r) := by
  cases r with
  | ok completion => exact coveredIn_ofExcept _
  | error fault =>
    simp only [settle]
    split
    · exact coveredIn_ofExcept _
    · exact coveredIn_bind (coveredIn_simple calls constructs (simple_faultValue fault))
        fun _ => coveredIn_ofExcept _

theorem coveredIn_finishRun (g : GeneratorId) (frame : Frame) (r : Except Fault Completion) :
    engine.CoveredIn x m fuel (finishRun g frame r) := by
  have answered : engine.CoveredIn x m fuel (answerRun r) :=
    coveredIn_simple calls constructs (simple_answerRun r)
  rcases finishRun_cases g frame r with ⟨-, e⟩ | ⟨-, e⟩ <;> rw [e]
  all_goals exact coveredIn_bind (coveredIn_primitive (.perform _)) fun _ => answered

theorem coveredIn_runGenerator {g : GeneratorId} {resumed : Option Resumption}
    {before : List (Moment σ)} {entered : List (Option GeneratorId)} {m₁ : Machine σ}
    (body : ∀ {frame closure m'},
      (Effect.startRun g resumed).apply m₁ = (.ok (frame, closure), m') →
        (closure.node.run engine.shortcuts).Safe (engine.Covered x m)
          (engine.promises (engine.Covered x m) fuel) (m'.push frame) fun _ _ => True)
    (part : engine.Part x m before entered (runGenerator engine.shortcuts g resumed) m₁) :
    (runGenerator engine.shortcuts g resumed).Safe (engine.Covered x m)
      (engine.promises (engine.Covered x m) fuel) m₁ fun _ _ => True := by
  have faithful := engine.promises_faithful (J := engine.Covered x m) fuel
  have taken : engine.Passes (attempt (.startRun g resumed) : Eval σ (Frame × Closure)).run m₁
      [.change m₁ ((Effect.startRun g resumed).apply m₁).2] _ _ := .perform .pure
  rw [runGenerator, safe_bind, safe_attempt]
  refine ⟨(part.trans (.first .self)).covered (.attempt _), ?_⟩
  obtain ⟨r, m', start⟩ : ∃ r m', (Effect.startRun g resumed).apply m₁ = (r, m') := ⟨_, _, rfl⟩
  rw [start] at taken ⊢
  cases r with
  | error fault => trivial
  | ok taking =>
    obtain ⟨frame, closure⟩ := taking
    change (outcome (inFrame frame (closure.node.run engine.shortcuts)) >>= finishRun g frame).Safe
      _ _ m' _
    rw [safe_handle]
    refine (Action.safe_iff faithful).2 ⟨body start, fun r m₂ run => ?_⟩
    obtain ⟨trace, passes⟩ := (engine.passing fuel).passes run
    exact coveredIn_finishRun calls constructs g frame r
      (part.trans (.next taken (.handled passes .self)))

theorem coveredIn_drive (receiver : Value) (resumption : Resumption) (brand : Option String)
    (h : ∀ closure : Closure, engine.CoveredIn x m fuel (closure.node.run engine.shortcuts)) :
    engine.CoveredIn x m fuel (drive engine.shortcuts receiver resumption brand) := by
  intro before entered m₁ part
  have faithful := engine.promises_faithful (J := engine.Covered x m) fuel
  have asked : engine.Passes (askFor fun m : Machine σ => m.drivable receiver brand).run m₁
      [.look m₁] (m₁.drivable receiver brand) m₁ := .read .pure
  obtain ⟨f, drive, leads⟩ := drive_eq (σ := σ) engine.shortcuts receiver resumption brand
  have driven := part
  rw [drive] at part ⊢
  rw [safe_bind, safe_askFor]
  refine ⟨(part.trans (.first .self)).covered (.askFor _), ?_⟩
  cases found : m₁.drivable receiver brand with
  | error fault => trivial
  | ok pair =>
  obtain ⟨g, generator⟩ := pair
  have leads := leads g generator
  rw [found] at asked
  replace part := part.trans (.next asked .self)
  change (f (g, generator)).Safe _ _ m₁ _
  cases runs : generator.resumed? resumption with
  | none =>
    have done : engine.CoveredIn x m fuel (driveDone resumption) :=
      coveredIn_simple calls constructs (simple_driveDone resumption)
    simp only [runs] at leads
    rcases leads with e | ⟨-, e⟩ <;> rw [e] at part ⊢
    · exact done part
    · exact coveredIn_bind (coveredIn_primitive (.perform _)) (fun _ => done) part
  | some resumed =>
    simp only [runs] at leads
    rw [leads] at part ⊢
    refine coveredIn_runGenerator calls constructs (fun start => ?_) part
    exact h _ (driven.trans (.driven ⟨⟨generator, found, runs⟩, start⟩ .self))

theorem coveredIn_script {program : Program} {frame : Frame} {scope : EnvironmentId}
    (unlinked : frame.generator = none)
    (h : engine.CoveredIn x m fuel (do
      declareGlobals scope program.scope
      evalStatements engine.shortcuts program.body)) :
    engine.CoveredIn x m fuel (inFrame frame (program.runBody engine.shortcuts scope)) := by
  intro before entered m₁ part
  have faithful := engine.promises_faithful (J := engine.Covered x m) fuel
  change (program.runBody engine.shortcuts scope).Safe _ _ (m₁.push frame) _
  unfold Program.runBody
  rw [safe_handle]
  refine (Action.safe_iff faithful).2 ⟨h (part.trans (.script unlinked .self)), fun r m₂ run => ?_⟩
  obtain ⟨trace, passes⟩ := (engine.passing fuel).passes run
  have left := part.trans (.frame unlinked (.handled passes .self))
  cases r with
  | ok completion => trivial
  | error fault =>
    by_cases abort : fault.isHostAbort = true
    · simp only [abort, if_true]
      trivial
    · simp only [abort] at left ⊢
      exact coveredIn_bind (coveredIn_simple calls constructs (simple_faultValue fault))
        (fun _ => coveredIn_ofExcept _) left

theorem coveredIn_composed (loops : ∀ l, engine.CoveredIn x m fuel (loop l)) {yields : Bool}
    {y : Eval σ β} (h : Composed engine Primitive yields y) : engine.CoveredIn x m fuel y := by
  induction h with
  | leaf h => exact coveredIn_primitive h
  | simple h => exact coveredIn_simple calls constructs h
  | checkDepth => exact coveredIn_primitive (.askFor _)
  | perform _ => exact coveredIn_primitive (.perform _)
  | checkLimits => exact coveredIn_primitive (.attempt _)
  | bind _ _ ihx ihf => exact coveredIn_bind ihx ihf
  | look _ _ ih =>
    intro before entered m₁ part
    exact ⟨(part.trans (.first .self)).covered (.ask _),
      ih m₁ (part.trans (.next (.read .pure) .self))⟩
  | within scope _ ih => exact fun _ _ _ part => ih (part.trans (.within .self))
  | withinBody scope _ ih => exact fun _ _ _ part => ih (part.trans (.withinBody .self))
  | inFrame unlinked _ ih => exact fun _ _ _ part => ih (part.trans (.frame unlinked .self))
  | loop l => exact loops l
  | recorded point _ ih => exact coveredIn_recording ih
  | settled location _ ih =>
    exact coveredIn_handle (.settled .self) ih (coveredIn_settle calls constructs location)
  | suspendAt _ slot span ih =>
    refine coveredIn_bind (coveredIn_primitive (.ask _)) fun running => ?_
    cases running with
    | none => exact coveredIn_ofExcept _
    | some g =>
      exact coveredIn_bind ih fun v => coveredIn_bind (coveredIn_primitive (.perform _))
        fun _ => coveredIn_ofExcept _
  | script unlinked _ ih => exact coveredIn_script calls constructs unlinked ih
  | driven receiver resumption brand _ ih =>
    exact coveredIn_drive calls constructs receiver resumption brand ih

end

theorem coveredIn (passing : engine.PassesErrors) {yields : Bool}
    (h : Composed engine Primitive yields y) : engine.CoveredIn x m fuel y := by
  induction fuel generalizing yields β with
  | zero =>
    refine coveredIn_composed (fun callee this arguments _ _ _ part => ?_)
      (fun callee arguments newTarget _ _ _ part => ?_) (fun l _ _ _ part => ?_) h
    · exact ⟨part.covered (.call ..), trivial⟩
    · exact ⟨part.covered (.construct ..), trivial⟩
    · trivial
  | succ fuel ih =>
    have faithful := engine.promises_faithful (J := engine.Covered x m) fuel
    have composed (invocation : Invocation) :
        Composed engine Primitive true (invocation.eval engine) := invocation.composed passing
    refine coveredIn_composed (fun callee this arguments _ _ m₁ part => ?_)
      (fun callee arguments newTarget _ _ m₁ part => ?_) (fun l _ _ m₁ part => ?_) h
    · exact ⟨part.covered (.call ..), ih (composed _) (part.trans (.call .self))⟩
    · exact ⟨part.covered (.construct ..), ih (composed _) (part.trans (.construct .self))⟩
    · refine ⟨part.covered (.loop l), (Action.safe_iff faithful).2
        ⟨ih l.composed_round (part.trans (.round .self)), fun r m₂ run => ?_⟩⟩
      obtain ⟨trace, passes⟩ := (engine.passing fuel).passes run
      rcases r with fault | step
      · trivial
      · cases step with
        | done completion => trivial
        | again next => exact ih (.loop next) (part.trans (.again passes .self))

theorem covers (passing : engine.PassesErrors) {yields : Bool}
    (h : Composed engine Primitive yields x) : engine.Covers x m :=
  fun _ meets => meets.holds engine fun _ => ⟨_, coveredIn passing h .self⟩

end

end Engine

/-! ## Generators whose frames are left -/

def Machine.Completed (m : Machine σ) (g : GeneratorId) : Prop :=
  ∃ generator, m.generator? g = some generator ∧ generator.state = .completed

namespace Machine

variable {m : Machine σ} {g : GeneratorId}

theorem completed_complete (made : g.index < m.generators.size) :
    (m.modifyGenerator g (·.complete)).Completed g := by
  refine ⟨m.generators[g.index].complete, ?_, rfl⟩
  rw [m.generator?_modifyGenerator, if_pos rfl, generator?, Array.getElem?_eq_getElem made]
  rfl

theorem Completed.complete (h : m.Completed g) (g' : GeneratorId) :
    (m.modifyGenerator g' (·.complete)).Completed g := by
  obtain ⟨generator, found, state⟩ := h
  by_cases same : g = g'
  · exact ⟨generator.complete, by rw [m.generator?_modifyGenerator, if_pos same, found]; rfl, rfl⟩
  · exact ⟨generator, by rw [m.generator?_modifyGenerator, if_neg same, found], state⟩

theorem Completed.completeAll (h : m.Completed g) (generators : List GeneratorId) :
    (m.completeAll generators).Completed g := by
  induction generators generalizing m with
  | nil => exact h
  | cons g' rest ih => exact ih (h.complete g')

theorem completed_completeAll {generators : List GeneratorId} (made : g.index < m.generators.size)
    (listed : g ∈ generators) : (m.completeAll generators).Completed g := by
  induction generators generalizing m with
  | nil => cases listed
  | cons g' rest ih =>
    cases listed with
    | head => exact (completed_complete made).completeAll rest
    | tail _ later => exact ih (by simpa [modifyGenerator] using made) later

end Machine

namespace Engine

variable {engine : Engine σ} {x : Eval σ α} {y : Eval σ β} {m m₁ m₂ : Machine σ}
  {before inner : List (Moment σ)} {entered : List (Option GeneratorId)}

theorem Passes.generators {x : Action σ α} {a : α} {trace : List (Moment σ)}
    (h : engine.Passes x m trace a m₁) : m.generators.size ≤ m₁.generators.size :=
  generators_kept.action (generators_kept.total engine) h.run

theorem Part.generators (h : engine.Part x m before entered y m₁) :
    m.generators.size ≤ m₁.generators.size := by
  induction h with
  | self => exact Nat.le_refl _
  | first _ ih | within _ ih | withinBody _ ih | frame _ _ ih | call _ ih | construct _ ih
  | round _ ih | recorded _ ih | settled _ ih | script _ _ ih => exact ih
  | next run _ ih | again run _ ih | handled run _ ih => exact Nat.le_trans run.generators ih
  | driven start _ ih => exact Nat.le_trans (Nat.le_of_eq start.generators.symm) ih

theorem Part.made (h : engine.Part x m before entered y m₁) {g : GeneratorId}
    (mem : some g ∈ entered) : g.index < m₁.generators.size := by
  induction h with
  | self => cases mem
  | first _ ih | within _ ih | withinBody _ ih | call _ ih | construct _ ih | round _ ih
  | recorded _ ih | settled _ ih | next _ _ ih | again _ _ ih | handled _ _ ih => exact ih mem
  | frame _ _ ih | script _ _ ih => exact ih (by simpa using mem)
  | driven start part ih =>
    rcases List.mem_append.1 mem with inside | own
    · exact ih inside
    · cases List.mem_singleton.1 own
      exact Nat.lt_of_lt_of_le (start.generators.symm ▸ start.made) part.generators

end Engine

/-- A run of an operation consists of its parts. As soon as one of them ends with a host abort, the
operation ends with it: all that comes after it is that the generators are completed whose frames
have been entered. -/
theorem host_aborts_final {engine : Engine σ} (passing : engine.PassesErrors)
    (operation : Operation α) (m : Machine σ) :
    engine.Covers (operation.evaluate engine) m ∧
      ∀ {β : Type} {y : Eval σ β} {before inner : List (Moment σ)}
        {entered : List (Option GeneratorId)} {m₁ m₂ : Machine σ} {fault : Fault},
        engine.Part (operation.evaluate engine) m before entered y m₁ →
        engine.Passes y.run m₁ inner (.error fault) m₂ → fault.isHostAbort = true →
          ∃ fuel after m', engine.run fuel (operation.evaluate engine) m =
              .finished (.error fault) m' ∧
            engine.Passes (operation.evaluate engine).run m (before ++ inner ++ after)
              (.error fault) m' ∧
            List.Forall₂ Moment.Completes entered.reduceOption after ∧
            ∀ g, some g ∈ entered → m'.Completed g := by
  refine ⟨Engine.covers passing operation.composed, fun part ends abort => ?_⟩
  obtain ⟨after, passes, completes⟩ := part.abort abort ends
  obtain ⟨fuel, run⟩ := Engine.exists_passes_iff.1 ⟨_, passes⟩
  refine ⟨fuel, after, _, run, passes, completes, fun g mem => ?_⟩
  exact Machine.completed_completeAll (Nat.lt_of_lt_of_le (part.made mem) ends.generators)
    (List.reduceOption_mem_iff.2 mem)

def Machine.withParked (body : List Stmt) : Machine Unit :=
  let node : FunctionNode :=
    { name := none, parameters := [], body := .block body, arrow := false, generator := true
      strict := false, span := {} }
  let closure : Closure :=
    { name := none, node, environment := ⟨0⟩, thisMode := .global, constructorKind := .base
      homeObject := none, isClass := false, constructable := false, isDefault := false
      strict := false }
  let frame : Frame :=
    { lexical := ⟨0⟩, varScope := ⟨0⟩, generator := some ⟨0⟩, strict := false }
  { Machine.bare with
    store := { Machine.bare.store with heap := ⟨#[{ kind := .generator ⟨0⟩ }]⟩ }
    generators := #[{ frame := some frame, function := ⟨0⟩, closure }]
    limits := [.statements { limit := 1 }] }

/-- The second statement is refused in the block of a `try` statement, while a generator runs:
neither its catch clause nor its finalizer runs, and the generator is completed. -/
theorem host_aborts_final_driven :
    let engine : Engine Unit :=
      { host := [{ name := "depth", arity := 0
                   run := fun _ _ => do
                    let depth ← ask (·.stack.depth)
                    pure (.number (Float.ofNat depth)) }] }
    let m := Machine.withParked
      [.tryCatch [.empty {}] (some ⟨none, [.empty {}]⟩) (some [.empty {}]) {}]
    let drive : Operation Value := .drive (.object ⟨0⟩) (.next .undefined) none
    ∃ fuel m', engine.run fuel (drive.evaluate engine) m =
      .finished (.error (.limitExceeded (.statements 1))) m' ∧ m'.Completed ⟨0⟩ := by
  intro engine m drive
  have passing : engine.PassesErrors := by
    intro f found this arguments
    rw [List.mem_singleton.1 found]
    exact .bind (.leaf (.ask _)) fun _ => (simple_pure _).composed
  obtain ⟨frame, closure, m₀, start⟩ : ∃ frame closure m₀,
      m.Starts (.object ⟨0⟩) (.next .undefined) none ⟨0⟩ none frame closure m₀ :=
    ⟨_, _, _, ⟨_, rfl, rfl⟩, rfl⟩
  have part : engine.Part (drive.evaluate engine) m _ _
      (closure.node.run engine.shortcuts) (m₀.push frame) :=
    .driven start .self
  have refused : ((engine.run 0 (closure.node.run engine.shortcuts) (m₀.push frame)).andThen
      fun r _ => .finished r Machine.bare) =
        .finished (.error (.limitExceeded (.statements 1))) Machine.bare := by
    cases start.taken
    cbv
  obtain ⟨r, m₂, run, same⟩ := Outcome.andThen_eq_finished.1 refused
  cases same
  obtain ⟨inner, ends⟩ := Engine.exists_passes_iff.2 ⟨0, run⟩
  obtain ⟨fuel, -, m', done, -, -, completed⟩ :=
    (host_aborts_final passing drive m).2 part ends rfl
  exact ⟨fuel, m', done, completed ⟨0⟩ (List.mem_singleton_self _)⟩

end ScriptEngine
