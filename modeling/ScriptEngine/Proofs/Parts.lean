import ScriptEngine.Proofs.Composed.Call
import ScriptEngine.Proofs.Passing
import ScriptEngine.Proofs.Stack

/-!
# The parts of an evaluation

`Engine.Part` says which evaluations a run comes to, what it has come by until then, and which
frames it has entered.
-/

namespace ScriptEngine

open Eval

variable {σ α β γ : Type}

def Generator.resumed? (generator : Generator) (resumption : Resumption) :
    Option (Option Resumption) :=
  match generator.state, resumption with
  | .suspendedStart, .next _ => some none
  | .suspendedStart, _ | .completed, _ => none
  | _, _ => some (some resumption)

structure Machine.Starts (m : Machine σ) (receiver : Value) (resumption : Resumption)
    (brand : Option String) (g : GeneratorId) (resumed : Option Resumption) (frame : Frame)
    (closure : Closure) (m' : Machine σ) : Prop where
  drivable : ∃ generator, m.drivable receiver brand = .ok (g, generator) ∧
    generator.resumed? resumption = some resumed
  taken : (Effect.startRun g resumed).apply m = (.ok (frame, closure), m')

inductive Engine.Part (engine : Engine σ) : {α β : Type} → (x : Eval σ α) → (m : Machine σ) →
    (before : List (Moment σ)) → (entered : List (Option GeneratorId)) → (y : Eval σ β) →
    (m₁ : Machine σ) → Prop where
  | self {α : Type} {x : Eval σ α} {m : Machine σ} : engine.Part x m [] [] x m
  | first {α β γ : Type} {x : Eval σ α} {f : α → Eval σ β} {y : Eval σ γ} {m m₁ : Machine σ}
      {before : List (Moment σ)} {entered : List (Option GeneratorId)}
      (h : engine.Part x m before entered y m₁) : engine.Part (x >>= f) m before entered y m₁
  | next {α β γ : Type} {x : Eval σ α} {f : α → Eval σ β} {y : Eval σ γ} {m m' m₁ : Machine σ}
      {trace before : List (Moment σ)} {entered : List (Option GeneratorId)} {a : α}
      (run : engine.Passes x.run m trace (.ok a) m')
      (h : engine.Part (f a) m' before entered y m₁) :
      engine.Part (x >>= f) m (trace ++ before) entered y m₁
  | within {α γ : Type} {x : Eval σ α} {y : Eval σ γ} {m m₁ : Machine σ} {scope : EnvironmentId}
      {before : List (Moment σ)} {entered : List (Option GeneratorId)}
      (h : engine.Part x (m.setScope scope m.varScope) before entered y m₁) :
      engine.Part (within scope x) m before entered y m₁
  | withinBody {α γ : Type} {x : Eval σ α} {y : Eval σ γ} {m m₁ : Machine σ}
      {scope : EnvironmentId} {before : List (Moment σ)} {entered : List (Option GeneratorId)}
      (h : engine.Part x (m.setScope scope scope) before entered y m₁) :
      engine.Part (withinBody scope x) m before entered y m₁
  | frame {α γ : Type} {x : Eval σ α} {y : Eval σ γ} {m m₁ : Machine σ} {frame : Frame}
      {before : List (Moment σ)} {entered : List (Option GeneratorId)}
      (unlinked : frame.generator = none) (h : engine.Part x (m.push frame) before entered y m₁) :
      engine.Part (inFrame frame x) m before (entered ++ [none]) y m₁
  | call {γ : Type} {callee this : Value} {arguments : List Value} {y : Eval σ γ}
      {m m₁ : Machine σ} {before : List (Moment σ)} {entered : List (Option GeneratorId)}
      (h : engine.Part ((Invocation.call callee this arguments).eval engine) m before entered y m₁) :
      engine.Part (call callee this arguments) m (.look m :: before) entered y m₁
  | construct {γ : Type} {callee : Value} {arguments : List Value} {newTarget : Option Value}
      {y : Eval σ γ} {m m₁ : Machine σ} {before : List (Moment σ)}
      {entered : List (Option GeneratorId)}
      (h : engine.Part ((Invocation.construct callee arguments newTarget).eval engine) m before
        entered y m₁) :
      engine.Part (construct callee arguments newTarget) m (.look m :: before) entered y m₁
  | round {γ : Type} {l : Loop} {y : Eval σ γ} {m m₁ : Machine σ} {before : List (Moment σ)}
      {entered : List (Option GeneratorId)}
      (h : engine.Part (l.round engine.shortcuts) m before entered y m₁) :
      engine.Part (loop l) m (.round l m :: before) entered y m₁
  | again {γ : Type} {l l' : Loop} {y : Eval σ γ} {m m' m₁ : Machine σ}
      {trace before : List (Moment σ)} {entered : List (Option GeneratorId)}
      (run : engine.Passes (l.round engine.shortcuts).run m trace (.ok (.again l')) m')
      (h : engine.Part (loop l') m' before entered y m₁) :
      engine.Part (loop l) m (.round l m :: (trace ++ before)) entered y m₁
  | recorded {α γ : Type} {x : Eval σ α} {point : ResumePoint} {y : Eval σ γ} {m m₁ : Machine σ}
      {before : List (Moment σ)} {entered : List (Option GeneratorId)}
      (h : engine.Part x m before entered y m₁) :
      engine.Part (recording point x) m before entered y m₁
  | settled {γ : Type} {x : Eval σ Completion} {location : Span} {y : Eval σ γ} {m m₁ : Machine σ}
      {before : List (Moment σ)} {entered : List (Option GeneratorId)}
      (h : engine.Part x m before entered y m₁) :
      engine.Part (outcome x >>= settle location) m before entered y m₁
  | script {γ : Type} {program : Program} {frame : Frame} {scope : EnvironmentId} {y : Eval σ γ}
      {m m₁ : Machine σ} {before : List (Moment σ)} {entered : List (Option GeneratorId)}
      (unlinked : frame.generator = none)
      (h : engine.Part (do
        declareGlobals scope program.scope
        evalStatements engine.shortcuts program.body) (m.push frame) before entered y m₁) :
      engine.Part (inFrame frame (program.runBody engine.shortcuts scope)) m before
        (entered ++ [none]) y m₁
  | driven {γ : Type} {receiver : Value} {resumption : Resumption} {brand : Option String}
      {g : GeneratorId} {resumed : Option Resumption} {frame : Frame} {closure : Closure}
      {y : Eval σ γ} {m m' m₁ : Machine σ} {before : List (Moment σ)}
      {entered : List (Option GeneratorId)}
      (start : m.Starts receiver resumption brand g resumed frame closure m')
      (h : engine.Part (closure.node.run engine.shortcuts) (m'.push frame) before entered y m₁) :
      engine.Part (drive engine.shortcuts receiver resumption brand) m
        (.look m :: .change m m' :: before) (entered ++ [some g]) y m₁
  | handled {α β γ : Type} {x : Eval σ α} {f : Except Fault α → Eval σ β} {y : Eval σ γ}
      {m m' m₁ : Machine σ} {trace before : List (Moment σ)} {entered : List (Option GeneratorId)}
      {r : Except Fault α} (run : engine.Passes x.run m trace r m')
      (h : engine.Part (f r) m' before entered y m₁) :
      engine.Part (outcome x >>= f) m (trace ++ before) entered y m₁

namespace Engine

variable {engine : Engine σ} {x : Eval σ α} {y : Eval σ β} {z : Eval σ γ} {m m₁ m₂ : Machine σ}
  {before inner : List (Moment σ)} {entered entered' : List (Option GeneratorId)}

theorem Part.trans (h : engine.Part x m before entered y m₁)
    (h' : engine.Part y m₁ inner entered' z m₂) :
    engine.Part x m (before ++ inner) (entered' ++ entered) z m₂ := by
  induction h with
  | self =>
    rw [List.append_nil]
    exact h'
  | first _ ih => exact .first (ih h')
  | next run _ ih =>
    rw [List.append_assoc]
    exact .next run (ih h')
  | within _ ih => exact .within (ih h')
  | withinBody _ ih => exact .withinBody (ih h')
  | frame unlinked _ ih =>
    rw [← List.append_assoc]
    exact .frame unlinked (ih h')
  | call _ ih => exact .call (ih h')
  | construct _ ih => exact .construct (ih h')
  | round _ ih => exact .round (ih h')
  | again run _ ih =>
    rw [List.cons_append, List.append_assoc]
    exact .again run (ih h')
  | recorded _ ih => exact .recorded (ih h')
  | settled _ ih => exact .settled (ih h')
  | script unlinked _ ih =>
    rw [← List.append_assoc]
    exact .script unlinked (ih h')
  | driven start _ ih =>
    rw [← List.append_assoc]
    exact .driven start (ih h')
  | handled run _ ih =>
    rw [List.append_assoc]
    exact .handled run (ih h')

theorem Passes.stack {x : Action σ α} {a : α} {trace : List (Moment σ)}
    (h : engine.Passes x m trace a m₁) : m₁.stack = m.stack :=
  stack_kept.action (stack_kept.total engine) h.run

theorem Meets.bind {x : Action σ α} {f : α → Action σ β} {moment : Moment σ}
    (h : engine.Meets x m moment) : engine.Meets (x.bind f) m moment := by
  induction h with
  | look => exact .look
  | read _ ih => exact .read ih
  | change => exact .change
  | perform _ ih => exact .perform ih
  | inScope h _ => exact .inScope h
  | afterScope run _ ih => exact .afterScope run ih
  | inFrame h _ => exact .inFrame h
  | afterFrame run _ ih => exact .afterFrame run ih
  | call => exact .call
  | inCall h _ => exact .inCall h
  | afterCall run _ ih => exact .afterCall run ih
  | round => exact .round
  | inRound h _ => exact .inRound h
  | again run _ ih => exact .again run ih
  | afterLoop run _ ih => exact .afterLoop run ih

end Engine

theorem drive_eq (shortcuts : Bool) (receiver : Value) (resumption : Resumption)
    (brand : Option String) :
    ∃ f : GeneratorId × Generator → Eval σ Value, drive shortcuts receiver resumption brand =
        (askFor fun m => m.drivable receiver brand) >>= f ∧
      ∀ (g : GeneratorId) (generator : Generator), match generator.resumed? resumption with
        | some resumed => f (g, generator) = runGenerator shortcuts g resumed
        | none => f (g, generator) = driveDone resumption ∨ generator.state = .suspendedStart ∧
            f (g, generator) = perform (.complete g) >>= fun _ => driveDone resumption := by
  refine ⟨_, rfl, fun g generator => ?_⟩
  obtain ⟨state⟩ := generator
  cases state <;> cases resumption <;> first | rfl | exact .inl rfl | exact .inr ⟨rfl, rfl⟩

namespace Machine.Starts

variable {engine : Engine σ} {receiver : Value} {resumption : Resumption} {brand : Option String}
  {g : GeneratorId} {resumed : Option Resumption} {frame : Frame} {closure : Closure}
  {m m' m₁ m₂ : Machine σ}
  (start : m.Starts receiver resumption brand g resumed frame closure m')

include start

theorem found : ∃ generator, m.drivable receiver brand = .ok (g, generator) ∧
    generator.resumed? resumption = some resumed ∧ m.generator? g = some generator ∧
      generator.frame = some frame ∧ generator.closure = closure ∧
        m' = m.modifyGenerator g (·.run resumed) := by
  obtain ⟨generator, drivable, runs⟩ := start.drivable
  have hg := (Machine.drivable_eq_ok.1 drivable).2.1
  have taken := start.taken
  simp only [Effect.apply, hg] at taken
  refine ⟨generator, drivable, runs, hg, ?_⟩
  grind

theorem stack : m'.stack = m.stack := by
  obtain ⟨_, _, _, _, _, _, rfl⟩ := start.found
  rfl

theorem made : g.index < m.generators.size := by
  obtain ⟨_, _, _, hg, _⟩ := start.found
  exact (Array.getElem?_eq_some_iff.1 hg).1

theorem generators : m'.generators.size = m.generators.size := by
  obtain ⟨_, _, _, _, _, _, rfl⟩ := start.found
  exact Array.size_modify

theorem passes {inner after : List (Moment σ)} {r : Except Fault Completion}
    {r' : Except Fault Value}
    (h : engine.Passes (closure.node.run engine.shortcuts).run (m'.push frame) inner r m₁)
    (finish : engine.Passes (finishRun g frame r).run m₁.pop after r' m₂) :
    engine.Passes (drive engine.shortcuts receiver resumption brand).run m
      (.look m :: .change m m' :: (inner ++ after)) r' m₂ := by
  obtain ⟨generator, found, runs⟩ := start.drivable
  obtain ⟨f, drive, body⟩ := drive_eq (σ := σ) engine.shortcuts receiver resumption brand
  have body := body g generator
  simp only [runs] at body
  have asked : engine.Passes (askFor fun m : Machine σ => m.drivable receiver brand).run m [.look m]
      (m.drivable receiver brand) m := .read .pure
  have taken : engine.Passes (attempt (.startRun g resumed) : Eval σ (Frame × Closure)).run m
      [.change m ((Effect.startRun g resumed).apply m).2] ((Effect.startRun g resumed).apply m).1
      ((Effect.startRun g resumed).apply m).2 := .perform .pure
  rw [found] at asked
  rw [start.taken] at taken
  rw [drive]
  refine asked.proceed ?_
  rw [body]
  exact taken.proceed (h.framed.handle finish)

theorem meets {moment : Moment σ}
    (h : engine.Meets (closure.node.run engine.shortcuts).run (m'.push frame) moment) :
    engine.Meets (drive engine.shortcuts receiver resumption brand).run m moment := by
  obtain ⟨generator, found, runs⟩ := start.drivable
  obtain ⟨f, drive, body⟩ := drive_eq (σ := σ) engine.shortcuts receiver resumption brand
  have body := body g generator
  simp only [runs] at body
  rw [drive]
  refine .read ?_
  rw [found]
  change engine.Meets (f (g, generator)).run m moment
  rw [body]
  refine .perform ?_
  rw [start.taken]
  exact (Engine.Meets.inFrame h).bind.bind

end Machine.Starts

/-! ## Faults that nothing stops -/

def Machine.completeAll (m : Machine σ) (generators : List GeneratorId) : Machine σ :=
  generators.foldl (fun m g => m.modifyGenerator g (·.complete)) m

def Moment.Completes (g : GeneratorId) (moment : Moment σ) : Prop :=
  ∃ m, moment = .change m (m.modifyGenerator g (·.complete))

def Machine.onStackOf (m n : Machine σ) : Machine σ := { m with stack := n.stack }

theorem Machine.onStackOf_self {m n : Machine σ} (same : m.stack = n.stack) : m.onStackOf n = m := by
  rw [Machine.onStackOf, ← same]

theorem Machine.onStackOf_congr {m n n' : Machine σ} (same : n.stack = n'.stack) :
    m.onStackOf n = m.onStackOf n' := by
  rw [Machine.onStackOf, Machine.onStackOf, same]

theorem Machine.onStackOf_setScope (m n : Machine σ) (lexical varScope : EnvironmentId) :
    (m.onStackOf (n.setScope lexical varScope)).setScope n.lexical n.varScope = m.onStackOf n :=
  congrArg (fun stack => { m with stack }) (n.setScope_restores lexical varScope)

theorem Machine.completeAll_append (m : Machine σ) (generators : List GeneratorId)
    (g : GeneratorId) :
    m.completeAll (generators ++ [g]) = (m.completeAll generators).modifyGenerator g (·.complete) :=
  List.foldl_append

namespace Engine

variable {engine : Engine σ} {x : Eval σ α} {y : Eval σ β} {m m₁ m₂ : Machine σ}
  {before inner : List (Moment σ)} {entered : List (Option GeneratorId)} {fault : Fault}
  {moment : Moment σ}

theorem Passes.relay {f : Except Fault α → Eval σ β}
    (h : engine.Passes x.run m inner (.error fault) m₁) (relays : f (.error fault) = throw fault) :
    engine.Passes (Eval.outcome x >>= f).run m inner (.error fault) m₁ := by
  rw [← List.append_nil inner]
  refine .handle h ?_
  rw [relays]
  exact .pure

theorem passes_finishRun_abort (abort : fault.isHostAbort = true) {g : GeneratorId} {frame : Frame} :
    engine.Passes (finishRun g frame (.error fault)).run m
      [.change m (m.modifyGenerator g (·.complete))] (.error fault)
        (m.modifyGenerator g (·.complete)) := by
  cases fault with
  | stackOverflow | limitExceeded | internal => exact .perform .pure
  | _ => cases abort

theorem reduceOption_unlinked (entered : List (Option GeneratorId)) :
    (entered ++ [none]).reduceOption = entered.reduceOption := by
  rw [List.reduceOption_append, List.reduceOption_singleton, Option.toList_none, List.append_nil]

theorem Part.abort (h : engine.Part x m before entered y m₁)
    (abort : fault.isHostAbort = true) (ends : engine.Passes y.run m₁ inner (.error fault) m₂) :
    ∃ after, engine.Passes x.run m (before ++ inner ++ after) (.error fault)
        ((m₂.completeAll entered.reduceOption).onStackOf m) ∧
      List.Forall₂ Moment.Completes entered.reduceOption after := by
  induction h with
  | self =>
    refine ⟨[], ?_, .nil⟩
    rw [List.append_nil]
    exact Machine.onStackOf_self ends.stack ▸ ends
  | first _ ih =>
    obtain ⟨after, run, completes⟩ := ih ends
    exact ⟨after, run.fault, completes⟩
  | next run _ ih =>
    obtain ⟨after, rest, completes⟩ := ih ends
    refine ⟨after, ?_, completes⟩
    rw [Machine.onStackOf_congr run.stack] at rest
    simpa only [List.append_assoc] using run.proceed rest
  | within _ ih | withinBody _ ih =>
    obtain ⟨after, run, completes⟩ := ih ends
    refine ⟨after, ?_, completes⟩
    rw [← Machine.onStackOf_setScope]
    first | exact run.within | exact run.withinBody
  | frame unlinked _ ih =>
    obtain ⟨after, run, completes⟩ := ih ends
    rw [reduceOption_unlinked]
    exact ⟨after, run.framed, completes⟩
  | call _ ih =>
    obtain ⟨after, run, completes⟩ := ih ends
    exact ⟨after, run.call, completes⟩
  | construct _ ih =>
    obtain ⟨after, run, completes⟩ := ih ends
    exact ⟨after, run.construct, completes⟩
  | round _ ih =>
    obtain ⟨after, run, completes⟩ := ih ends
    exact ⟨after, run.loopFault, completes⟩
  | again run _ ih =>
    obtain ⟨after, rest, completes⟩ := ih ends
    refine ⟨after, ?_, completes⟩
    rw [Machine.onStackOf_congr run.stack] at rest
    simpa only [List.cons_append, List.append_assoc] using run.loopAgain rest
  | recorded _ ih =>
    obtain ⟨after, run, completes⟩ := ih ends
    have calm : fault.isSuspension = false := by cases fault <;> first | rfl | cases abort
    exact ⟨after, run.relay (by simp only [calm]; rfl), completes⟩
  | settled _ ih =>
    obtain ⟨after, run, completes⟩ := ih ends
    exact ⟨after, run.relay (by simp only [settle, abort, Bool.or_true, if_true]), completes⟩
  | script unlinked _ ih =>
    obtain ⟨after, run, completes⟩ := ih ends
    rw [reduceOption_unlinked]
    exact ⟨after, (run.relay (by simp only [abort, if_true])).framed, completes⟩
  | driven start _ ih =>
    obtain ⟨after, run, completes⟩ := ih ends
    have left := start.passes run (passes_finishRun_abort abort)
    rw [List.append_assoc] at left
    rw [List.reduceOption_append, List.reduceOption_singleton, Option.toList_some,
      Machine.completeAll_append, ← Machine.onStackOf_congr start.stack]
    exact ⟨_, left, List.rel_append completes (.cons ⟨_, rfl⟩ .nil)⟩
  | handled run _ ih =>
    obtain ⟨after, rest, completes⟩ := ih ends
    refine ⟨after, ?_, completes⟩
    rw [Machine.onStackOf_congr run.stack] at rest
    simpa only [List.append_assoc] using run.handle rest

theorem Passes.meets {x : Action σ α} {f : α → Action σ β} {a : α} {trace : List (Moment σ)}
    (run : engine.Passes x m trace a m₁) (h : engine.Meets (f a) m₁ moment) :
    engine.Meets (x.bind f) m moment := by
  induction run with
  | pure => exact h
  | read _ ih => exact .read (ih h)
  | perform _ ih => exact .perform (ih h)
  | inScope entered _ _ ih => exact .afterScope entered.run (ih h)
  | inFrame entered _ _ ih => exact .afterFrame entered.run (ih h)
  | invoke called _ _ ih => exact .afterCall ((engine.total_invoke ..).trans called.run) (ih h)
  | done round _ _ ih | failed round _ _ ih =>
    refine .afterLoop ((engine.total_loop ..).trans ?_) (ih h)
    rw [Answers.eval, round.run]
    rfl
  | again round _ _ ih => exact .again round.run (ih h)

theorem Meets.next {f : α → Eval σ β} {a : α} (run : engine.total.eval x m = .finished (.ok a) m₁)
    (h : engine.Meets (f a).run m₁ moment) : engine.Meets (x >>= f).run m moment := by
  obtain ⟨trace, passes⟩ := exists_passes run
  exact passes.meets h

theorem Part.meets (h : engine.Part x m before entered y m₁) (meets : engine.Meets y.run m₁ moment) :
    engine.Meets x.run m moment := by
  induction h with
  | self => exact meets
  | first _ ih => exact (ih meets).bind
  | next run _ ih => exact run.meets (ih meets)
  | within _ ih | withinBody _ ih => exact .inScope (ih meets)
  | frame _ _ ih => exact .inFrame (ih meets)
  | call _ ih | construct _ ih => exact .inCall (ih meets)
  | round _ ih => exact .inRound (ih meets)
  | again run _ ih => exact .again run.run (ih meets)
  | recorded _ ih | settled _ ih => exact (ih meets).bind.bind
  | script _ _ ih => exact .inFrame (ih meets).bind.bind
  | driven start _ ih => exact start.meets (ih meets)
  | handled run _ ih => exact run.outcome.meets (ih meets)

end Engine

end ScriptEngine
