import ScriptEngine.Proofs.Generator.StateMachine
import ScriptEngine.Proofs.Labels.Statement

/-!
# Bodies complete without a jump

What `Action.Leads` says of the records holds of the machines of a run, as long as calls leave the
records of the running generator alone (`Engine.Trusts`).
-/

namespace ScriptEngine

open Eval

variable {σ α β : Type}

namespace Machine

def points (m : Machine σ) : Records :=
  (m.runningGenerator?.bind m.generator?).map (·.resumePoints)

variable {m : Machine σ} {g : GeneratorId}

theorem points_eq_none (free : m.runningGenerator? = none) : m.points = none := by
  rw [points, free]
  rfl

theorem points_of_running {generator : Generator} (running : m.runningGenerator? = some g)
    (hg : m.generator? g = some generator) : m.points = some generator.resumePoints := by
  simp [points, running, hg]

@[simp] theorem points_setScope (lexical varScope : EnvironmentId) :
    (m.setScope lexical varScope).points = m.points := by
  simp only [points, runningGenerator?_eq, links_setScope]
  rfl

theorem points_modifyGenerator (running : m.runningGenerator? = some g)
    (change : Generator → Generator) :
    (m.modifyGenerator g change).points =
      (m.generator? g).map fun generator => (change generator).resumePoints := by
  have same : (m.modifyGenerator g change).runningGenerator? = some g := running
  simp only [points, same, Option.bind_some, generator?_modifyGenerator, if_true, Option.map_map]
  rfl

end Machine

theorem Effect.Leads.apply {effect : Effect σ β} {m : Machine σ} {Q : Records → β → Prop}
    (h : effect.Leads m.points Q) : Q (effect.apply m).2.points (effect.apply m).1 := by
  cases running : m.runningGenerator? with
  | none =>
    have free : (effect.apply m).2.points = none := by
      refine Machine.points_eq_none ?_
      rw [Machine.runningGenerator?, effect.apply_stack]
      exact running
    rw [Machine.points_eq_none running] at h
    rw [free]
    cases effect with
    | createGenerator | startRun | suspend | complete => exact h.elim
    | takeResumePoint | pushResumePoint =>
      simp only [Effect.apply, running]
      exact h
    | _ => exact h m
  | some g =>
    cases effect with
    | createGenerator | startRun | suspend | complete => exact h.elim
    | takeResumePoint =>
      simp only [Effect.apply, running, Machine.points_modifyGenerator running]
      simpa [Effect.Leads, Machine.points, running, Function.comp_def, Option.bind_map] using h
    | pushResumePoint point =>
      simp only [Effect.apply, running, Machine.points_modifyGenerator running]
      simpa [Effect.Leads, Machine.points, running, Function.comp_def] using h
    | takeResumption =>
      have h := h m
      simp only [Effect.apply, running, Machine.points_modifyGenerator running] at h ⊢
      simpa [Machine.points, running] using h
    | _ => exact h m

/-- Of the machines that satisfy `Good` it is known that calls leave the records of the running
generator alone, and the code of a body leads from such machines to such machines. -/
structure Engine.Trusts (engine : Engine σ) (Good : Machine σ → Prop) : Prop where
  scope : ∀ {m : Machine σ} (lexical varScope : EnvironmentId), Good m →
    Good (m.setScope lexical varScope)
  effect : ∀ {β : Type} {effect : Effect σ β} {m : Machine σ} {Q : Records → β → Prop},
    effect.Leads m.points Q → Good m → Good (effect.apply m).2
  call : ∀ {fuel invocation m r m'}, Good m →
    (engine.answers fuel).invoke invocation m = .finished r m' →
      Good m' ∧ m'.points = m.points ∧ (m.points ≠ none → Unsuspended r)

namespace Engine.Trusts

variable {engine : Engine σ} {Good : Machine σ → Prop} (trusts : engine.Trusts Good)
  {strict : Bool} {fuel : Nat}

include trusts

theorem action
    (loops : ∀ {l around m r m'}, l.wellLabelled around = true →
      m.points.Enters (l.Aims strict around) → Good m → m.strict = strict →
      (engine.answers fuel).loop l m = .finished r m' →
        Good m' ∧ m'.points.Ends (InLoop (l.BodyAims strict around)) (·.Within around) r)
    {x : Action σ α} {m m' : Machine σ} {a : α} {Q : Records → α → Prop}
    (leads : x.Leads strict m.points Q) (good : Good m) (hs : m.strict = strict)
    (run : (engine.answers fuel).run x m = .finished a m') : Good m' ∧ Q m'.points a := by
  have keep := stack_kept.answers engine fuel
  have same {m₁ m₂ : Machine σ} (stack : m₂.stack = m₁.stack) (hs : m₁.strict = strict) :
      m₂.strict = strict := by
    rw [← hs, Machine.strict, Machine.strict, stack]
  induction x generalizing m m' with
  | pure a =>
    cases run
    exact ⟨good, leads⟩
  | read view next ih => exact ih _ (leads m hs) good hs run
  | perform effect next ih =>
    exact ih _ (Effect.Leads.apply leads) (trusts.effect leads good)
      (same (effect.apply_stack m) hs) run
  | inScope lexical varScope body next ihBody ih =>
    rw [run_inScope, andThen_eq_finished] at run
    obtain ⟨b, m₁, inner, rest⟩ := run
    obtain ⟨good₁, leads₁⟩ := ihBody (by rw [Machine.points_setScope]; exact leads)
      (trusts.scope _ _ good) ((m.strict_setScope _ _).trans hs) inner
    have restored := stack_kept.scope _ _ (stack_kept.action keep inner)
    exact ih b (by rw [Machine.points_setScope]; exact leads₁) (trusts.scope _ _ good₁)
      (same restored hs) rest
  | inFrame frame body next _ _ => exact leads.elim
  | invoke invocation next ih =>
    rw [run_invoke, andThen_eq_finished] at run
    obtain ⟨r, m₁, answer, rest⟩ := run
    obtain ⟨good₁, points, unsuspended⟩ := trusts.call good answer
    exact ih r (points ▸ leads r unsuspended) good₁ (same (keep.invoke answer) hs) rest
  | loop l next ih =>
    rw [run_loop, andThen_eq_finished] at run
    obtain ⟨r, m₁, answer, rest⟩ := run
    obtain ⟨around, well, entered, leads⟩ := leads
    obtain ⟨good₁, ends⟩ := loops well entered good hs answer
    exact ih r (leads _ r ends) good₁ (same (keep.loop answer) hs) rest

theorem loop {l : Loop} {around : Around} {m m' : Machine σ} {r : Except Fault Completion}
    (well : l.wellLabelled around = true) (entered : m.points.Enters (l.Aims strict around))
    (good : Good m) (hs : m.strict = strict)
    (run : (engine.answers fuel).loop l m = .finished r m') :
    Good m' ∧ m'.points.Ends (InLoop (l.BodyAims strict around)) (·.Within around) r := by
  induction fuel generalizing l around m m' r with
  | zero => simp at run
  | succ fuel ih =>
    rw [answers_succ_loop, Answers.afterRound_eq_finished] at run
    obtain ⟨r₁, m₁, round, rest⟩ := run
    obtain ⟨good₁, ends⟩ := trusts.action ih
      (Loop.heeds_round strict engine.shortcuts l well m.points entered) good hs round
    rcases r₁ with fault | step
    · cases rest
      exact ⟨good₁, ends.error⟩
    · cases step with
      | done completion =>
        cases rest
        exact ⟨good₁, ends⟩
      | again next =>
        obtain ⟨quiet, body, labels⟩ := ends
        have stack := stack_kept.action (stack_kept.answers engine fuel) round
        have bodyAims : next.BodyAims strict around = l.BodyAims strict around := by
          simp only [Loop.BodyAims, body, labels]
        rw [← bodyAims]
        refine ih ?_ (.inl quiet) good₁ ?_ rest
        · simpa only [Loop.wellLabelled, body, labels] using well
        · rw [← hs, Machine.strict, Machine.strict, stack]

theorem eval {E F : List ResumePoint → Prop} {T : α → Prop} {x : Eval σ α}
    (heeds : Heeds strict E F T x) {m m' : Machine σ} {r : Except Fault α}
    (entered : m.points.Enters E) (good : Good m) (hs : m.strict = strict)
    (run : engine.run fuel x m = .finished r m') : Good m' ∧ m'.points.Ends F T r :=
  trusts.action trusts.loop (heeds m.points entered) good hs run

end Engine.Trusts

namespace Engine

theorem trusts_detached (engine : Engine σ) :
    engine.Trusts fun m : Machine σ => m.runningGenerator? = none where
  scope {m} lexical varScope free := by
    rw [Machine.runningGenerator?_eq, Machine.links_setScope, ← Machine.runningGenerator?_eq, free]
  effect {_ effect m _} _ free := by
    rw [Machine.runningGenerator?, effect.apply_stack]
    exact free
  call {fuel _ m _ m'} free answer := by
    have stack := (stack_kept.answers engine fuel).invoke answer
    have free' : m'.runningGenerator? = none := by
      rw [Machine.runningGenerator?, stack]
      exact free
    rw [Machine.points_eq_none free, Machine.points_eq_none free']
    exact ⟨free', rfl, fun some => absurd rfl some⟩

theorem trusts_orderly {engine : Engine σ} (fair : engine.Fair) :
    engine.Trusts (Machine.Orderly : Machine σ → Prop) where
  scope lexical varScope h := h.setScope lexical varScope
  effect {_ effect m _} leads h := by
    cases effect with
    | createGenerator | startRun | suspend | complete => exact leads.elim
    | takeResumePoint | pushResumePoint | takeResumption =>
      cases records : m.records with
      | none => simpa [Effect.apply, h.records_eq_none.1 records] using h
      | some record =>
        simp only [Machine.takeResumePoint_apply records, Machine.pushResumePoint_apply records,
          Machine.takeResumption_apply records]
        exact h.setRecords records
    | _ => exact h.effect rfl
  call {fuel invocation m r m'} h answer := by
    have kept := promises_kept fair fuel
    obtain ⟨h', steady, unsuspended⟩ := (kept.faithful.invoke.1 (kept.calls invocation m h)).2 r m' answer
    refine ⟨h', ?_, fun _ => unsuspended⟩
    cases running : m.runningGenerator? with
    | none => rw [Machine.points_eq_none running,
        Machine.points_eq_none (steady.runningGenerator?.trans running)]
    | some g =>
      obtain ⟨generator, hg, executing⟩ := h.running running
      rw [Machine.points_of_running running hg, Machine.points_of_running
        (steady.runningGenerator?.trans running) (steady.executing g generator hg executing)]

end Engine

theorem FunctionNode.heeds (strict shortcuts : Bool) (node : FunctionNode)
    (well : node.wellLabelled = true) :
    Heeds strict (node.body.Aims strict) (node.body.Aims strict) (·.Within {})
      (node.run shortcuts : Eval σ Completion) := by
  unfold FunctionNode.wellLabelled at well
  unfold FunctionNode.run
  cases block : node.body with
  | block statements =>
    rw [block] at well
    exact heeds_statements strict shortcuts statements well
  | concise e =>
    have returned : Heeds strict (fun _ => False) (fun _ => False) (·.Within {}) (do
        let v ← e.eval none
        pure (Completion.returning v) : Eval σ Completion) :=
      (Expr.plain e none).before fun v => heeds_pure trivial
    exact heeds_settle returned e.span

theorem Program.heeds (strict shortcuts : Bool) (program : Program)
    (well : program.wellLabelled = true) (scope : EnvironmentId) :
    Heeds strict (fun _ => False) (InList (aimsAt strict {} program.body)) (·.Within {})
      (do
        declareGlobals scope program.scope
        evalStatements shortcuts program.body : Eval σ Completion) :=
  (simple_declareGlobals scope program.scope).plain.before fun _ =>
    (heeds_statements strict shortcuts program.body well).fresh

namespace Engine

variable {engine : Engine σ} {fuel : Nat} {m m' : Machine σ} {c : Completion}

theorem body_jumpless {node : FunctionNode} (well : node.wellLabelled = true)
    (free : m.runningGenerator? = none)
    (run : engine.run fuel (node.run engine.shortcuts) m = .finished (.ok c) m') : c.Jumpless := by
  have quiet : m.points.Quiet := by simp [Records.Quiet, Machine.points_eq_none free]
  exact (engine.trusts_detached.eval (node.heeds m.strict engine.shortcuts well) (.inl quiet) free
    rfl run).2.2.jumpless

theorem runBody_jumpless {program : Program} (well : program.wellLabelled = true)
    {scope : EnvironmentId} (free : m.runningGenerator? = none)
    (run : engine.run fuel (program.runBody engine.shortcuts scope) m = .finished (.ok c) m') :
    c.Jumpless := by
  rw [run_eq, Program.runBody, eval_handle, andThen_eq_finished] at run
  obtain ⟨r, m₁, body, rest⟩ := run
  have quiet : m.points.Quiet := by simp [Records.Quiet, Machine.points_eq_none free]
  have ends := (engine.trusts_detached.eval (program.heeds m.strict engine.shortcuts well scope)
    (.inl quiet) free rfl body).2
  cases r with
  | ok completion =>
    cases rest
    exact ends.2.jumpless
  | error fault =>
    dsimp only at rest
    split at rest
    · cases rest
    · rw [eval_bind, proceed_eq_ok] at rest
      obtain ⟨v, m₂, -, rest⟩ := rest
      cases rest
      exact ⟨nofun, nofun⟩

theorem run_jumpless {program : Program} (well : program.wellLabelled = true)
    (run : engine.run fuel (program.run engine.shortcuts) m = .finished (.ok c) m') :
    c.Jumpless := by
  rw [run_eq, Program.run, eval_bind, eval_perform, proceed_ok,
    eval_bind, eval_ask, proceed_ok, eval_bind, eval_ask,
    proceed_ok, eval_inFrame, andThen_eq_finished] at run
  obtain ⟨r, m₁, body, rest⟩ := run
  cases rest
  exact runBody_jumpless (m := Machine.push _ _) well rfl body

end Engine

end ScriptEngine
