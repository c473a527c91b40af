import ScriptEngine.Proofs.Generator.Statements

/-!
# Bodies, calls and rounds

The body of a function can be resumed like its statements. A call runs it in a frame that belongs to
no generator, so calls are ordinary, and so are constructions.
-/

namespace ScriptEngine

open Eval

variable {σ α : Type} {P : Promises σ} [P.Lawful] {A : Answers σ} (kept : P.Kept A)
  (shortcuts : Bool)

include kept

theorem FunctionNode.resumes (strict : Bool) (node : FunctionNode) :
    Resumes P strict (node.body.Fits strict) (node.body.Fits strict) (node.run shortcuts) := by
  unfold FunctionNode.run
  split
  · rename_i statements block
    rw [block]
    exact resumes_statements kept strict shortcuts statements
  · rename_i e concise
    rw [concise]
    exact resumes_settle kept.calls
      (((Expr.plain e none).starts kept).bind fun v => starts_pure _) e.span

namespace Eval

variable (function : ObjectId) (closure : Closure) (arguments : List Value) (newTarget : ObjectId)

theorem Plain.keeps {x : Eval σ α} (h : Plain x) : Ordinary P x :=
  h.ordinary kept.calls

theorem ordinary_enter {function : ObjectId} {closure : Closure} {newTarget : Value}
    {body : (scope : EnvironmentId) → Eval σ α} (h : ∀ scope, Detached P (body scope)) :
    Ordinary P (enter function closure newTarget body) := by
  refine ordinary_bind (plain_checkDepth.keeps kept) fun _ => ?_
  refine ordinary_bind ((plain_perform (Effect.plain_enclose _)).keeps kept)
    fun scope => Ordinary.ask fun m => ?_
  exact ordinary_inFrame (h scope) rfl

theorem ordinary_enterNative {native : Native} {body : Eval σ α} (h : Detached P body) :
    Ordinary P (enterNative native body) :=
  ordinary_bind (plain_checkDepth.keeps kept) fun _ =>
    Ordinary.ask fun _ => ordinary_inFrame h rfl

theorem detached_runFunction (node : FunctionNode) (scope : EnvironmentId)
    (arguments : List Value) :
    Detached P (runFunction shortcuts node scope arguments) := by
  refine Resumes.detached (E := fun _ _ => False) (F := fun strict => node.body.Fits strict)
    fun strict => ?_
  refine ((simple_instantiate node scope arguments).plain.starts kept).bind fun own => ?_
  refine Resumes.bind ((resumes_withinBody
    (FunctionNode.resumes kept shortcuts strict node) own).starts) fun completion => ?_
  exact (plain_ofExcept (Completion.result_unsuspended completion)).starts kept

theorem ordinary_callClosure (this : Value) (arguments : List Value) :
    Ordinary P (callClosure shortcuts function closure this arguments) :=
  ordinary_enter kept fun scope => detached_bind
    ((simple_bindThis closure scope this).plain.keeps kept).detached fun _ =>
      detached_runFunction kept shortcuts closure.node scope arguments

theorem ordinary_constructBase :
    Ordinary P (constructBase shortcuts function closure arguments newTarget) := by
  refine Ordinary.ask fun _ => Ordinary.ask fun _ => ?_
  refine ordinary_bind ((plain_perform (by grind)).keeps kept) fun this =>
    ordinary_enter kept fun scope => ?_
  refine detached_bind ((simple_bindThis closure scope _).plain.keeps kept).detached fun _ => ?_
  exact detached_bind (detached_runFunction kept shortcuts closure.node scope arguments)
    fun v => (Plain.keeps kept (by grind)).detached

theorem ordinary_constructDerived :
    Ordinary P (constructDerived shortcuts function closure arguments newTarget) := by
  refine ordinary_enter kept fun scope => ?_
  have result (v : Value) := (simple_derivedResult (σ := σ) scope v).plain
  dsimp only
  split
  · exact detached_bind ((simple_constructParent function scope arguments
      newTarget).plain.keeps kept).detached fun v => ((result v).keeps kept).detached
  · exact detached_bind (detached_runFunction kept shortcuts closure.node scope arguments)
      fun v => ((result v).keeps kept).detached

theorem ordinary_constructClosure :
    Ordinary P (constructClosure shortcuts function closure arguments newTarget) := by
  unfold constructClosure
  split
  · exact ordinary_constructBase kept shortcuts function closure arguments newTarget
  · exact ordinary_constructDerived kept shortcuts function closure arguments newTarget

end Eval

namespace Program

variable (program : Program)

theorem detached_runBody (scope : EnvironmentId) :
    Detached P (program.runBody shortcuts scope) := by
  refine detached_outcome (Resumes.detached (E := fun _ _ => False)
    (F := fun strict => InList (fitsAt strict program.body)) fun strict => ?_)
    fun r unsuspended => ?_
  · exact ((simple_declareGlobals scope program.scope).plain.starts kept).bind fun _ =>
      (resumes_statements kept strict shortcuts program.body).starts
  · refine (Plain.keeps kept ?_).detached
    cases r with
    | ok completion => exact plain_pure _
    | error fault =>
      have refused : Plain (throw fault : Eval σ Completion) :=
        plain_throw (unsuspended_error.1 unsuspended)
      have value := (simple_faultValue (σ := σ) fault).plain
      grind

theorem ordinary_run : Ordinary P (program.run shortcuts) := by
  refine fun m h => ⟨.of_eq rfl, ?_⟩
  have h₁ : (Effect.resetLimits.apply m).2.Orderly := h.congr rfl rfl
  have framed : Ordinary P (do
      let scope ← ask (·.realm.globalEnvironment)
      let strict ← ask (·.options.strict)
      inFrame { lexical := scope, varScope := scope, strict := program.strict || strict }
        (program.runBody shortcuts scope)) :=
    Ordinary.ask fun _ => Ordinary.ask fun _ =>
      ordinary_inFrame (program.detached_runBody kept shortcuts _) rfl
  have steady : m.Steady (Effect.resetLimits.apply m).2 := .of_eq rfl rfl
  exact framed.after h₁ steady

theorem ordinary_eval : Ordinary P (program.eval shortcuts) := by
  refine ordinary_bind (program.ordinary_run kept shortcuts) fun completion => ?_
  have refused (fault : Fault) (h : ∀ v, fault ≠ .suspended v) :
      Plain (throw fault : Eval σ Value) := plain_throw h
  exact Plain.keeps kept (by grind)

end Program

namespace Loop

omit kept in
theorem round_again {l l' : Loop} {m m' : Machine σ}
    (h : A.eval (l.round shortcuts) m = .finished (.ok (.again l')) m') :
    ∃ value environment, l' = l.entered false value environment := by
  have after {completion : Completion} {labels : List String} {value : Value}
      {next : Value → Eval σ Step} {m : Machine σ}
      (h : A.eval (afterBody completion labels value next) m = .finished (.ok (.again l')) m') :
      ∃ value, A.eval (next value) m = .finished (.ok (.again l')) m' := by
    unfold afterBody at h
    split at h
    · exact ⟨_, h⟩
    · cases h
  cases l with
  | whileLoop test body labels value resuming =>
    have inside {m : Machine σ} {x : Eval σ Completion}
        (h : A.eval (do
          let completion ← x
          afterBody completion labels value fun value =>
            pure (.again (.whileLoop test body labels value false))) m =
          .finished (.ok (.again l')) m') :
        ∃ value, l' = .whileLoop test body labels value false := by
      simp only [eval_bind, proceed_eq_ok] at h
      obtain ⟨completion, m₁, -, h⟩ := h
      obtain ⟨value, h⟩ := after h
      cases h
      exact ⟨value, rfl⟩
    cases resuming with
    | true => exact (inside h).imp fun _ same => ⟨m.lexical, same⟩
    | false =>
      simp only [round, Bool.false_eq_true, if_false, eval_bind,
        proceed_eq_ok] at h
      obtain ⟨enter, m₁, -, h⟩ := h
      cases enter with
      | true => exact (inside h).imp fun _ same => ⟨m.lexical, same⟩
      | false => cases h
  | doWhile body test labels value =>
    simp only [round, eval_bind, proceed_eq_ok] at h
    obtain ⟨completion, m₁, -, h⟩ := h
    obtain ⟨value, h⟩ := after h
    simp only [eval_bind, proceed_eq_ok] at h
    obtain ⟨enter, m₂, -, h⟩ := h
    cases enter with
    | true =>
      cases h
      exact ⟨value, m.lexical, rfl⟩
    | false => cases h
  | forLoop r =>
    have inside {m : Machine σ} {x : Eval σ Completion}
        (h : A.eval (x >>= fun completion => afterBody completion r.labels r.value r.advance) m =
          .finished (.ok (.again l')) m') :
        ∃ value environment, l' = .forLoop { r with environment, value, resuming := false } := by
      simp only [eval_bind, proceed_eq_ok] at h
      obtain ⟨completion, m₁, -, h⟩ := h
      obtain ⟨value, h⟩ := after h
      simp only [ForRound.advance, eval_bind, proceed_eq_ok] at h
      obtain ⟨environment, m₂, -, h⟩ := h
      cases update : r.update with
      | none =>
        rw [update] at h
        cases h
        exact ⟨value, environment, rfl⟩
      | some e =>
        simp only [update, eval_bind, proceed_eq_ok] at h
        obtain ⟨_, m₃, -, h⟩ := h
        cases h
        exact ⟨value, environment, rfl⟩
    cases resuming : r.resuming with
    | true =>
      simp only [round, resuming, if_true] at h
      exact inside h
    | false =>
      simp only [round, resuming, Bool.false_eq_true, if_false, eval_bind,
        proceed_eq_ok] at h
      obtain ⟨enter, m₁, -, h⟩ := h
      cases enter with
      | true => exact inside h
      | false => cases h

end Loop

end ScriptEngine
