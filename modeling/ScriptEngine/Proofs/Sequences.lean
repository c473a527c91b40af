import ScriptEngine.Proofs.Exceptions
import ScriptEngine.Proofs.Generator.StateMachine

/-!
# Statement lists one after the other

A list of statements does what its first part does, and if that ends normally, what its second part
does in the state that is left. The value of the first part stays where the second one has none.
-/

namespace ScriptEngine

variable {σ α : Type}

open Eval

theorem Completion.updateEmpty_updateEmpty (c : Completion) (first second : Option Value) :
    (c.updateEmpty first).updateEmpty second = c.updateEmpty (first <|> second) := by
  obtain ⟨kind, value, label, location⟩ := c
  cases value <;> rfl

namespace Eval

def Calm (A : Answers σ) (x : Eval σ α) (m : Machine σ) : Prop :=
  ∀ v m', A.eval x m ≠ .finished (.error (.suspended v)) m'

variable {A : Answers σ} {shortcuts : Bool} {m : Machine σ}

theorem Calm.listed {index : Nat} {last : Option Value} {span : Span} {x : Eval σ Completion}
    (calm : Calm A (listed index last span x) m) (index' : Nat) (last' : Option Value) :
    A.eval (listed index' last' span x) m = A.eval (listed index last span x) m := by
  unfold Calm at calm
  rw [Eval.listed, Eval.listed, eval_bind, eval_bind] at *
  cases checked : A.eval (attempt .checkLimits) m with
  | exhausted => rfl
  | finished r m₁ =>
    cases r with
    | error fault => rfl
    | ok u =>
      simp only [checked, proceed_ok, eval_handle,
        Answers.eval_recording] at calm ⊢
      cases ended : A.eval x m₁ with
      | exhausted => rfl
      | finished r m₂ =>
        cases r with
        | ok c => rfl
        | error fault =>
          cases fault with
          | suspended v =>
            rw [ended] at calm
            exact absurd rfl (calm v _)
          | _ => rfl

theorem evalFrom_append (xs ys : List Stmt) (index : Nat) (last : Option Value) (m : Machine σ) :
    A.eval (evalFrom shortcuts (xs ++ ys) index 0 last) m =
      (A.eval (evalFrom shortcuts xs index 0 last) m).proceed fun c m' =>
        if c.isAbrupt then .finished (.ok c) m'
        else A.eval (evalFrom shortcuts ys (index + xs.length) 0 c.value) m' := by
  induction xs generalizing index last m with
  | nil => simp [evalFrom, Completion.normal, Completion.isAbrupt]
  | cons s rest ih =>
    rw [List.cons_append, evalFrom, evalFrom, eval_bind, eval_bind,
      proceed_assoc]
    refine congrArg _ (funext fun completion => funext fun m₁ => ?_)
    unfold andThen
    split
    · rename_i abrupt
      have abrupt : (completion.updateEmpty last).isAbrupt = true := abrupt
      simp [abrupt]
    · rw [ih, List.length_cons, Nat.add_right_comm, Nat.add_assoc]

theorem Calm.evalFrom {ys : List Stmt} {index : Nat} (last before : Option Value)
    (calm : Calm A (evalFrom shortcuts ys index 0 (last <|> before)) m) (index' : Nat) :
    A.eval (ScriptEngine.evalFrom shortcuts ys index 0 (last <|> before)) m =
      (A.eval (ScriptEngine.evalFrom shortcuts ys index' 0 last) m).proceed fun c m' =>
        .finished (.ok (c.updateEmpty before)) m' := by
  induction ys generalizing index index' last m with
  | nil => rfl
  | cons s rest ih =>
    unfold Calm at calm
    rw [ScriptEngine.evalFrom, ScriptEngine.evalFrom, eval_bind, eval_bind,
      proceed_assoc] at *
    rw [Calm.listed (fun v m' ended => calm v m' (by rw [ended]; rfl)) index' last]
    cases ended : A.eval (Eval.listed index (last <|> before) s.span _) m with
    | exhausted => rfl
    | finished r m₁ =>
      cases r with
      | error fault => rfl
      | ok completion =>
        rw [ended] at calm
        simp only [proceed_ok, andThen] at calm ⊢
        split
        · rw [← Completion.updateEmpty_updateEmpty]
          rfl
        · rename_i normal
          have assoc : (completion.value <|> (last <|> before)) =
              ((completion.value <|> last) <|> before) := by
            cases completion.value <;> rfl
          rw [if_neg normal, assoc] at calm
          rw [assoc]
          exact ih _ calm (index' + 1)

end Eval

theorem Answers.eval_statements (A : Answers σ) {m : Machine σ} (orderly : m.Orderly)
    (quiet : m.Quiet) (shortcuts : Bool) (body : List Stmt) :
    A.eval (evalStatements shortcuts body) m = A.eval (evalFrom shortcuts body 0 0 none) m := by
  rw [evalStatements, list, eval_bind, takeList, takeRecord, eval_bind, eval_perform,
    quiet.takeResumePoint orderly]
  rfl

theorem Engine.quiet_after {engine : Engine σ} (fair : engine.Fair) {fuel : Nat} {body : List Stmt}
    {m m' : Machine σ} (orderly : m.Orderly) (quiet : m.Quiet) {c : Completion}
    (run : engine.run fuel (evalStatements engine.shortcuts body) m = .finished (.ok c) m') :
    m'.Orderly ∧ m'.Quiet := by
  have kept := promises_kept fair fuel
  have resumes : Resumes _ m.strict _ _ (evalFrom engine.shortcuts body 0 0 none) :=
    evalFrom_resumes kept _ _ body 0 0 none
  rw [engine.run_eq, Answers.eval_statements _ orderly quiet] at run
  have ends := engine.safe_result run (resumes.starts m orderly rfl (.inl quiet))
  exact ⟨ends.1, ends.2.2⟩

theorem Engine.run_append {engine : Engine σ} (fair : engine.Fair) {fuel : Nat} {xs ys : List Stmt}
    {m : Machine σ} (orderly : m.Orderly) (quiet : m.Quiet)
    (calm : Calm (engine.answers fuel) (evalStatements engine.shortcuts (xs ++ ys)) m) :
    engine.run fuel (evalStatements engine.shortcuts (xs ++ ys)) m =
      (engine.run fuel (evalStatements engine.shortcuts xs) m).proceed fun c m' =>
        if c.isAbrupt then .finished (.ok c) m'
        else (engine.run fuel (evalStatements engine.shortcuts ys) m').proceed fun c' m'' =>
          .finished (.ok (c'.updateEmpty c.value)) m'' := by
  have whole : (engine.answers fuel).eval (evalFrom engine.shortcuts (xs ++ ys) 0 0 none) m = _ :=
    evalFrom_append xs ys 0 none m
  rw [← Answers.eval_statements _ orderly quiet, ← Answers.eval_statements _ orderly quiet] at whole
  unfold Calm at calm
  rw [whole] at calm
  refine whole.trans ?_
  rw [engine.run_eq]
  cases first : (engine.answers fuel).eval (evalStatements engine.shortcuts xs) m with
  | exhausted => rfl
  | finished r m' =>
    cases r with
    | error fault => rfl
    | ok c =>
      rw [first] at calm
      simp only [proceed_ok] at calm ⊢
      split
      · rfl
      · rename_i normal
        obtain ⟨orderly', quiet'⟩ := engine.quiet_after fair orderly quiet first
        rw [if_neg normal] at calm
        rw [engine.run_eq, Answers.eval_statements _ orderly' quiet']
        exact Calm.evalFrom none c.value calm 0

/-- Of two lists one after the other the first does what it does alone. If it ends normally, the
second does what it does alone in the state that is left, and its value, if it has none, is that of
the first. So a list ends with the first abrupt completion of its statements, and nothing after that
runs. -/
theorem statements_compose {engine : Engine σ} (fair : engine.Fair) {fuel : Nat} (xs ys : List Stmt)
    {m : Machine σ} (orderly : m.Orderly) (quiet : m.Quiet)
    (calm : Calm (engine.answers fuel) (evalStatements engine.shortcuts (xs ++ ys)) m) :
    let run (body : List Stmt) := engine.run fuel (evalStatements engine.shortcuts body)
    (run (xs ++ ys) m = (run xs m).proceed fun c m' =>
      if c.isAbrupt then .finished (.ok c) m'
      else (run ys m').proceed fun c' m'' => .finished (.ok (c'.updateEmpty c.value)) m'') ∧
    ∀ before s after last m₁ c m₂, xs ++ ys = before ++ s :: after →
      run before m = .finished (.ok (.normal last)) m₁ → run [s] m₁ = .finished (.ok c) m₂ →
      c.isAbrupt = true → run (xs ++ ys) m = .finished (.ok (c.updateEmpty last)) m₂ := by
  intro run
  refine ⟨engine.run_append fair orderly quiet calm, ?_⟩
  intro before s after last m₁ c m₂ split first second abrupt
  rw [split] at calm ⊢
  have whole : run (before ++ s :: after) m = _ := engine.run_append fair orderly quiet calm
  have here : run (before ++ s :: after) m = (run (s :: after) m₁).proceed fun c' m' =>
      .finished (.ok (c'.updateEmpty last)) m' := by
    rw [whole, show engine.run fuel _ m = _ from first]
    rfl
  obtain ⟨orderly₁, quiet₁⟩ := engine.quiet_after fair orderly quiet first
  have calm₁ : Calm (engine.answers fuel) (evalStatements engine.shortcuts ([s] ++ after)) m₁ := by
    intro v m' ended
    refine calm v m' (here.trans ?_)
    rw [show run (s :: after) m₁ = _ from ended]
    rfl
  have rest : run ([s] ++ after) m₁ = _ := engine.run_append fair orderly₁ quiet₁ calm₁
  rw [show engine.run fuel _ m₁ = _ from second, Outcome.proceed_ok, if_pos abrupt] at rest
  rw [here, show run (s :: after) m₁ = _ from rest]
  rfl

/-- In `true; break l; false;` the break stops the list, with the value before it. -/
theorem statements_compose_break :
    let engine : Engine Unit := {}
    let value (b : Bool) : Stmt := .expression (.literal (.boolean b) {}) {}
    let body : List Stmt := [value true, .break (some "l") {}] ++ [value false]
    engine.run 0 (evalStatements engine.shortcuts body) .bare = .finished
      (.ok { kind := .break, value := some (.boolean true), label := some "l" }) .bare := by
  intro engine value body
  have fair : engine.Fair := ⟨by simp [engine], by simp [engine]⟩
  have orderly : Machine.bare.Orderly := by
    refine ⟨fun g generator hg => ?_, fun g linked => ?_, rfl⟩
    · simp [Machine.generator?, Machine.bare] at hg
    · simp [Machine.links, Machine.bare] at linked
  have quiet : Machine.bare.Quiet := fun _ h => by cases h
  have ends : engine.run 0 (evalStatements engine.shortcuts body) .bare = .finished
      (.ok { kind := .break, value := some (.boolean true), label := some "l" }) .bare := by
    cbv
  have calm : Calm (engine.answers 0) (evalStatements engine.shortcuts body) .bare :=
    fun v m' ended => by cases ends.symm.trans ended
  have first : engine.run 0 (evalStatements engine.shortcuts [value true]) .bare =
      .finished (.ok (.normal (some (.boolean true)))) .bare := by
    cbv
  have second : engine.run 0 (evalStatements engine.shortcuts [.break (some "l") {}]) .bare =
      .finished (.ok (.breaking (some "l") {})) .bare := by
    cbv
  exact (statements_compose fair _ _ orderly quiet calm).2 [value true] _ [value false] _ _ _ _ rfl
    first second rfl

end ScriptEngine
