import ScriptEngine.Proofs.Exceptions

/-!
# Nested finalizers

`try` statements with finalizers stand around each other. When control leaves the innermost block,
the levels are left one after the other: a level runs its catch clause if the completion is a throw,
and then its finalizer, in the state that the level before has left.
-/

namespace ScriptEngine

variable {σ α : Type}

open Eval

structure TryLevel where
  handler : Option CatchClause
  finalizer : List Stmt
  span : Span

namespace TryLevel

def around (level : TryLevel) (body : List Stmt) : Stmt :=
  .tryCatch body level.handler (some level.finalizer) level.span

def nest (body : List Stmt) : List TryLevel → List Stmt
  | [] => body
  | level :: outer => nest [level.around body] outer

def lists (level : TryLevel) : List (List Stmt) :=
  (level.handler.map (·.body)).toList ++ [level.finalizer]

end TryLevel

def Single (lists : List (List Stmt)) : Prop :=
  ∀ list ∈ lists, ((lexicalNames list).map (·.name)).Nodup

namespace Engine

variable (engine : Engine σ) (fuel : Nat)

inductive Handles (handler : Option CatchClause) (c : Completion) (m : Machine σ) :
    Completion → Machine σ → Prop where
  | caught {clause : CatchClause} {scope : EnvironmentId} {m₁ m₂ : Machine σ} {c' : Completion}
      (some : handler = some clause) (throws : c.kind = .throw)
      (opened : engine.run fuel (openHandler clause.parameter c.valueOrUndefined) m =
        .finished (.ok scope) m₁)
      (catches : m.Catches clause.parameter c.valueOrUndefined scope m₁)
      (run : engine.run fuel (within scope (evalBlock engine.shortcuts clause.body)) m₁ =
        .finished (.ok c') m₂) : Handles handler c m c' m₂
  | passed (h : c.kind ≠ .throw ∨ handler = none) : Handles handler c m c m

inductive Unwinds : List TryLevel → Completion → Machine σ → Completion → Machine σ → Prop where
  | done (c : Completion) (m : Machine σ) : Unwinds [] c m c m
  | level {level : TryLevel} {outer : List TryLevel} {c pending last c' : Completion}
      {m m₁ m₂ m' : Machine σ} (handles : engine.Handles fuel level.handler c m pending m₁)
      (finalizer : engine.run fuel (evalBlock engine.shortcuts level.finalizer) m₁ =
        .finished (.ok last) m₂)
      (rest : Unwinds outer (if last.kind = .normal then pending else last) m₂ c' m') :
      Unwinds (level :: outer) c m c' m'

end Engine

/-! ## One level -/

namespace Eval

variable {A : Answers σ} {shortcuts : Bool} {m m' : Machine σ} {body : List Stmt} {c : Completion}

theorem evalFrom_normal {index skip : Nat} {last : Option Value}
    (run : A.eval (evalFrom shortcuts body index skip last) m = .finished (.ok c) m')
    (normal : c.kind = .normal) : c = .normal c.value := by
  induction body generalizing index skip last m with
  | nil =>
    rw [evalFrom] at run
    cases run
    rfl
  | cons s rest ih =>
    cases skip with
    | succ skip => exact ih run
    | zero =>
      rw [evalFrom, eval_bind, proceed_eq_ok] at run
      obtain ⟨completion, m₁, -, run⟩ := run
      unfold andThen at run
      split at run
      · rename_i abrupt
        cases run
        simp [Completion.isAbrupt] at abrupt
        exact absurd normal abrupt
      · exact ih run

theorem list_normal (run : A.eval (list (evalFrom shortcuts body 0)) m = .finished (.ok c) m')
    (normal : c.kind = .normal) : c = .normal c.value := by
  rw [list, eval_bind, proceed_eq_ok] at run
  obtain ⟨resumed, m₁, -, rest⟩ := run
  cases resumed <;> exact evalFrom_normal rest normal

theorem recorded_ok {point : ResumePoint} {scope : Option EnvironmentId} {x : Eval σ α} {a : α}
    (run : A.eval (recording point (withinSome scope x)) m = .finished (.ok a) m') :
    ∃ m₁ m₂, A.eval x m₁ = .finished (.ok a) m₂ := by
  rw [Answers.eval_recording, andThen_eq_finished] at run
  obtain ⟨r, m₁, inner, ends⟩ := run
  cases ends
  cases scope with
  | none => exact ⟨m, m₁, inner⟩
  | some e =>
    dsimp only [withinSome] at inner
    rw [eval_within, andThen_eq_finished] at inner
    obtain ⟨_, m₂, inner, left⟩ := inner
    cases left
    exact ⟨_, m₂, inner⟩

theorem evalBlock_normal (run : A.eval (evalBlock shortcuts body) m = .finished (.ok c) m')
    (normal : c.kind = .normal) : c = .normal c.value := by
  rw [evalBlock, block, eval_bind, proceed_eq_ok] at run
  obtain ⟨taken, m₁, -, rest⟩ := run
  cases taken with
  | some scope =>
    obtain ⟨_, _, inner⟩ := recorded_ok rest
    exact list_normal inner normal
  | none =>
    dsimp only at rest
    rw [eval_bind, eval_ask, proceed_ok, eval_bind,
      proceed_eq_ok] at rest
    obtain ⟨scope, m₂, -, rest⟩ := rest
    obtain ⟨_, _, inner⟩ := recorded_ok rest
    exact list_normal inner normal

end Eval

structure Machine.Idles (m m' : Machine σ) : Prop where
  store : m'.store = m.store
  stack : m'.stack = m.stack
  fresh : (Effect.takeResumePoint.apply m').1 = none

theorem Machine.takeResumePoint_fst (m : Machine σ) : (Effect.takeResumePoint.apply m).1 =
    m.runningGenerator?.bind fun g => (m.generator? g).bind (·.resumePoints.head?) := by
  cases running : m.runningGenerator? <;> simp [Effect.apply, running]

namespace Machine.Idles

variable {m m₁ m' : Machine σ}

theorem trans (h : m.Idles m₁) (h' : m₁.Idles m') : m.Idles m' :=
  ⟨h'.store.trans h.store, h'.stack.trans h.stack, h'.fresh⟩

theorem take (fresh : (Effect.takeResumePoint.apply m).1 = none) :
    m.Idles (Effect.takeResumePoint.apply m).2 := by
  refine ⟨?_, stack_kept.effect _ m, takeResumePoint_again fresh⟩
  cases running : m.runningGenerator? with
  | none => simp only [Effect.apply, running]
  | some g =>
    simp only [Effect.apply, running]
    rfl

theorem check (fresh : (Effect.takeResumePoint.apply m).1 = none) :
    m.Idles (Effect.checkLimits.apply m).2 := by
  refine ⟨rfl, rfl, ?_⟩
  rw [takeResumePoint_fst] at fresh ⊢
  exact fresh

end Machine.Idles

namespace Eval

variable {A : Answers σ} {shortcuts : Bool} {level : TryLevel} {body : List Stmt} {m m' : Machine σ}

theorem raises_around (single : Single (body :: level.lists)) (labels : List String) :
    Raises A Fault.Final ((level.around body).eval shortcuts labels : Eval σ Completion) := by
  intro m fault m' run
  have leaves : fault.LeavesTry body level.handler (some level.finalizer) := by
    rw [TryLevel.around, Stmt.eval, eval_tryStatement, Outcome.proceed,
      andThen_eq_finished] at run
    obtain ⟨r, m₁, first, rest⟩ := run
    cases r with
    | error failed =>
      cases rest
      refine raises_bind ((raises_takeRecord _).mono fun _ => .inl) (fun phase => ?_) m fault m' first
      exact raises_guarded A shortcuts body level.handler (some level.finalizer) phase
    | ok pending =>
      exact raises_runFinalizer A shortcuts body level.handler (some level.finalizer) pending m₁
        fault m' rest
  rcases leaves with final | ⟨list, member, name, twice, -⟩
  · exact final
  · have once := List.nodup_iff_count_le_one.1
      (single list (by simpa [tryLists, TryLevel.lists] using member)) name
    omega

theorem evalBlock_around (single : Single (body :: level.lists)) {c : Completion}
    (fresh : (Effect.takeResumePoint.apply m).1 = none)
    (run : A.eval (evalBlock shortcuts [level.around body]) m = .finished (.ok c) m') :
    ∃ m₁ c₁, m.Idles m₁ ∧ A.eval ((level.around body).eval shortcuts []) m₁ = .finished (.ok c₁) m' ∧
      c = if c₁.kind = .normal then .normal c₁.value else c₁ := by
  rw [evalBlock, block, eval_bind, takeScope, A.eval_takeRecord_none _ fresh,
    proceed_ok] at run
  have idles := Machine.Idles.take fresh
  generalize (Effect.takeResumePoint.apply m).2 = m₁ at run idles
  dsimp only at run
  have opened : A.eval (openBlock (blockScope [level.around body]) m₁.lexical) m₁ =
      .finished (.ok none) m₁ := rfl
  rw [eval_bind, eval_ask, proceed_ok, eval_bind, opened,
    proceed_ok, Answers.eval_recording, andThen_eq_finished] at run
  obtain ⟨_, m₂, run, ends⟩ := run
  cases ends
  change A.eval (list (evalFrom shortcuts [level.around body] 0)) m₁ = _ at run
  rw [list, eval_bind, takeList, A.eval_takeRecord_none _ idles.fresh, proceed_ok] at run
  have idles := idles.trans (.take idles.fresh)
  generalize (Effect.takeResumePoint.apply m₁).2 = m₁ at run idles
  dsimp only at run
  have known : (level.around body).knownCompletion? shortcuts = none := by
    cases shortcuts <;> rfl
  rw [evalFrom, known, eval_bind, proceed_eq_ok] at run
  obtain ⟨c₁, m₃, listed, rest⟩ := run
  rw [Eval.listed, eval_bind, proceed_eq_ok] at listed
  obtain ⟨_, m₄, checked, listed⟩ := listed
  have idles : m.Idles m₄ := by
    obtain ⟨-, rfl⟩ := Outcome.finished.inj checked
    exact idles.trans (.check idles.fresh)
  rw [eval_handle, andThen_eq_finished] at listed
  obtain ⟨r, m₅, recorded, settled⟩ := listed
  rw [Answers.eval_recording, andThen_eq_finished] at recorded
  obtain ⟨r', m₆, statement, same⟩ := recorded
  cases same
  cases r with
  | error fault =>
    have final := raises_around single [] m₄ fault m₆ statement
    have refused : (fault.isSuspension || fault.isHostAbort) = true := by
      rcases final with abort | suspended <;> simp [*]
    simp [settle, refused] at settled
  | ok c₂ =>
    cases settled
    refine ⟨m₄, c₁, idles, ?_, ?_⟩
    · unfold andThen at rest
      split at rest <;> cases rest <;> exact statement
    · unfold andThen at rest
      split at rest
      · rename_i abrupt
        cases rest
        rw [if_neg (by simpa [Completion.isAbrupt] using abrupt)]
        obtain ⟨kind, value, label, location⟩ := c₁
        cases value <;> rfl
      · rename_i normal
        cases rest
        rw [if_pos (by simpa [Completion.isAbrupt] using normal)]
        cases c₁.value <;> rfl

end Eval

theorem Engine.around_leaves (engine : Engine σ) {fuel : Nat} {level : TryLevel} {body : List Stmt}
    {labels : List String} {m m' : Machine σ} {c' : Completion}
    (fresh : (Effect.takeResumePoint.apply m).1 = none)
    (run : engine.run fuel ((level.around body).eval engine.shortcuts labels) m =
      .finished (.ok c') m') :
    ∃ m₀ c m₁, m.Idles m₀ ∧
      engine.run fuel (evalBlock engine.shortcuts body) m₀ = .finished (.ok c) m₁ ∧
      engine.Unwinds fuel [level] c m₁ c' m' := by
  rw [TryLevel.around, Stmt.eval, engine.run_eq, eval_tryStatement, proceed_eq_ok] at run
  obtain ⟨pending, m₂, before, after⟩ := run
  rw [eval_bind, takeTry, Answers.eval_takeRecord_none _ _ fresh, proceed_ok] at before
  have idles := Machine.Idles.take fresh
  generalize (Effect.takeResumePoint.apply m).2 = m₀ at before idles
  change Answers.eval _ (runGuarded (evalBlock engine.shortcuts body) _) m₀ = _ at before
  rw [runGuarded, eval_bind, proceed_eq_ok] at before
  obtain ⟨c, _, recorded, handled⟩ := before
  rw [Answers.eval_recording, andThen_eq_finished] at recorded
  obtain ⟨_, m₁, block, same⟩ := recorded
  obtain ⟨rfl, rfl⟩ := Outcome.finished.inj same
  refine ⟨m₀, c, m₁, idles, block, ?_⟩
  have finalizer : ∃ last, engine.run fuel (evalBlock engine.shortcuts level.finalizer) m₂ =
      .finished (.ok last) m' ∧ c' = if last.kind = .normal then pending else last := by
    change Answers.eval _ (recording _ (evalBlock engine.shortcuts level.finalizer) >>= _) m₂ = _ at after
    rw [eval_bind, proceed_eq_ok] at after
    obtain ⟨last, m₃, recorded, ends⟩ := after
    rw [Answers.eval_recording, andThen_eq_finished] at recorded
    obtain ⟨_, _, run, same⟩ := recorded
    cases same
    cases ends
    exact ⟨last, run, rfl⟩
  obtain ⟨last, finalized, rfl⟩ := finalizer
  refine .level ?_ finalized (.done _ _)
  split at handled
  · rename_i throws found
    obtain ⟨clause, is⟩ : ∃ clause, level.handler = some clause := by
      cases is : level.handler with
      | none =>
        rw [is] at found
        cases found
      | some clause => exact ⟨clause, rfl⟩
    rw [is, evalHandler_some] at found
    cases found
    rw [eval_bind, proceed_eq_ok] at handled
    obtain ⟨scope, m₃, opened, handled⟩ := handled
    obtain ⟨scope', m₃', opened', catches⟩ := (engine.answers fuel).eval_openHandler clause.parameter
      c.valueOrUndefined m₁
    cases opened.symm.trans opened'
    rw [runHandler, Answers.eval_recording, andThen_eq_finished] at handled
    obtain ⟨_, _, run, same⟩ := handled
    obtain ⟨rfl, rfl⟩ := Outcome.finished.inj same
    exact .caught is throws opened catches run
  · rename_i other
    cases handled
    refine .passed ?_
    cases is : level.handler with
    | none => exact .inr rfl
    | some clause => exact .inl fun throws => other _ throws (by rw [is, evalHandler_some])

namespace Engine

variable {engine : Engine σ} {fuel : Nat}

theorem Unwinds.trans {inner outer : List TryLevel} {c c₁ c' : Completion} {m m₁ m' : Machine σ}
    (h : engine.Unwinds fuel inner c m c₁ m₁) (h' : engine.Unwinds fuel outer c₁ m₁ c' m') :
    engine.Unwinds fuel (inner ++ outer) c m c' m' := by
  induction h with
  | done => exact h'
  | level handles finalizer _ ih => exact .level handles finalizer (ih h')

theorem Unwinds.normal {levels : List TryLevel} {c c' : Completion} {m m' : Machine σ}
    (h : engine.Unwinds fuel levels c m c' m') (before : c.kind = .normal → c = .normal c.value)
    (normal : c'.kind = .normal) : c' = .normal c'.value := by
  induction h with
  | done => exact before normal
  | @level _ _ _ pending last _ _ _ _ _ handles finalizer _ ih =>
    refine ih (fun normal => ?_) normal
    split at normal <;> rename_i kind
    · rw [if_pos kind]
      cases handles with
      | passed => exact before normal
      | @caught _ scope _ _ _ _ _ _ _ run =>
        rw [engine.run_eq, eval_within, andThen_eq_finished] at run
        obtain ⟨_, m₃, run, left⟩ := run
        cases left
        exact evalBlock_normal run normal
    · exact absurd normal kind

end Engine

/-- However a nest of `try` statements is left, if not by a host abort or a suspension: control leaves
the innermost block with a completion, and then the levels from the innermost on. -/
theorem finalizers_unwind (engine : Engine σ) {fuel : Nat} (levels : List TryLevel) (body : List Stmt)
    {m m' : Machine σ} {r : Except Fault Completion}
    (fresh : (Effect.takeResumePoint.apply m).1 = none)
    (single : Single (body :: levels.flatMap TryLevel.lists))
    (run : engine.run fuel (evalBlock engine.shortcuts (TryLevel.nest body levels)) m = .finished r m')
    (calm : ∀ fault, r = .error fault → ¬ fault.Final) :
    ∃ m₀ c m₁ c', m.Idles m₀ ∧
      engine.run fuel (evalBlock engine.shortcuts body) m₀ = .finished (.ok c) m₁ ∧
      engine.Unwinds fuel levels c m₁ c' m' ∧ r = .ok c' := by
  induction levels generalizing body with
  | nil =>
      cases r with
      | ok c => exact ⟨m, c, m', c, ⟨rfl, rfl, fresh⟩, run, .done c m', rfl⟩
      | error fault =>
          rcases raises_block (A := engine.answers fuel) engine.shortcuts body m fault m' run with final | ⟨name, twice, -⟩
          · exact absurd final (calm fault rfl)
          · have once := List.nodup_iff_count_le_one.1 (single body List.mem_cons_self) name
            omega
  | cons level outer ih =>
      have own : Single (body :: level.lists) := fun list listed => single list (by
        rcases List.mem_cons.1 listed with rfl | listed <;> simp_all)
      have rest : Single ([level.around body] :: outer.flatMap TryLevel.lists) := by
        intro list listed
        rcases List.mem_cons.1 listed with rfl | listed
        · exact List.nodup_nil
        · exact single list (by simp_all)
      obtain ⟨m₂, c₂, m₃, c', idles, alone, unwinds, rfl⟩ := ih [level.around body] rest run
      obtain ⟨m₄, c₁, idles', statement, is⟩ :=
        evalBlock_around (A := engine.answers fuel) own idles.fresh alone
      obtain ⟨m₀, c, m₁, idles'', block, left⟩ := engine.around_leaves idles'.fresh statement
      have same : c₂ = c₁ := by
        rw [is]
        split
        · rename_i normal
          exact (left.normal (evalBlock_normal (A := engine.answers fuel) block) normal).symm
        · rfl
      refine ⟨m₀, c, m₁, c', (idles.trans idles').trans idles'', block, ?_, rfl⟩
      exact left.trans (same ▸ unwinds)

/-- `try { try { throw true; } finally { ; } } finally { return false; }`, where the inner finalizer keeps
the throw pending and the outer one replaces it. -/
theorem finalizers_unwind_replaced :
    let engine : Engine Unit := {}
    let level (s : Stmt) : TryLevel := { handler := none, finalizer := [s], span := {} }
    let levels := [level (.empty {}), level (.return (some (.literal (.boolean false) {})) {})]
    let body : List Stmt := [.throw (.literal (.boolean true) {}) {}]
    ∃ m' m₀ c m₁, engine.run 0 (evalBlock engine.shortcuts (TryLevel.nest body levels)) .bare =
        .finished (.ok (.returning (.boolean false))) m' ∧
      engine.run 0 (evalBlock engine.shortcuts body) m₀ = .finished (.ok c) m₁ ∧
      engine.Unwinds 0 levels c m₁ (.returning (.boolean false)) m' := by
  intro engine level levels body
  have run : engine.run 0 (evalBlock engine.shortcuts (TryLevel.nest body levels)) .bare =
      .finished (.ok (.returning (.boolean false))) .bare := by
    cbv
  have single : Single (body :: levels.flatMap TryLevel.lists) := by
    intro list listed
    simp only [levels, level, TryLevel.lists, List.flatMap_cons, List.flatMap_nil, Option.map_none,
      Option.toList_none, List.nil_append, List.append_nil, List.cons_append, List.mem_cons,
      List.not_mem_nil, or_false] at listed
    rcases listed with rfl | rfl | rfl <;> exact List.nodup_nil
  obtain ⟨m₀, c, m₁, c', -, block, unwinds, is⟩ :=
    finalizers_unwind engine levels body rfl single run (by simp)
  cases is
  exact ⟨.bare, m₀, c, m₁, run, block, unwinds⟩

end ScriptEngine
