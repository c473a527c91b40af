import ScriptEngine.Proofs.Limits.Calls

/-!
# What runs do to the limits

Along a run the budgets are only drawn on. If no limit was exceeded, none of the budgets is
overdrawn, and if what is left of them is what was left before, they are as they were.
-/

namespace ScriptEngine

open Eval

variable {σ α β : Type} {m m' : Machine σ}

/-! ## Budgets -/

namespace Limit

def left : Limit → Nat
  | .statements budget => budget.limit - budget.executed
  | .cancellation => 0

def Within : Limit → Prop
  | .statements budget => budget.executed ≤ budget.limit
  | .cancellation => True

structure Spends (limits limits' : List Limit) : Prop where
  left : (limits'.map Limit.left).sum ≤ (limits.map Limit.left).sum
  same : (limits'.map Limit.left).sum = (limits.map Limit.left).sum →
    (∀ limit ∈ limits', limit.Within) → limits' = limits

theorem Spends.refl (limits : List Limit) : Spends limits limits := ⟨Nat.le_refl _, fun _ _ => rfl⟩

theorem Spends.trans {limits₁ limits₂ : List Limit} (first : Spends limits limits₁)
    (second : Spends limits₁ limits₂) : Spends limits limits₂ := by
  refine ⟨Nat.le_trans second.left first.left, fun sum within => ?_⟩
  have h₁ := first.left
  have h₂ := second.left
  have same := second.same (by omega) within
  rw [same] at sum within
  rw [same, first.same sum within]

theorem spends_cons {limit limit' : Limit} {limits' : List Limit} (less : limit'.left ≤ limit.left)
    (same : limit'.left = limit.left → limit'.Within → limit' = limit) (h : Spends limits limits') :
    Spends (limit :: limits) (limit' :: limits') := by
  have hl := h.left
  constructor
  · simp only [List.map_cons, List.sum_cons]
    omega
  · intro sum within
    simp only [List.map_cons, List.sum_cons] at sum
    rw [same (by omega) (within _ (List.mem_cons_self ..)),
      h.same (by omega) fun limit mem => within limit (List.mem_cons_of_mem _ mem)]

variable (cancelled : Bool) {limits : List Limit}

theorem check_left (limit : Limit) : (limit.check cancelled).2.left ≤ limit.left := by
  cases limit with
  | statements budget =>
    simp only [check, StatementBudget.check, left]
    omega
  | cancellation => exact Nat.le_refl _

theorem check_same {limit : Limit} (same : (limit.check cancelled).2.left = limit.left)
    (within : (limit.check cancelled).2.Within) : (limit.check cancelled).2 = limit := by
  cases limit with
  | statements budget =>
    simp only [check, StatementBudget.check, left, Within] at same within
    omega
  | cancellation => rfl

theorem check_within {limit : Limit} (passes : (limit.check cancelled).1 = .ok ()) :
    (limit.check cancelled).2.Within := by
  cases limit with
  | statements budget =>
    simp only [check, StatementBudget.check] at passes
    split at passes
    · cases passes
    · exact Nat.le_of_not_lt ‹_›
  | cancellation => trivial

theorem checkAll_cons (limit : Limit) (rest : List Limit) :
    checkAll cancelled (limit :: rest) = match (limit.check cancelled).1 with
      | .error fault => (.error fault, (limit.check cancelled).2 :: rest)
      | .ok () => ((checkAll cancelled rest).1,
          (limit.check cancelled).2 :: (checkAll cancelled rest).2) := by
  rw [checkAll]
  split <;> simp_all

theorem checkAll_spends (limits : List Limit) : Spends limits (checkAll cancelled limits).2 := by
  induction limits with
  | nil => exact .refl []
  | cons limit rest ih =>
    have less := check_left cancelled limit
    rw [checkAll_cons]
    cases (limit.check cancelled).1 with
    | error fault => exact spends_cons less (check_same cancelled) (.refl rest)
    | ok => exact spends_cons less (check_same cancelled) ih

theorem checkAll_within (passes : (checkAll cancelled limits).1 = .ok ()) :
    ∀ limit ∈ (checkAll cancelled limits).2, limit.Within := by
  induction limits with
  | nil => nofun
  | cons limit rest ih =>
    rw [checkAll_cons] at passes ⊢
    cases check : (limit.check cancelled).1 with
    | error fault =>
      rw [check] at passes
      cases passes
    | ok =>
      rw [check] at passes
      exact List.forall_mem_cons.2 ⟨check_within cancelled check, ih passes⟩

end Limit

def Heap.Grounded (h : Heap) : Prop :=
  ∀ o f, (h.get o).kind = .function (.bound f) → f.target.index < o.index

theorem Heap.Grounded.congr {h h' : Heap} (grounded : h.Grounded) (same : h.Alike h') :
    h'.Grounded :=
  fun o f bound => grounded o f ((same.kind o).symm.trans bound)

theorem Heap.Grounded.allocate {h : Heap} (grounded : h.Grounded) {object : Object}
    (older : ∀ f, object.kind = .function (.bound f) → f.target.index < h.objects.size) :
    (h.allocate object).2.Grounded := by
  intro o f bound
  rw [get_allocate] at bound
  split at bound
  · rename_i new
    rw [new]
    exact older f bound
  · exact grounded o f bound

namespace Effect.Measured

variable {effect : Effect σ β}

theorem grounded (h : effect.Measured m) (grounded : m.heap.Grounded) :
    (effect.apply m).2.heap.Grounded := by
  cases effect with
  | allocate object => exact grounded.allocate h
  | _ => exact grounded.congr (Effect.alike rfl m)

theorem limits (h : effect.Measured m) : (effect.apply m).2.limits = m.limits ∨
    (effect.apply m).2.limits = (Limit.checkAll m.cancelled m.limits).2 ∧
      effect.exceeds m = Except.isAbort (Limit.checkAll m.cancelled m.limits).1 := by
  cases effect with
  | resetLimits => exact h.elim
  | checkLimits => exact .inr ⟨rfl, rfl⟩
  | startRun g resumption =>
    simp only [Effect.apply]
    repeat' split
    all_goals exact .inl rfl
  | takeResumePoint | pushResumePoint point | takeResumption =>
    simp only [Effect.apply]
    split <;> exact .inl rfl
  | _ => exact .inl rfl

theorem spends (h : effect.Measured m) : Limit.Spends m.limits (effect.apply m).2.limits := by
  rcases h.limits with same | ⟨checked, -⟩
  · rw [same]
    exact .refl m.limits
  · rw [checked]
    exact Limit.checkAll_spends m.cancelled m.limits

end Effect.Measured

/-! ## Runs -/

def Machine.Within (m : Machine σ) : Prop := ∀ limit ∈ m.limits, limit.Within

theorem Effect.Measured.within {effect : Effect σ β} (h : effect.Measured m) (within : m.Within)
    (calm : effect.exceeds m = false) : (effect.apply m).2.Within := by
  unfold Machine.Within
  rcases h.limits with same | ⟨checked, exceeds⟩
  · rw [same]
    exact within
  · rw [checked]
    refine Limit.checkAll_within m.cancelled ?_
    rw [calm] at exceeds
    cases check : (Limit.checkAll m.cancelled m.limits).1 with
    | ok => rfl
    | error fault =>
      have host := Limit.checkAll_isHostAbort check
      rw [check] at exceeds
      exact absurd host (Bool.eq_false_iff.1 exceeds.symm)

/-- What a run makes of the heap and the limits, where `aborted` says of its start and of its end
whether a limit was exceeded. -/
structure Machine.Accounts (m : Machine σ) (aborted : Bool) (m' : Machine σ) (aborted' : Bool) :
    Prop where
  grounded : m.heap.Grounded → m'.heap.Grounded
  within : (aborted = false → m.Within) → aborted' = false → m'.Within
  spends : Limit.Spends m.limits m'.limits

namespace Machine.Accounts

variable {m₁ m₂ : Machine σ} {aborted aborted₁ aborted₂ : Bool}

theorem refl (m : Machine σ) (aborted : Bool) : m.Accounts aborted m aborted :=
  ⟨id, id, .refl _⟩

theorem trans (first : m.Accounts aborted m₁ aborted₁)
    (second : m₁.Accounts aborted₁ m₂ aborted₂) : m.Accounts aborted m₂ aborted₂ :=
  ⟨second.grounded ∘ first.grounded, fun h => second.within (first.within h),
    first.spends.trans second.spends⟩

end Machine.Accounts

theorem Effect.Measured.accounts {effect : Effect σ β} (h : effect.Measured m) (aborted : Bool) :
    m.Accounts aborted (effect.apply m).2 (aborted || effect.exceeds m) := by
  refine ⟨h.grounded, fun within calm => ?_, h.spends⟩
  rw [Bool.or_eq_false_iff] at calm
  exact h.within (within calm.1) calm.2

abbrev Machine.Remains (m m' : Machine σ) : Prop :=
  (m'.stack = m.stack ∧ m'.options = m.options) ∧ m.heap.Extends m'.heap

theorem remains_kept : Kept (Machine.Remains (σ := σ)) := (stack_kept.and options_kept).and kinds_kept

theorem Machine.Remains.isFull (h : m.Remains m') : m'.isFull = m.isFull := by
  simp only [Machine.isFull, h.1.1, h.1.2]

theorem Machine.isFull_setScope (m : Machine σ) (lexical varScope : EnvironmentId) :
    (m.setScope lexical varScope).isFull = m.isFull := by
  have depth : (m.stack.setScope lexical varScope).depth = m.stack.depth := by
    unfold CallStack.setScope CallStack.depth
    split <;> simp_all
  simp only [Machine.isFull, setScope, depth]

structure Answers.Account (A : Answers σ) : Prop where
  invoke : ∀ {invocation m r m'}, A.invoke invocation m = .finished r m' →
    m.Accounts false m' (Except.isAbort r)
  loop : ∀ {l m r m'}, A.loop l m = .finished r m' → m.Accounts false m' (Except.isAbort r)

theorem Action.Measured.accounts {A : Answers σ} (keep : A.Keep Machine.Remains)
    (account : A.Account) {x : Action σ α} {full : Bool} {size known : Nat} {aborted : Bool}
    {ok : α → Bool → Prop} {a : α} (h : x.Measured full size known aborted ok)
    (hm : m.isFull = full) (le : known ≤ m.heap.objects.size) (run : A.run x m = .finished a m') :
    ∃ aborted', ok a aborted' ∧ m.Accounts aborted m' aborted' := by
  induction x generalizing full size known aborted m m' with
  | pure a =>
    cases run
    exact ⟨aborted, h, .refl m aborted⟩
  | read view next ih => exact ih _ (h m hm le) hm (Nat.le_refl _) run
  | perform effect next ih =>
    obtain ⟨measured, rest⟩ := h m hm le
    have remains := remains_kept.effect effect m
    obtain ⟨aborted', done, accounts⟩ := ih _ rest (remains.isFull.trans hm)
      (Nat.le_trans le remains.2.size) run
    exact ⟨aborted', done, (measured.accounts aborted).trans accounts⟩
  | inScope lexical varScope body next ihBody ih =>
    rw [run_inScope, andThen_eq_finished] at run
    obtain ⟨b, m₁, hbody, hnext⟩ := run
    have remains := remains_kept.scope _ _ (remains_kept.action keep hbody)
    obtain ⟨aborted₁, rest, first⟩ := ihBody h ((m.isFull_setScope ..).trans hm) le hbody
    obtain ⟨aborted', done, second⟩ := ih b rest (remains.isFull.trans hm)
      (Nat.le_trans le remains.2.size) hnext
    exact ⟨aborted', done, second.grounded ∘ first.grounded,
      fun h => second.within (first.within h), first.spends.trans second.spends⟩
  | inFrame frame body next ihBody ih =>
    rw [run_inFrame, andThen_eq_finished] at run
    obtain ⟨b, m₁, hbody, hnext⟩ := run
    have remains := remains_kept.frame frame (remains_kept.action keep hbody)
    obtain ⟨large, measured⟩ := h.2 (m.push frame).isFull
    obtain ⟨aborted₁, rest, first⟩ := ihBody measured rfl le hbody
    obtain ⟨aborted', done, second⟩ := ih b rest (remains.isFull.trans hm)
      (Nat.le_trans le remains.2.size) hnext
    exact ⟨aborted', done, second.grounded ∘ first.grounded,
      fun h => second.within (first.within h), first.spends.trans second.spends⟩
  | invoke invocation next ih =>
    rw [run_invoke, andThen_eq_finished] at run
    obtain ⟨r, m₁, answer, hnext⟩ := run
    have remains := keep.invoke answer
    obtain ⟨rfl, -, rest⟩ := h
    obtain ⟨aborted', done, accounts⟩ := ih r (rest r) (remains.isFull.trans hm)
      (Nat.le_trans le remains.2.size) hnext
    exact ⟨aborted', done, (account.invoke answer).trans accounts⟩
  | loop l next ih =>
    rw [run_loop, andThen_eq_finished] at run
    obtain ⟨r, m₁, answer, hnext⟩ := run
    have remains := keep.loop answer
    obtain ⟨rfl, -, rest⟩ := h
    obtain ⟨aborted', done, accounts⟩ := ih r (rest r) (remains.isFull.trans hm)
      (Nat.le_trans le remains.2.size) hnext
    exact ⟨aborted', done, (account.loop answer).trans accounts⟩

theorem Eval.Measured.accounts {A : Answers σ} (keep : A.Keep Machine.Remains) (account : A.Account)
    {x : Eval σ α} {size : Nat} {r : Except Fault α} (h : Measured m.isFull size 0 x)
    (run : A.eval x m = .finished r m') : m.Accounts false m' (Except.isAbort r) := by
  obtain ⟨aborted, relays, accounts⟩ :=
    Action.Measured.accounts keep account h rfl (Nat.zero_le _) run
  refine ⟨accounts.grounded, fun h calm => accounts.within h ?_, accounts.spends⟩
  cases aborted with
  | false => rfl
  | true => exact absurd (relays rfl) (Bool.eq_false_iff.1 calm)

namespace Engine

variable {engine : Engine σ}

theorem answers_account (builtins : engine.host = []) (fuel : Nat) :
    (engine.answers fuel).Account := by
  induction fuel with
  | zero => exact ⟨fun h => by simp at h, fun h => by simp at h⟩
  | succ fuel ih =>
    have keep := remains_kept.answers engine fuel
    constructor
    · intro invocation m r m' run
      rw [answers_succ_invoke] at run
      exact (invocation.measured builtins Nat.one_pos).accounts keep ih run
    · intro l m r m' run
      rw [answers_succ_loop, Answers.afterRound_eq_finished] at run
      obtain ⟨r₁, m₁, round, rest⟩ := run
      have first := (Loop.measured_round (Nat.le_refl _)).accounts keep ih round
      rcases r₁ with fault | step
      · cases rest
        exact first
      · cases step with
        | done completion =>
          cases rest
          exact first
        | again next => exact first.trans (ih.loop rest)

theorem total_account (builtins : engine.host = []) : engine.total.Account := by
  constructor
  · intro invocation m r m' h
    obtain ⟨fuel, -, h⟩ := engine.exists_answers_invoke h 0
    exact (answers_account builtins fuel).invoke h
  · intro l m r m' h
    obtain ⟨fuel, -, h⟩ := engine.exists_answers_loop h 0
    exact (answers_account builtins fuel).loop h

end Engine

theorem Program.measured_runBody (shortcuts : Bool) (program : Program) (scope : EnvironmentId) :
    ∃ size, ∀ full known,
      Measured full size known (program.runBody shortcuts scope : Eval σ Completion) := by
  have pos : 0 < sizeOf program.body + 1 := Nat.succ_pos _
  refine ⟨sizeOf program.body + 1, fun full known => ?_⟩
  refine measured_handle ((simple_declareGlobals scope program.scope).plain.measured_bind pos fun _ =>
    (built_evalStatements (Nat.le_succ _)).measured pos) (fun r _ => ?_)
    fun fault aborted host => ?_
  · cases r with
    | ok completion => exact measured_pure _
    | error fault =>
      dsimp only
      split
      · exact measured_throw _
      · exact (simple_faultValue fault).plain.measured_bind pos fun _ => measured_pure _
  · simp only [host, if_true]
    exact fun _ => host

end ScriptEngine
