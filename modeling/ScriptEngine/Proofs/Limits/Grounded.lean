import ScriptEngine.Proofs.Limits.Accounts
import ScriptEngine.Proofs.Start

/-!
# Bound functions refer to older objects

This holds when an engine starts, since there are no bound functions then, and no operation changes
it (`Engine.Reachable.grounded`).
-/

namespace ScriptEngine

open Eval

variable {σ α : Type}

section

variable {engine : Engine σ} (builtins : engine.host = []) {fuel : Nat}

include builtins

theorem Eval.Measured.grounded {size : Nat} {x : Eval σ α} {m m' : Machine σ} {r : Except Fault α}
    (h : Measured m.isFull size 0 x) (run : engine.run fuel x m = .finished r m')
    (grounded : m.heap.Grounded) : m'.heap.Grounded := by
  have accounts := h.accounts (remains_kept.answers engine fuel)
    (Engine.answers_account builtins fuel) run
  exact accounts.grounded grounded

theorem Program.grounded {program : Program} {m m' : Machine σ} {r : Except Fault Completion}
    (run : engine.run fuel (program.run engine.shortcuts) m = .finished r m')
    (grounded : m.heap.Grounded) : m'.heap.Grounded := by
  rw [engine.run_eq, Answers.eval_run, andThen_eq_finished] at run
  obtain ⟨r, m₁, body, left⟩ := run
  cases left
  obtain ⟨size, measured⟩ := program.measured_runBody (σ := σ) engine.shortcuts
    m.realm.globalEnvironment
  have start : (program.entered m).heap.Grounded := grounded
  have left : m₁.heap.Grounded := Eval.Measured.grounded builtins (measured _ _) body start
  exact left

theorem Operation.grounded (operation : Operation α) {m m' : Machine σ} {r : Except Fault α}
    (run : engine.run fuel (operation.evaluate engine) m = .finished r m')
    (grounded : m.heap.Grounded) : m'.heap.Grounded := by
  cases operation with
  | statement s labels =>
    exact Eval.Measured.grounded builtins
      ((s.built labels (Nat.le_refl _)).measured s.sizeOf_pos) run grounded
  | expression e hint =>
    exact Eval.Measured.grounded builtins ((Expr.plain e hint).measured Nat.one_pos) run grounded
  | call callee this arguments =>
    exact Eval.Measured.grounded builtins (measured_call Nat.one_pos ..) run grounded
  | construct callee arguments newTarget =>
    exact Eval.Measured.grounded builtins (measured_construct Nat.one_pos ..) run grounded
  | drive receiver resumption brand =>
    have measured : Measured m.isFull 0 0
        (Eval.drive engine.shortcuts receiver resumption brand : Eval σ Value) :=
      measured_drive ..
    exact measured.grounded builtins run grounded
  | run program => exact Program.grounded builtins run grounded
  | eval program =>
    simp only [Operation.evaluate, Program.eval, engine.run_eq, eval_bind, Outcome.proceed,
      andThen_eq_finished] at run
    obtain ⟨r, m₁, body, rest⟩ := run
    have same : m' = m₁ := by
      cases r with
      | error fault =>
        cases rest
        rfl
      | ok completion =>
        dsimp only at rest
        split at rest <;> cases rest <;> rfl
    rw [same]
    exact Program.grounded builtins body grounded

end

theorem Engine.start_grounded (engine : Engine σ) (options : Options) (host : σ) :
    (engine.start options host).heap.Grounded := by
  intro o f kind
  have given := engine.start_given options host o
  rw [kind] at given
  cases given

theorem Engine.Reachable.grounded {engine : Engine σ} (builtins : engine.host = [])
    {change : Machine σ → Machine σ → Prop}
    (grounded : ∀ m m', change m m' → m.heap.Grounded → m'.heap.Grounded) {m : Machine σ}
    (h : engine.Reachable change m) : m.heap.Grounded := by
  induction h with
  | start options host => exact engine.start_grounded options host
  | operate operation _ run ih => exact operation.grounded builtins run ih
  | change _ changed ih => exact grounded _ _ changed ih

end ScriptEngine
