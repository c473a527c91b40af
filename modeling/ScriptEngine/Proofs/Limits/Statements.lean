import ScriptEngine.Proofs.Limits.Measured

/-!
# Statements are measured

This goes along the way that statements are put together.
-/

namespace ScriptEngine

open Eval

variable {σ α : Type} {full : Bool} {size known : Nat}

namespace Eval

theorem measured_recording (point : ResumePoint) {x : Eval σ α} (h : Measured full size known x) :
    Measured full size known (recording point x) := by
  refine measured_handle h (fun r _ => ?_) fun fault aborted host => ?_
  · cases r with
    | ok a => exact measured_pure a
    | error fault =>
      have pushed : Measured full size known (perform (.pushResumePoint point) : Eval σ Unit) :=
        measured_perform (fun _ _ => trivial) fun _ => rfl
      grind
  · have unsuspended : fault.isSuspension = false := by cases fault <;> cases host <;> rfl
    simp only [unsuspended]
    exact fun _ => host

theorem measured_settled (pos : 0 < size) {x : Eval σ Completion} (h : Measured full size known x)
    (span : Span) : Measured full size known (outcome x >>= settle span) := by
  refine measured_handle h (fun r _ => ?_) fun fault aborted host => ?_
  · unfold settle
    grind
  · simp only [settle, host, Bool.or_true, if_true]
    exact fun _ => host

theorem Built.measured {x : Eval σ α} (h : Built σ size x) (pos : 0 < size) :
    Measured full size known x := by
  induction h with
  | simple h => exact h.plain.measured pos
  | bind _ _ hx hf => exact measured_bind hx hf
  | within scope _ h => exact measured_within scope h
  | takePoint | takeResumption => exact measured_perform (fun _ _ => trivial) fun _ => rfl
  | recorded point _ h => exact measured_recording point h
  | checkLimits => exact measured_checkLimits
  | settled location _ h => exact measured_settled pos h location
  | suspendAt _ slot span h =>
    have pushed : Measured full size known
        (perform (.pushResumePoint (.yield slot)) : Eval σ Unit) :=
      measured_perform (fun _ _ => trivial) fun _ => rfl
    unfold Eval.suspendAt
    grind
  | loop smaller => exact measured_loop smaller

end Eval

variable {shortcuts : Bool}

theorem Stmt.sizeOf_pos (s : Stmt) : 0 < sizeOf s := by
  cases s <;> simp

theorem Loop.measured_round {l : Loop} (fits : sizeOf l.body ≤ size) :
    Measured full size known (l.round shortcuts : Eval σ Loop.Step) :=
  (Loop.built_round fits).measured (Nat.lt_of_lt_of_le l.body.sizeOf_pos fits)

theorem FunctionNode.measured (shortcuts : Bool) (node : FunctionNode) :
    ∃ size, 0 < size ∧ ∀ full known,
      Measured full size known (node.run shortcuts : Eval σ Completion) :=
  let ⟨size, pos, built⟩ := node.built
  ⟨size, pos, fun _ _ => built.measured pos⟩

end ScriptEngine
