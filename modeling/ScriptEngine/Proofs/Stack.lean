import ScriptEngine.Proofs.Fixed
import ScriptEngine.Proofs.Operation

/-!
# The call stack is restored

Whatever an operation does and however it ends, the call stack is afterwards what it was before
(`stack_restored`).
-/

namespace ScriptEngine

variable {σ α β : Type}

theorem Effect.apply_stack (effect : Effect σ β) (m : Machine σ) :
    (effect.apply m).2.stack = m.stack := (effect.apply_fixed m).2.2

theorem CallStack.pop_push (s : CallStack) (frame : Frame) : (s.push frame).pop = s := rfl

theorem Machine.setScope_restores (m : Machine σ) (lexical varScope : EnvironmentId) :
    (m.stack.setScope lexical varScope).setScope m.lexical m.varScope = m.stack := by
  obtain ⟨frames, hs⟩ : ∃ frames, m.stack = ⟨frames⟩ := ⟨m.stack.frames, rfl⟩
  cases frames with
  | nil => simp [CallStack.setScope, hs]
  | cons frame rest =>
    simp [CallStack.setScope, Machine.lexical, Machine.varScope, CallStack.running?, hs]

theorem stack_kept : Kept fun m m' : Machine σ => m'.stack = m.stack where
  refl _ := rfl
  trans h₁ h₂ := h₂.trans h₁
  effect := Effect.apply_stack
  scope {m m'} lexical varScope h := by
    change m'.stack.setScope m.lexical m.varScope = m.stack
    rw [h]
    exact m.setScope_restores lexical varScope
  frame {m m'} frame h := by
    change m'.stack.pop = m.stack
    rw [h]
    exact CallStack.pop_push m.stack frame

theorem lexical_run {engine : Engine σ} {fuel : Nat} {m m' : Machine σ} {x : Eval σ α}
    {r : Except Fault α} (run : engine.run fuel x m = .finished r m') :
    m'.lexical = m.lexical := by
  rw [Machine.lexical, Machine.lexical, stack_kept.run engine run, realm_kept.run engine run]

def Machine.bare : Machine Unit where
  store := { heap := ⟨#[]⟩, environments := #[{ record := .global { object := ⟨0⟩ } }] }
  stack := ⟨[{ lexical := ⟨0⟩, varScope := ⟨0⟩, strict := false }]⟩
  options := {}
  realm :=
    { objectPrototype := ⟨0⟩, functionPrototype := ⟨0⟩, generatorPrototype := ⟨0⟩
      errorPrototype := fun _ => ⟨0⟩, global := ⟨0⟩, globalEnvironment := ⟨0⟩ }
  host := ()

end ScriptEngine
