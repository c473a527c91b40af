import ScriptEngine.Proofs.Interpretation

/-!
# What every run keeps

A relation between machines that every effect respects, and that survives the brackets around scopes
and frames, relates the start of every run to its end (`Kept.eval`).
-/

namespace ScriptEngine

variable {σ α β : Type}

structure Kept (R : Machine σ → Machine σ → Prop) : Prop where
  refl : ∀ m, R m m
  trans : ∀ {m₁ m₂ m₃}, R m₁ m₂ → R m₂ m₃ → R m₁ m₃
  effect : ∀ {β : Type} (effect : Effect σ β) (m : Machine σ), R m (effect.apply m).2
  scope : ∀ {m m' : Machine σ} (lexical varScope : EnvironmentId),
    R (m.setScope lexical varScope) m' → R m (m'.setScope m.lexical m.varScope)
  frame : ∀ {m m' : Machine σ} (frame : Frame), R (m.push frame) m' → R m m'.pop

structure Answers.Keep (A : Answers σ) (R : Machine σ → Machine σ → Prop) : Prop where
  invoke : ∀ {invocation m r m'}, A.invoke invocation m = .finished r m' → R m m'
  loop : ∀ {l m r m'}, A.loop l m = .finished r m' → R m m'

namespace Kept

variable {R : Machine σ → Machine σ → Prop}

variable (kept : Kept R)

include kept

theorem and {S : Machine σ → Machine σ → Prop} (kept' : Kept S) :
    Kept fun m m' => R m m' ∧ S m m' where
  refl m := ⟨kept.refl m, kept'.refl m⟩
  trans h₁ h₂ := ⟨kept.trans h₁.1 h₂.1, kept'.trans h₁.2 h₂.2⟩
  effect effect m := ⟨kept.effect effect m, kept'.effect effect m⟩
  scope lexical varScope h := ⟨kept.scope lexical varScope h.1, kept'.scope lexical varScope h.2⟩
  frame frame h := ⟨kept.frame frame h.1, kept'.frame frame h.2⟩

theorem action {A : Answers σ} (answers : A.Keep R) {x : Action σ α} {m m' : Machine σ} {a : α}
    (h : A.run x m = .finished a m') : R m m' := by
  induction x generalizing m m' with
  | pure a =>
    cases h
    exact kept.refl m
  | read view next ih => exact ih _ h
  | perform effect next ih => exact kept.trans (kept.effect effect m) (ih _ h)
  | inScope lexical varScope body next ihBody ih =>
    rw [run_inScope, andThen_eq_finished] at h
    obtain ⟨b, m₁, hbody, hnext⟩ := h
    exact kept.trans (kept.scope _ _ (ihBody hbody)) (ih b hnext)
  | inFrame frame body next ihBody ih =>
    rw [run_inFrame, andThen_eq_finished] at h
    obtain ⟨b, m₁, hbody, hnext⟩ := h
    exact kept.trans (kept.frame frame (ihBody hbody)) (ih b hnext)
  | invoke invocation next ih =>
    rw [run_invoke, andThen_eq_finished] at h
    obtain ⟨r, m₁, hreq, hnext⟩ := h
    exact kept.trans (answers.invoke hreq) (ih r hnext)
  | loop l next ih =>
    rw [run_loop, andThen_eq_finished] at h
    obtain ⟨r, m₁, hreq, hnext⟩ := h
    exact kept.trans (answers.loop hreq) (ih r hnext)

theorem answers (engine : Engine σ) (fuel : Nat) : (engine.answers fuel).Keep R := by
  induction fuel with
  | zero => exact ⟨fun h => by simp at h, fun h => by simp at h⟩
  | succ fuel ih =>
    constructor
    · intro invocation m r m' h
      rw [engine.answers_succ_invoke] at h
      exact kept.action ih h
    · intro l m r m' h
      rw [engine.answers_succ_loop, Answers.afterRound, Outcome.proceed,
        andThen_eq_finished] at h
      obtain ⟨result, m₁, hround, hrest⟩ := h
      have first : R m m₁ := kept.action ih hround
      rcases result with fault | step
      · cases hrest
        exact first
      · cases step with
        | done completion =>
          cases hrest
          exact first
        | again next => exact kept.trans first (ih.loop hrest)

theorem run (engine : Engine σ) {fuel : Nat} {x : Eval σ α} {m m' : Machine σ} {r : Except Fault α}
    (h : engine.run fuel x m = .finished r m') : R m m' :=
  kept.action (kept.answers engine fuel) h

theorem total (engine : Engine σ) : engine.total.Keep R := by
  constructor
  · intro invocation m r m' h
    obtain ⟨fuel, -, h⟩ := engine.exists_answers_invoke h 0
    exact (kept.answers engine fuel).invoke h
  · intro l m r m' h
    obtain ⟨fuel, -, h⟩ := engine.exists_answers_loop h 0
    exact (kept.answers engine fuel).loop h

end Kept

end ScriptEngine
