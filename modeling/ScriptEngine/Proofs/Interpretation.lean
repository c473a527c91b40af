import Mathlib
import ScriptEngine.Run

/-!
# What running an action means

An action is run relative to `Answers`, which say how calls and loops are answered. The laws of
`Answers.run` and `Answers.eval` are the equations that proofs about evaluations use in place of the
definition of the interpreter.
-/

namespace ScriptEngine

variable {σ α β : Type} {f : Nat → Outcome σ α} {o : Outcome σ α}

namespace Outcome

def andThen (o : Outcome σ α) (next : α → Machine σ → Outcome σ β) : Outcome σ β :=
  match o with
  | .finished a m => next a m
  | .exhausted => .exhausted

/-- It finished, and the test passes. -/
def satisfies (o : Outcome σ α) (test : α → Machine σ → Bool) : Bool :=
  match o with
  | .finished a m => test a m
  | .exhausted => false

theorem satisfies_iff {test : α → Machine σ → Bool} :
    o.satisfies test = true ↔ ∃ a m, o = .finished a m ∧ test a m = true := by
  cases o <;> simp [satisfies]

@[simp] theorem andThen_finished (a : α) (m : Machine σ) (next : α → Machine σ → Outcome σ β) :
    (Outcome.finished a m).andThen next = next a m := rfl

@[simp] theorem andThen_exhausted (next : α → Machine σ → Outcome σ β) :
    (Outcome.exhausted : Outcome σ α).andThen next = .exhausted := rfl

theorem andThen_assoc {γ : Type} (o : Outcome σ α) (next : α → Machine σ → Outcome σ β)
    (last : β → Machine σ → Outcome σ γ) :
    (o.andThen next).andThen last = o.andThen fun a m => (next a m).andThen last := by
  cases o <;> rfl

theorem andThen_eq_finished {o : Outcome σ α} {next : α → Machine σ → Outcome σ β} {b : β}
    {m' : Machine σ} :
    o.andThen next = .finished b m' ↔ ∃ a m, o = .finished a m ∧ next a m = .finished b m' := by
  constructor
  · intro h
    cases o with
    | finished a m => exact ⟨a, m, rfl, h⟩
    | exhausted => cases h
  · rintro ⟨a, m, rfl, h⟩
    exact h

def proceed (o : Outcome σ (Except Fault α))
    (next : α → Machine σ → Outcome σ (Except Fault β)) : Outcome σ (Except Fault β) :=
  o.andThen fun r m => match r with
    | .ok a => next a m
    | .error fault => .finished (.error fault) m

@[simp] theorem proceed_ok (a : α) (m : Machine σ)
    (next : α → Machine σ → Outcome σ (Except Fault β)) :
    (Outcome.finished (.ok a) m).proceed next = next a m := rfl

@[simp] theorem proceed_error (fault : Fault) (m : Machine σ)
    (next : α → Machine σ → Outcome σ (Except Fault β)) :
    (Outcome.finished (.error fault) m).proceed next = .finished (.error fault) m := rfl

@[simp] theorem proceed_exhausted (next : α → Machine σ → Outcome σ (Except Fault β)) :
    (Outcome.exhausted : Outcome σ (Except Fault α)).proceed next = .exhausted := rfl

theorem proceed_assoc {γ : Type} (o : Outcome σ (Except Fault α))
    (next : α → Machine σ → Outcome σ (Except Fault β))
    (last : β → Machine σ → Outcome σ (Except Fault γ)) :
    (o.proceed next).proceed last = o.proceed fun a m => (next a m).proceed last := by
  rcases o with ⟨r, m⟩ | _
  · cases r <;> rfl
  · rfl

theorem proceed_eq_ok {o : Outcome σ (Except Fault α)}
    {next : α → Machine σ → Outcome σ (Except Fault β)} {b : β} {m' : Machine σ} :
    o.proceed next = .finished (.ok b) m' ↔
      ∃ a m, o = .finished (.ok a) m ∧ next a m = .finished (.ok b) m' := by
  rw [proceed, andThen_eq_finished]
  constructor
  · rintro ⟨r, m, rfl, h⟩
    cases r with
    | ok a => exact ⟨a, m, rfl, h⟩
    | error fault => cases h
  · rintro ⟨a, m, rfl, h⟩
    exact ⟨.ok a, m, rfl, h⟩

end Outcome

export Outcome (andThen_assoc andThen_eq_finished proceed_ok proceed_error proceed_assoc proceed_eq_ok)

/-! ## Answers -/

structure Answers (σ : Type) where
  invoke : Invocation → Machine σ → Outcome σ (Except Fault Value)
  loop : Loop → Machine σ → Outcome σ (Except Fault Completion)

namespace Answers

variable (A : Answers σ) (x : Eval σ α)

def run (x : Action σ α) (m : Machine σ) : Outcome σ α := x.interpret A.invoke A.loop m

@[simp] theorem run_pure (a : α) (m : Machine σ) : A.run (.pure a) m = .finished a m := rfl

@[simp] theorem run_read (view : Machine σ → β) (next : β → Action σ α) (m : Machine σ) :
    A.run (.read view next) m = A.run (next (view m)) m := rfl

@[simp] theorem run_perform (effect : Effect σ β) (next : β → Action σ α) (m : Machine σ) :
    A.run (.perform effect next) m = A.run (next (effect.apply m).1) (effect.apply m).2 := rfl

@[simp] theorem run_inScope (lexical : EnvironmentId) (varScope : Option EnvironmentId)
    (body : Action σ β) (next : β → Action σ α) (m : Machine σ) :
    A.run (.inScope lexical varScope body next) m =
      (A.run body (m.setScope lexical (varScope.getD m.varScope))).andThen fun b m' =>
        A.run (next b) (m'.setScope m.lexical m.varScope) := by
  simp only [run, Action.interpret]
  cases body.interpret A.invoke A.loop (m.setScope lexical (varScope.getD m.varScope)) <;> rfl

@[simp] theorem run_inFrame (frame : Frame) (body : Action σ β) (next : β → Action σ α)
    (m : Machine σ) :
    A.run (.inFrame frame body next) m =
      (A.run body (m.push frame)).andThen fun b m' => A.run (next b) m'.pop := by
  simp only [run, Action.interpret]
  cases body.interpret A.invoke A.loop (m.push frame) <;> rfl

@[simp] theorem run_invoke (invocation : Invocation) (next : Except Fault Value → Action σ α)
    (m : Machine σ) :
    A.run (.invoke invocation next) m =
      (A.invoke invocation m).andThen fun r m' => A.run (next r) m' := by
  simp only [run, Action.interpret]
  cases A.invoke invocation m <;> rfl

@[simp] theorem run_loop (l : Loop) (next : Except Fault Completion → Action σ α) (m : Machine σ) :
    A.run (.loop l next) m = (A.loop l m).andThen fun r m' => A.run (next r) m' := by
  simp only [run, Action.interpret]
  cases A.loop l m <;> rfl

theorem run_bind (x : Action σ α) (f : α → Action σ β) (m : Machine σ) :
    A.run (x.bind f) m = (A.run x m).andThen fun a m' => A.run (f a) m' := by
  induction x generalizing m with
  | pure a => rfl
  | read view next ih => exact ih (view m) f m
  | perform effect next ih => exact ih (effect.apply m).1 f (effect.apply m).2
  | inScope lexical varScope body next _ ih =>
    simp only [Action.bind, run_inScope, andThen_assoc, ih]
  | inFrame frame body next _ ih => simp only [Action.bind, run_inFrame, andThen_assoc, ih]
  | invoke invocation next ih => simp only [Action.bind, run_invoke, andThen_assoc, ih]
  | loop l next ih => simp only [Action.bind, run_loop, andThen_assoc, ih]

/-! ## Evaluations -/

def eval (x : Eval σ α) (m : Machine σ) : Outcome σ (Except Fault α) := A.run x.run m

@[simp] theorem eval_pure (a : α) (m : Machine σ) :
    A.eval (pure a) m = .finished (.ok a) m := rfl

@[simp] theorem eval_throw (fault : Fault) (m : Machine σ) :
    A.eval (throw fault : Eval σ α) m = .finished (.error fault) m := rfl

@[simp] theorem eval_typeError (issue : TypeIssue) (m : Machine σ) :
    A.eval (Eval.typeError issue : Eval σ α) m = .finished (.error (.typeError issue)) m := rfl

@[simp] theorem eval_bind (f : α → Eval σ β) (m : Machine σ) :
    A.eval (x >>= f) m = (A.eval x m).proceed fun a m' => A.eval (f a) m' := by
  change A.run (x.run.bind _) m = _
  rw [run_bind]
  refine congrArg _ (funext fun r => funext fun m' => ?_)
  cases r <;> rfl

theorem eval_bind_assoc {γ : Type} (f : α → Eval σ β) (g : β → Eval σ γ) (m : Machine σ) :
    A.eval ((x >>= f) >>= g) m = A.eval (x >>= fun a => f a >>= g) m := by
  simp only [eval_bind, proceed_assoc]

@[simp] theorem eval_ask (view : Machine σ → α) (m : Machine σ) :
    A.eval (Eval.ask view) m = .finished (.ok (view m)) m := rfl

@[simp] theorem eval_askFor (view : Machine σ → Except Fault α) (m : Machine σ) :
    A.eval (Eval.askFor view) m = .finished (view m) m := rfl

@[simp] theorem eval_perform (effect : Effect σ α) (m : Machine σ) :
    A.eval (Eval.perform effect) m = .finished (.ok (effect.apply m).1) (effect.apply m).2 := rfl

@[simp] theorem eval_attempt (effect : Effect σ (Except Fault α)) (m : Machine σ) :
    A.eval (Eval.attempt effect) m = .finished (effect.apply m).1 (effect.apply m).2 := rfl

@[simp] theorem eval_ofExcept (r : Except Fault α) (m : Machine σ) :
    A.eval (Eval.ofExcept r) m = .finished r m := rfl

@[simp] theorem eval_outcome (m : Machine σ) :
    A.eval (Eval.outcome x) m = (A.eval x m).andThen fun r m' => .finished (.ok r) m' :=
  A.run_bind x.run _ m

theorem eval_handle (f : Except Fault α → Eval σ β) (m : Machine σ) :
    A.eval (Eval.outcome x >>= f) m = (A.eval x m).andThen fun r m' => A.eval (f r) m' := by
  rw [eval_bind, eval_outcome]
  cases A.eval x m <;> rfl

@[simp] theorem eval_within (lexical : EnvironmentId) (x : Eval σ α) (m : Machine σ) :
    A.eval (Eval.within lexical x) m =
      (A.eval x (m.setScope lexical m.varScope)).andThen fun r m' =>
        .finished r (m'.setScope m.lexical m.varScope) :=
  A.run_inScope lexical none x.run .pure m

@[simp] theorem eval_withinBody (scope : EnvironmentId) (x : Eval σ α) (m : Machine σ) :
    A.eval (Eval.withinBody scope x) m =
      (A.eval x (m.setScope scope scope)).andThen fun r m' =>
        .finished r (m'.setScope m.lexical m.varScope) :=
  A.run_inScope scope (some scope) x.run .pure m

@[simp] theorem eval_inFrame (frame : Frame) (x : Eval σ α) (m : Machine σ) :
    A.eval (Eval.inFrame frame x) m =
      (A.eval x (m.push frame)).andThen fun r m' => .finished r m'.pop :=
  A.run_inFrame frame x.run .pure m

@[simp] theorem eval_call (callee this : Value) (arguments : List Value) (m : Machine σ) :
    A.eval (Eval.call callee this arguments) m = A.invoke (.call callee this arguments) m := by
  refine (A.run_invoke _ .pure m).trans ?_
  cases A.invoke (.call callee this arguments) m <;> rfl

@[simp] theorem eval_construct (callee : Value) (arguments : List Value)
    (newTarget : Option Value) (m : Machine σ) :
    A.eval (Eval.construct callee arguments newTarget) m =
      A.invoke (.construct callee arguments newTarget) m := by
  refine (A.run_invoke _ .pure m).trans ?_
  cases A.invoke (.construct callee arguments newTarget) m <;> rfl

@[simp] theorem eval_loop (l : Loop) (m : Machine σ) : A.eval (Eval.loop l) m = A.loop l m := by
  refine (A.run_loop l .pure m).trans ?_
  cases A.loop l m <;> rfl

def afterRound (o : Outcome σ (Except Fault Loop.Step)) : Outcome σ (Except Fault Completion) :=
  o.proceed fun step m => match step with
    | .done completion => .finished (.ok completion) m
    | .again next => A.loop next m

end Answers

export Answers (run_read run_perform run_inScope run_inFrame run_invoke run_loop eval_pure eval_throw
  eval_bind eval_ask eval_askFor eval_perform eval_attempt eval_ofExcept eval_outcome eval_handle
  eval_within eval_withinBody eval_inFrame eval_call eval_construct eval_loop)

/-! ## Fuel -/

def Outcome.Within (o p : Outcome σ α) : Prop := o = .exhausted ∨ o = p

theorem Outcome.Within.andThen {p : Outcome σ α} {f g : α → Machine σ → Outcome σ β}
    (h : o.Within p) (hfg : ∀ a m, (f a m).Within (g a m)) :
    (o.andThen f).Within (p.andThen g) := by
  rcases h with rfl | rfl
  · exact .inl rfl
  · cases o with
    | finished a m => exact hfg a m
    | exhausted => exact .inl rfl

structure Answers.Within (A B : Answers σ) : Prop where
  invoke : ∀ invocation m, (A.invoke invocation m).Within (B.invoke invocation m)
  loop : ∀ l m, (A.loop l m).Within (B.loop l m)

theorem Answers.Within.run {A B : Answers σ} (h : A.Within B) (x : Action σ α) (m : Machine σ) :
    (A.run x m).Within (B.run x m) := by
  induction x generalizing m with
  | pure a => exact .inr rfl
  | read view next ih => exact ih (view m) m
  | perform effect next ih => exact ih (effect.apply m).1 (effect.apply m).2
  | inScope lexical varScope body next ihBody ih =>
    simp only [run_inScope]
    exact (ihBody _).andThen fun b m' => ih b _
  | inFrame frame body next ihBody ih =>
    simp only [run_inFrame]
    exact (ihBody _).andThen fun b m' => ih b _
  | invoke invocation next ih =>
    simp only [run_invoke]
    exact (h.invoke invocation m).andThen fun r m' => ih r m'
  | loop l next ih =>
    simp only [run_loop]
    exact (h.loop l m).andThen fun r m' => ih r m'

structure Approaches {γ : Type} (bottom : γ) (f : Nat → γ) (b : γ) : Prop where
  within : ∀ n, f n = bottom ∨ f n = b
  reached : b ≠ bottom → ∃ N, ∀ n, N ≤ n → f n = b

namespace Approaches

variable {γ : Type} {bottom c : γ} {f : Nat → γ} {b : γ}

theorem const (bottom b : γ) : Approaches bottom (fun _ => b) b :=
  ⟨fun _ => .inr rfl, fun _ => ⟨0, fun _ _ => rfl⟩⟩

theorem exists_eq_iff (h : Approaches bottom f b) (hc : c ≠ bottom) : (∃ n, f n = c) ↔ b = c := by
  constructor
  · rintro ⟨n, rfl⟩
    exact ((h.within n).resolve_left hc).symm
  · rintro rfl
    obtain ⟨N, hN⟩ := h.reached hc
    exact ⟨N, hN N (Nat.le_refl _)⟩

theorem exists_ge (h : Approaches bottom f b) (hb : b = c) (hc : c ≠ bottom) (least : Nat) :
    ∃ n, least ≤ n ∧ f n = c := by
  obtain ⟨N, hN⟩ := h.reached (hb ▸ hc)
  exact ⟨max least N, Nat.le_max_left least N, (hN _ (Nat.le_max_right least N)).trans hb⟩

theorem of_succ (zero : f 0 = bottom) (h : Approaches bottom (fun n => f (n + 1)) b) :
    Approaches bottom f b := by
  constructor
  · intro n
    cases n with
    | zero => exact .inl zero
    | succ n => exact h.within n
  · intro hb
    obtain ⟨N, hN⟩ := h.reached hb
    refine ⟨N + 1, fun n hn => ?_⟩
    obtain ⟨k, rfl⟩ := Nat.exists_eq_add_of_le' hn
    exact hN (k + N) (Nat.le_add_left N k)

theorem follow {δ : Type} {bottom' c : δ} {g : Nat → γ → δ} (h : Approaches bottom f b)
    (strict : ∀ n, g n bottom = bottom') (stuck : b = bottom → c = bottom')
    (next : b ≠ bottom → Approaches bottom' (fun n => g n b) c) :
    Approaches bottom' (fun n => g n (f n)) c := by
  by_cases hb : b = bottom
  · refine ⟨fun n => .inl ?_, fun hc => absurd (stuck hb) hc⟩
    rw [(h.within n).elim id (·.trans hb), strict]
  · have next := next hb
    refine ⟨fun n => ?_, fun hc => ?_⟩
    · rcases h.within n with e | e
      · exact .inl (by rw [e, strict])
      · rw [e]
        exact next.within n
    · obtain ⟨N, hN⟩ := h.reached hb
      obtain ⟨M, hM⟩ := next.reached hc
      refine ⟨max N M, fun n hn => ?_⟩
      rw [hN n (Nat.le_trans (Nat.le_max_left N M) hn)]
      exact hM n (Nat.le_trans (Nat.le_max_right N M) hn)

theorem map {δ : Type} {bottom' : δ} (h : Approaches bottom f b) (g : γ → δ)
    (strict : g bottom = bottom') : Approaches bottom' (fun n => g (f n)) (g b) :=
  h.follow (g := fun _ => g) (fun _ => strict) (fun hb => by rw [hb, strict]) fun _ => .const _ _

theorem succ (h : Approaches bottom f b) : Approaches bottom (fun n => f (n + 1)) b :=
  ⟨fun n => h.within (n + 1), fun hb =>
    (h.reached hb).imp fun _ hN n hn => hN (n + 1) (Nat.le_succ_of_le hn)⟩

theorem unique (hb : Approaches bottom f b) (hc : Approaches bottom f c) : b = c := by
  by_cases h : b = bottom
  · by_cases h' : c = bottom
    · rw [h, h']
    · obtain ⟨N, hN⟩ := hc.reached h'
      rcases hb.within N with e | e
      · exact absurd ((hN N (Nat.le_refl _)).symm.trans e) h'
      · exact e.symm.trans (hN N (Nat.le_refl _))
  · obtain ⟨N, hN⟩ := hb.reached h
    rcases hc.within N with e | e
    · exact absurd ((hN N (Nat.le_refl _)).symm.trans e) h
    · exact (hN N (Nat.le_refl _)).symm.trans e

end Approaches

abbrev Outcome.Approaches (f : Nat → Outcome σ α) (o : Outcome σ α) : Prop :=
  ScriptEngine.Approaches .exhausted f o

theorem Outcome.Approaches.exists_finished_iff (h : Outcome.Approaches f o) {a : α} {m : Machine σ} :
    (∃ n, f n = .finished a m) ↔ o = .finished a m :=
  h.exists_eq_iff nofun

theorem Outcome.Approaches.andThen {next : Nat → α → Machine σ → Outcome σ β}
    {last : α → Machine σ → Outcome σ β} (h : Outcome.Approaches f o)
    (hnext : ∀ a m, Outcome.Approaches (fun n => next n a m) (last a m)) :
    Outcome.Approaches (fun n => (f n).andThen (next n)) (o.andThen last) := by
  refine h.follow (g := fun n o => o.andThen (next n)) (fun _ => rfl) ?_ fun hb => ?_
  · rintro rfl
    rfl
  · cases o with
    | exhausted => exact absurd rfl hb
    | finished a m => exact hnext a m

noncomputable def Outcome.limit (f : Nat → Outcome σ α) : Outcome σ α :=
  open Classical in if h : ∃ n, f n ≠ .exhausted then f h.choose else .exhausted

def Outcome.Stable (f : Nat → Outcome σ α) : Prop := ∀ n, (f n).Within (f (n + 1))

theorem Outcome.Stable.le (h : Outcome.Stable f) {n k : Nat} (hn : f n ≠ .exhausted) (hk : n ≤ k) :
    f k = f n := by
  induction hk with
  | refl => rfl
  | step _ ih => exact (((h _).resolve_left (ih ▸ hn)).symm).trans ih

theorem Outcome.Stable.approaches (h : Outcome.Stable f) :
    Outcome.Approaches f (Outcome.limit f) := by
  by_cases some : ∃ n, f n ≠ .exhausted
  · have value : Outcome.limit f = f some.choose := dif_pos some
    constructor
    · intro n
      by_cases hn : f n = .exhausted
      · exact .inl hn
      · refine .inr ?_
        rw [value, ← h.le hn (Nat.le_max_left n some.choose),
          ← h.le some.choose_spec (Nat.le_max_right n some.choose)]
    · intro _
      exact ⟨some.choose, fun n hn => value ▸ h.le some.choose_spec hn⟩
  · have value : Outcome.limit f = .exhausted := dif_neg some
    rw [value]
    exact ⟨fun n => .inl (Classical.not_not.1 (not_exists.1 some n)), fun hb => absurd rfl hb⟩

namespace Engine

variable (engine : Engine σ) {m m' : Machine σ} (invocation : Invocation) (fuel : Nat) (l : Loop)

def answers (fuel : Nat) : Answers σ := ⟨engine.invoke fuel, engine.repeat fuel⟩

theorem run_eq (x : Eval σ α) (m : Machine σ) :
    engine.run fuel x m = (engine.answers fuel).eval x m := rfl

@[simp] theorem answers_zero_invoke (m : Machine σ) :
    (engine.answers 0).invoke invocation m = .exhausted := by
  simp only [answers, Engine.invoke]

@[simp] theorem answers_zero_loop (m : Machine σ) : (engine.answers 0).loop l m = .exhausted := by
  simp only [answers, Engine.repeat]

theorem answers_succ_invoke (invocation : Invocation) (m : Machine σ) :
    (engine.answers (fuel + 1)).invoke invocation m =
      (engine.answers fuel).eval (invocation.eval engine) m := by
  simp only [answers, Engine.invoke]
  rfl

theorem answers_succ_loop (m : Machine σ) :
    (engine.answers (fuel + 1)).loop l m =
      (engine.answers fuel).afterRound
        ((engine.answers fuel).eval (l.round engine.shortcuts) m) := by
  simp only [answers, Engine.repeat]
  change _ = (engine.answers fuel).afterRound
    (Action.interpret (engine.invoke fuel) (engine.repeat fuel) (l.round engine.shortcuts).run m)
  cases Action.interpret (engine.invoke fuel) (engine.repeat fuel)
      (l.round engine.shortcuts).run m with
  | exhausted => rfl
  | finished r m' =>
    cases r with
    | error fault => rfl
    | ok step => cases step <;> rfl

theorem answers_within_succ : (engine.answers fuel).Within (engine.answers (fuel + 1)) := by
  induction fuel with
  | zero => exact ⟨fun _ _ => .inl (by simp), fun _ _ => .inl (by simp)⟩
  | succ fuel ih =>
    constructor
    · intro invocation m
      rw [answers_succ_invoke, answers_succ_invoke]
      exact ih.run _ m
    · intro l m
      rw [answers_succ_loop, answers_succ_loop]
      refine Outcome.Within.andThen (ih.run _ m) fun r m' => ?_
      rcases r with fault | step
      · exact .inr rfl
      · cases step with
        | done completion => exact .inr rfl
        | again next => exact ih.loop next m'

noncomputable def total : Answers σ where
  invoke invocation m := Outcome.limit fun fuel => (engine.answers fuel).invoke invocation m
  loop l m := Outcome.limit fun fuel => (engine.answers fuel).loop l m

theorem invoke_approaches (m : Machine σ) :
    Outcome.Approaches (fun fuel => (engine.answers fuel).invoke invocation m)
      (engine.total.invoke invocation m) :=
  Outcome.Stable.approaches fun fuel => (engine.answers_within_succ fuel).invoke invocation m

theorem loop_approaches (m : Machine σ) :
    Outcome.Approaches (fun fuel => (engine.answers fuel).loop l m) (engine.total.loop l m) :=
  Outcome.Stable.approaches fun fuel => (engine.answers_within_succ fuel).loop l m

theorem action_approaches (x : Action σ α) (m : Machine σ) :
    Outcome.Approaches (fun fuel => (engine.answers fuel).run x m) (engine.total.run x m) := by
  induction x generalizing m with
  | pure a => exact .const _ _
  | read view next ih => exact ih (view m) m
  | perform effect next ih => exact ih (effect.apply m).1 (effect.apply m).2
  | inScope lexical varScope body next ihBody ih =>
    simp only [run_inScope]
    exact (ihBody _).andThen fun b m' => ih b _
  | inFrame frame body next ihBody ih =>
    simp only [run_inFrame]
    exact (ihBody _).andThen fun b m' => ih b _
  | invoke invocation next ih =>
    simp only [run_invoke]
    exact (engine.invoke_approaches invocation m).andThen fun r m' => ih r m'
  | loop l next ih =>
    simp only [run_loop]
    exact (engine.loop_approaches l m).andThen fun r m' => ih r m'

theorem run_approaches (x : Eval σ α) (m : Machine σ) :
    Outcome.Approaches (fun fuel => engine.run fuel x m) (engine.total.eval x m) :=
  engine.action_approaches x.run m

theorem exists_run_iff {x : Eval σ α} {r : Except Fault α} :
    (∃ fuel, engine.run fuel x m = .finished r m') ↔ engine.total.eval x m = .finished r m' :=
  (engine.run_approaches x m).exists_finished_iff

theorem exists_answers_run {x : Action σ α} {a : α} (h : engine.total.run x m = .finished a m')
    (least : Nat) : ∃ fuel, least ≤ fuel ∧ (engine.answers fuel).run x m = .finished a m' :=
  (engine.action_approaches x m).exists_ge h nofun least

theorem exists_answers_invoke {invocation : Invocation} {r : Except Fault Value}
    (h : engine.total.invoke invocation m = .finished r m') (least : Nat) :
    ∃ fuel, least ≤ fuel ∧ (engine.answers fuel).invoke invocation m = .finished r m' :=
  (engine.invoke_approaches invocation m).exists_ge h nofun least

theorem exists_answers_loop {l : Loop} {r : Except Fault Completion}
    (h : engine.total.loop l m = .finished r m') (least : Nat) :
    ∃ fuel, least ≤ fuel ∧ (engine.answers fuel).loop l m = .finished r m' :=
  (engine.loop_approaches l m).exists_ge h nofun least

theorem total_invoke (m : Machine σ) :
    engine.total.invoke invocation m = engine.total.eval (invocation.eval engine) m := by
  refine (engine.invoke_approaches invocation m).succ.unique ?_
  simp only [answers_succ_invoke]
  exact engine.run_approaches (invocation.eval engine) m

theorem total_loop (m : Machine σ) :
    engine.total.loop l m =
      engine.total.afterRound (engine.total.eval (l.round engine.shortcuts) m) := by
  refine (engine.loop_approaches l m).succ.unique ?_
  simp only [answers_succ_loop]
  refine (engine.run_approaches (l.round engine.shortcuts) m).andThen fun r m' => ?_
  rcases r with fault | step
  · exact .const _ _
  · cases step with
    | done completion => exact .const _ _
    | again next => exact engine.loop_approaches next m'

end Engine

end ScriptEngine
