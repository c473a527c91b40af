import ScriptEngine.Proofs.Exceptions
import ScriptEngine.Proofs.FunctionEntry

/-!
# The scopes of iterations

Each iteration of a `for` statement with a `let` head has a scope of its own, made after the body of
the last one with the values that the names have then (`Eval.copies`).
-/

namespace ScriptEngine

open Eval

variable {σ : Type}

structure Store.Hosts (s : Store) (e : EnvironmentId) (names : List String) : Prop where
  isLocal : s.IsLocal e
  distinct : names.Nodup
  ready : ∀ name ∈ names, s.Parameter e names name

namespace Store.Hosts

variable {s s' : Store} {e : EnvironmentId} {names : List String}

theorem grows (h : s.Hosts e names) (grows : s.Grows s') : s'.Hosts e names :=
  ⟨h.isLocal.grows grows, h.distinct, fun name member => (h.ready name member).grows grows⟩

theorem held (h : s.Hosts e names) {name : String} (member : name ∈ names) :
    ∃ v, s.Held e name v := by
  obtain ⟨b, bound, -, -, initialized⟩ := h.ready name member
  exact ⟨b.value, b, bound, initialized member, rfl⟩

end Store.Hosts

theorem Store.opens (s : Store) (outer : Option EnvironmentId) :
    (s.enclose (.block outer)).2.IsLocal ⟨s.environments.size⟩ ∧
      (∀ name, (s.enclose (.block outer)).2.bindings ⟨s.environments.size⟩ name = none) ∧
      ∀ e, s.Has e → (s.enclose (.block outer)).2.environment e = s.environment e := by
  have block : (s.enclose (.block outer)).2.IsBlock ⟨s.environments.size⟩ .empty :=
    IsBlock.enclose s outer
  refine ⟨⟨block.has, by rw [block.record]; trivial⟩, fun name => ?_, fun e has => ?_⟩
  · rw [bindings, binding?, block.record]
    rfl
  · rw [environment_enclose, if_neg (Nat.ne_of_lt has)]

theorem Store.Held.unique {s : Store} {e : EnvironmentId} {name : String} {v w : Value}
    (h : s.Held e name v) (h' : s.Held e name w) : v = w := by
  obtain ⟨b, bound, -, rfl⟩ := h
  obtain ⟨b', bound', -, rfl⟩ := h'
  cases bound.symm.trans bound'
  rfl

namespace Eval

variable {A : Answers σ} {m : Machine σ} {e last : EnvironmentId} {names : List String}

theorem fills_copyInto (here : m.store.IsLocal e) (there : m.store.IsLocal last) (apart : last ≠ e)
    (value : String → Value) (held : ∀ name ∈ names, m.store.Held last name (value name))
    (distinct : names.Nodup) (absent : ∀ name ∈ names, m.store.bindings e name = none) :
    Fills A e m (copyBindings.copyInto last e names)
      (withMissing (m.store.bindings e) names fun name => .variable (value name)) := by
  induction names generalizing m with
  | nil => exact (withMissing_nil _ _).symm ▸ .pure
  | cons name rest ih =>
    obtain ⟨new, distinct⟩ := List.nodup_cons.1 distinct
    have first : m.store.bindings e name = none := absent name List.mem_cons_self
    rw [withMissing_cons, withMissing_single, first, if_neg (by simp)]
    unfold Fills
    rw [copyBindings.copyInto, eval_bind, eval_askFor,
      there.getBinding true (held name List.mem_cons_self), proceed_ok]
    refine fills_variable here first _ fun m₁ fills bound => ?_
    have next := ih (fills.isLocal here) (fills.elsewhere apart there)
      (fun x member => fills.held apart (held x (List.mem_cons_of_mem _ member))) distinct
      fun x member => by
        have other : x ≠ name := fun same => new (same ▸ member)
        rw [bound, Function.update_of_ne other]
        exact absent x (List.mem_cons_of_mem _ member)
    rwa [bound] at next

theorem copies (hosts : m.store.Hosts last names) (some : names ≠ []) :
    ∃ m', A.eval (copyBindings last names) m = .finished (.ok ⟨m.store.environments.size⟩) m' ∧
      m'.store.Hosts ⟨m.store.environments.size⟩ names ∧
      (∀ e, m.store.Has e → m'.store.environment e = m.store.environment e) ∧
      ∀ name ∈ names, ∀ v, m.store.Held last name v →
        m'.store.Held ⟨m.store.environments.size⟩ name v := by
  have value (name : String) : ∃ v, name ∈ names → m.store.Held last name v := by
    by_cases member : name ∈ names
    · exact (hosts.held member).imp fun _ held _ => held
    · exact ⟨.undefined, fun h => absurd h member⟩
  choose value held using value
  let outer := (m.store.environment last).outer
  let opened : Machine σ := { m with store := (m.store.enclose (.block outer)).2 }
  obtain ⟨here, absent, same⟩ := m.store.opens outer
  have there : opened.store.IsLocal last := hosts.isLocal.grows (Store.grows_enclose _ _)
  have apart : last ≠ ⟨m.store.environments.size⟩ := by
    rintro rfl
    exact Nat.lt_irrefl _ hosts.isLocal.has
  have kept (name : String) (member : name ∈ names) : opened.store.Held last name (value name) := by
    rw [Store.Held, Store.bindings, Store.binding?, same last hosts.isLocal.has]
    exact held name member
  obtain ⟨m', run, fills, bound⟩ := fills_copyInto (A := A) (m := opened) here there apart value kept hosts.distinct
    fun name _ => absent name
  have found (name : String) (member : name ∈ names) :
      m'.store.bindings ⟨m.store.environments.size⟩ name = .some (.variable (value name)) := by
    rw [bound, withMissing, absent, if_pos member]
    rfl
  refine ⟨m', ?_, ⟨fills.isLocal here, hosts.distinct, fun name member =>
    ⟨_, found name member, rfl, rfl, fun _ => rfl⟩⟩, fun e has => ?_, fun name member v was => ?_⟩
  · have nonempty : names.isEmpty = false := by simpa using some
    rw [copyBindings, nonempty]
    simp only [Bool.false_eq_true, if_false, eval_bind, eval_ask,
      proceed_ok, eval_perform]
    change ((A.eval (copyBindings.copyInto last ⟨m.store.environments.size⟩ names) opened).proceed
      _) = _
    rw [run]
    rfl
  · rw [fills.others e fun eq => Nat.lt_irrefl _ (eq ▸ has : m.store.Has _), same e has]
  · exact ⟨_, found name member, rfl, (held name member).unique was⟩

end Eval

namespace Engine

variable {engine : Engine σ} {fuel : Nat} {m m' : Machine σ} {e : EnvironmentId}

end Engine

/-! ## Iterations -/

/-- One iteration after another. The body of `r` ends in `ended`, where the scope of `r'` is made. The
update starts in `opened` and runs in that scope. -/
structure Engine.Advances (engine : Engine σ) (fuel : Nat) (r : ForRound) (m : Machine σ)
    (ended opened : Machine σ) (r' : ForRound) (m' : Machine σ) : Prop where
  body : ∃ m₁ completion, m.store.Grows m₁.store ∧
    engine.run fuel (r.iteration engine.shortcuts) m₁ = .finished (.ok completion) ended
  copy : engine.run fuel (copyBindings r.environment r.copied) ended =
    .finished (.ok r'.environment) opened
  update : match r.update with
    | none => m' = opened
    | some update => ∃ v, engine.run fuel (within r'.environment (update.eval none)) opened =
        .finished (.ok v) m'
  next : r' = { r with environment := r'.environment, value := r'.value, resuming := false }

inductive Engine.Goes (engine : Engine σ) (r : ForRound) (m : Machine σ) :
    Bool → ForRound → Machine σ → Prop where
  | turn {fuel : Nat} {r' : ForRound} {m' : Machine σ}
      (run : engine.run fuel ((Loop.forLoop r).round engine.shortcuts) m =
        .finished (.ok (.again (.forLoop r'))) m') : Goes engine r m true r' m'
  | resume {fuel fuel' : Nat} {v value : Value} {m₀ m₁ m₂ m' : Machine σ} {g : GeneratorId}
      {generator : Generator} {environment : Option EnvironmentId} {rest : List ResumePoint}
      (tested : m.store.Grows m₀.store)
      (suspended : engine.run fuel (r.iteration engine.shortcuts) m₀ =
        .finished (.error (.suspended v)) m₁)
      (running : m₁.runningGenerator? = some g) (found : m₁.generator? g = some generator)
      (left : generator.resumePoints = .loop value environment :: rest)
      (later : m₁.store.Grows m₂.store) (around : m₂.lexical = r.outer)
      (taken : engine.run fuel' takeLoop m₂ = .finished (.ok (some (value, environment))) m') :
      Goes engine r m false
        { r with value, environment := environment.getD m₂.lexical, resuming := true } m'

inductive Engine.Proceeds (engine : Engine σ) (r : ForRound) (m : Machine σ) :
    Nat → ForRound → Machine σ → Prop where
  | refl : Proceeds engine r m 0 r m
  | step {n : Nat} {next : Bool} {r₁ r₂ : ForRound} {m₁ m₂ : Machine σ}
      (before : Proceeds engine r m n r₁ m₁) (goes : engine.Goes r₁ m₁ next r₂ m₂) :
      Proceeds engine r m (n + next.toNat) r₂ m₂

namespace Engine

variable {engine : Engine σ} {fuel : Nat} {m m' : Machine σ} {r r' : ForRound} {names : List String}

theorem Advances.grows {ended opened : Machine σ} (turns : engine.Advances fuel r m ended opened r' m') :
    m.store.Grows ended.store ∧ opened.store.Grows m'.store := by
  obtain ⟨m₁, c, grows, body⟩ := turns.body
  refine ⟨grows.trans (scopes_kept.run engine body), ?_⟩
  have update := turns.update
  split at update
  · exact update ▸ .refl _
  · obtain ⟨v, update⟩ := update
    exact scopes_kept.run engine update

theorem Proceeds.head {n : Nat} {next : Bool} {r₁ : ForRound} {m₁ : Machine σ}
    (goes : engine.Goes r m next r₁ m₁) (proceeds : engine.Proceeds r₁ m₁ n r' m') :
    engine.Proceeds r m (next.toNat + n) r' m' := by
  induction proceeds with
  | refl => exact Nat.add_comm _ _ ▸ .step .refl goes
  | step _ goes' ih => exact Nat.add_assoc _ _ _ ▸ .step ih goes'

end Engine

end ScriptEngine
