import ScriptEngine.Proofs.Generator.Resuming
import ScriptEngine.Proofs.References.Machine

/-!
# Evaluations that refer to what there is

An evaluation is discreet if it refers only to what it is given or has found. This can be read off
its tree (`Action.Discreet`).
-/

namespace ScriptEngine

variable {σ α β : Type} {nested : Bool}

def CallStack.Runs (nested : Bool) (s : CallStack) : Prop :=
  if nested then ∃ frame, s.running? = some frame ∧ frame.lexical ≠ ⟨0⟩
  else ∀ frame, s.running? = some frame → frame.generator = none

def Loop.Inner (nested : Bool) : Loop → Prop
  | .forLoop r => nested = true ∨ r.copied ≠ [] ∨ r.environment ≠ r.outer → r.environment ≠ ⟨0⟩
  | _ => True

def Action.Discreet : (nested : Bool) → {α : Type} → Action σ α → (w : Machine σ) →
    (Q : α → Machine σ → Prop) → Prop
  | _, _, .pure a, w, Q => Q a w
  | nested, _, .read view next, w, Q =>
    ∀ m, w.Precedes m → m.stack.Runs nested → Discreet nested (next (view m)) m Q
  | nested, _, .perform effect next, w, Q =>
    ∀ m, w.Precedes m → m.stack.Runs nested → effect.Permitted m ∧
      Discreet nested (next (effect.apply m).1) (effect.apply m).2 Q
  | nested, _, .inScope lexical varScope body next, w, Q =>
    (w.Knows lexical ∧ w.Knows varScope ∧ (nested = true → lexical ≠ ⟨0⟩)) ∧
      Discreet nested body w fun b m => Discreet nested (next b) m Q
  | nested, _, .inFrame frame body next, w, Q =>
    w.Knows frame ∧
      Discreet frame.generator.isSome body w fun b m => Discreet nested (next b) m Q
  | nested, _, .invoke invocation next, w, Q =>
    w.Knows invocation ∧ ∀ r m, w.Precedes m → m.Knows r → Discreet nested (next r) m Q
  | nested, _, .loop l next, w, Q =>
    (w.Knows l ∧ l.Inner nested) ∧
      ∀ r m, w.Precedes m → m.Knows r → Discreet nested (next r) m Q

namespace Action

variable {w : Machine σ}

theorem Discreet.mono {x : Action σ α} {Q Q' : α → Machine σ → Prop} (h : x.Discreet nested w Q)
    (weaker : ∀ a m, Q a m → Q' a m) : x.Discreet nested w Q' := by
  induction x generalizing w nested with
  | pure a => exact weaker a w h
  | read view next ih => exact fun m ahead runs => ih _ (h m ahead runs) weaker
  | perform effect next ih =>
    exact fun m ahead runs => ⟨(h m ahead runs).1, ih _ (h m ahead runs).2 weaker⟩
  | inScope lexical varScope body next ihBody ih | inFrame frame body next ihBody ih =>
    exact ⟨h.1, ihBody h.2 fun b m rest => ih b rest weaker⟩
  | invoke invocation next ih | loop l next ih =>
    exact ⟨h.1, fun r m ahead known => ih r (h.2 r m ahead known) weaker⟩

theorem discreet_bind {x : Action σ α} {f : α → Action σ β} {Q : β → Machine σ → Prop}
    (h : x.Discreet nested w fun a m => (f a).Discreet nested m Q) :
    (x.bind f).Discreet nested w Q := by
  induction x generalizing w nested with
  | pure a => exact h
  | read view next ih => exact fun m ahead runs => ih _ (h m ahead runs)
  | perform effect next ih =>
    exact fun m ahead runs => ⟨(h m ahead runs).1, ih _ (h m ahead runs).2⟩
  | inScope lexical varScope body next _ ih | inFrame frame body next _ ih =>
    exact ⟨h.1, Discreet.mono h.2 fun b m rest => ih b rest⟩
  | invoke invocation next ih | loop l next ih =>
    exact ⟨h.1, fun r m ahead known => ih r (h.2 r m ahead known)⟩

end Action

namespace Machine

variable {m : Machine σ}

theorem Closed.lexical_inner (closed : m.Closed) (runs : m.stack.Runs true) :
    m.Has (.inner m.lexical) := by
  obtain ⟨frame, running, inner⟩ := runs
  refine ⟨linked_environmentId.1 closed.lexical, ?_⟩
  simpa only [Machine.lexical, running] using inner

theorem runningGenerator?_of_runs (runs : m.stack.Runs false) : m.runningGenerator? = none := by
  unfold runningGenerator?
  cases running : m.stack.running? with
  | none => rfl
  | some frame => exact runs frame running

theorem Closed.runs_of_driven (closed : m.Closed) (driven : m.runningGenerator? ≠ none) :
    m.stack.Runs true := by
  have inner := closed.lexical_ne driven
  unfold Machine.lexical at inner
  cases running : m.stack.running? with
  | none => simp [runningGenerator?, running] at driven
  | some frame =>
    rw [running] at inner
    exact ⟨frame, running, inner⟩

theorem Closed.runs (closed : m.Closed) : ∃ nested, m.stack.Runs nested := by
  by_cases driven : m.runningGenerator? = none
  · refine ⟨false, fun frame running => ?_⟩
    simpa [runningGenerator?, running] using driven
  · exact ⟨true, closed.runs_of_driven driven⟩

theorem runs_setScope {lexical varScope : EnvironmentId} (runs : m.stack.Runs nested)
    (inner : nested = true → lexical ≠ ⟨0⟩) : (m.setScope lexical varScope).stack.Runs nested := by
  simp only [setScope, CallStack.setScope]
  cases nested with
  | true =>
    obtain ⟨frame, running, -⟩ := runs
    split
    · rename_i empty
      simp [CallStack.running?, empty] at running
    · exact ⟨_, rfl, inner rfl⟩
  | false =>
    split
    · exact runs
    · rename_i frame rest frames
      rintro _ ⟨⟩
      exact runs frame (by simp [CallStack.running?, frames])

theorem Closed.runs_push {frame : Frame} (known : m.Knows frame) :
    (m.push frame).stack.Runs frame.generator.isSome := by
  have known := (linked_frame.1 known).1
  cases linked : frame.generator with
  | none =>
    rintro _ ⟨⟩
    exact linked
  | some g =>
    rw [linked] at known
    exact ⟨frame, rfl, known.2⟩

theorem driven_inner {lexical : EnvironmentId} (runs : m.stack.Runs nested)
    (inner : nested = true → lexical ≠ ⟨0⟩) (driven : m.runningGenerator? ≠ none) :
    lexical ≠ ⟨0⟩ := by
  cases nested with
  | true => exact inner rfl
  | false => exact absurd (runningGenerator?_of_runs runs) driven

end Machine

def Moment.Closed : Moment σ → Prop
  | .look m => m.Closed
  | .change before after => before.Closed ∧ before.Precedes after
  | .round l m => m.Closed ∧ m.Knows l

structure Promises.Discreet (P : Promises σ) : Prop where
  invoke : ∀ {invocation m}, m.Closed → m.Knows invocation →
    P.invoke invocation m fun r m' => m.Precedes m' ∧ m'.Knows r
  loop : ∀ {nested l m}, m.Closed → m.stack.Runs nested → m.Knows l → l.Inner nested →
    P.loop l m fun r m' => m.Precedes m' ∧ m'.Knows r

def Action.Settled (m : Machine σ) (Q : α → Machine σ → Prop) (a : α) (m' : Machine σ) : Prop :=
  m.Precedes m' ∧ ∃ w, w.Precedes m' ∧ Q a w

theorem Action.Discreet.safe {P : Promises σ} {A : Answers σ} (faithful : P.Faithful A)
    (steady : A.Keep fun m m' => m'.stack = m.stack) (promised : P.Discreet) {x : Action σ α}
    {w m : Machine σ} {Q : α → Machine σ → Prop} (h : x.Discreet nested w Q)
    (ahead : w.Precedes m) (runs : m.stack.Runs nested) :
    x.Safe Moment.Closed P m (Action.Settled m Q) := by
  have : P.Lawful := ⟨A, faithful⟩
  -- The end of the rest comes after the start of the whole.
  have onward {m m₁ : Machine σ} {β : Type} {x : Action σ β} {Q : β → Machine σ → Prop}
      (start : m.Precedes m₁) (rest : x.Safe Moment.Closed P m₁ (Action.Settled m₁ Q)) :
      x.Safe Moment.Closed P m₁ (Action.Settled m Q) :=
    rest.mono fun a m' after => ⟨start.trans after.1, after.2⟩
  induction x generalizing w m nested with
  | pure a => exact ⟨ahead.closed.refl, w, ahead, h⟩
  | read view next ih => exact ⟨ahead.closed, ih _ (h m ahead runs) ahead.closed.refl runs⟩
  | perform effect next ih =>
    obtain ⟨allowed, rest⟩ := h m ahead runs
    have after := effect.precedes ahead.closed allowed
    have runs : (effect.apply m).2.stack.Runs nested := (effect.apply_stack m).symm ▸ runs
    exact ⟨⟨ahead.closed, after⟩, onward after (ih _ rest after.closed.refl runs)⟩
  | inScope lexical varScope body next ihBody ih =>
    obtain ⟨⟨known, known', inner⟩, body'⟩ := h
    have entered := ahead.closed.setScope (ahead.knows known)
      (linked_getD (ahead.knows known') ahead.closed.varScope) (Machine.driven_inner runs inner)
    refine ((ihBody body' (ahead.trans entered) (Machine.runs_setScope runs inner)).and faithful
      fun b m' run => stack_kept.action steady run).mono fun b m' after => ?_
    obtain ⟨⟨after, w', ahead', rest⟩, stack⟩ := after
    have after := entered.trans after
    have restored : (m'.setScope m.lexical m.varScope).stack = m.stack := by
      change m'.stack.setScope m.lexical m.varScope = m.stack
      rw [stack]
      exact m.setScope_restores _ _
    have left : m'.Precedes (m'.setScope m.lexical m.varScope) := by
      refine after.closed.setScope (after.knows ahead.closed.lexical)
        (after.knows ahead.closed.varScope) fun driven => ahead.closed.lexical_ne ?_
      rwa [Machine.runningGenerator?_eq, Machine.links, stack, ← Machine.links,
        Machine.links_setScope, ← Machine.runningGenerator?_eq] at driven
    exact onward (after.trans left) (ih b rest (ahead'.trans left) (restored.symm ▸ runs))
  | inFrame frame body next ihBody ih =>
    obtain ⟨known, body'⟩ := h
    have known := ahead.knows known
    have entered := ahead.closed.push known
    refine ((ihBody body' (ahead.trans entered) (Machine.Closed.runs_push known)).and faithful
      fun b m' run => stack_kept.action steady run).mono fun b m' after => ?_
    obtain ⟨⟨after, w', ahead', rest⟩, stack⟩ := after
    have restored : m'.pop.stack = m.stack := by
      change m'.stack.pop = m.stack
      rw [stack]
      exact CallStack.pop_push m.stack frame
    exact onward ((entered.trans after).trans after.closed.pop)
      (ih b rest (ahead'.trans after.closed.pop) (restored.symm ▸ runs))
  | invoke invocation next ih =>
    have answer := faithful.invoke.1 (promised.invoke ahead.closed (ahead.knows h.1))
    refine ⟨ahead.closed, faithful.invoke.2 ⟨answer.1, fun r m' run => ?_⟩⟩
    obtain ⟨after, known⟩ := answer.2 r m' run
    have runs : m'.stack.Runs nested := (steady.invoke run).symm ▸ runs
    exact onward after (ih r (h.2 r m' (ahead.trans after) known) after.closed.refl runs)
  | loop l next ih =>
    have answer := faithful.loop.1 (promised.loop ahead.closed runs (ahead.knows h.1.1) h.1.2)
    refine faithful.loop.2 ⟨answer.1, fun r m' run => ?_⟩
    obtain ⟨after, known⟩ := answer.2 r m' run
    have runs : m'.stack.Runs nested := (steady.loop run).symm ▸ runs
    exact onward after (ih r (h.2 r m' (ahead.trans after) known) after.closed.refl runs)

/-! ## Evaluations -/

namespace Eval

variable {w : Machine σ} {Q R : Machine σ → α → Prop} {S : Machine σ → β → Prop}
  {e scope : EnvironmentId} {x : Eval σ α} {r : Except Fault α} {g : GeneratorId} {m : Machine σ}
  {name : String} {v : Value}

def Found (Q : Machine σ → α → Prop) : Except Fault α → Machine σ → Prop
  | .ok a, m => Q m a
  | .error fault, m => m.Knows fault

def Finds (nested : Bool) (w : Machine σ) (Q : Machine σ → α → Prop) (x : Eval σ α) : Prop :=
  ∀ m, w.Precedes m → x.run.Discreet nested m fun r m' => m.Precedes m' ∧ Found Q r m'

def Discreet [Refers α] (nested : Bool) (w : Machine σ) (x : Eval σ α) : Prop :=
  Finds nested w (fun m a => m.Knows a) x

theorem found_knows [Refers α] : Found (fun m a => m.Knows a) r m ↔ m.Knows r := by
  cases r <;> rfl

theorem Found.mono (h : Found Q r m) (weaker : ∀ a, Q m a → R m a) : Found R r m := by
  cases r with
  | ok a => exact weaker a h
  | error fault => exact h

theorem Finds.mono (h : Finds nested w Q x) (weaker : ∀ m a, w.Precedes m → Q m a → R m a) :
    Finds nested w R x :=
  fun m ahead => (h m ahead).mono fun _ m' after =>
    ⟨after.1, after.2.mono fun a => weaker m' a (ahead.trans after.1)⟩

theorem Discreet.safe [Refers α] {P : Promises σ} {A : Answers σ} (faithful : P.Faithful A)
    (steady : A.Keep fun m m' => m'.stack = m.stack) (promised : P.Discreet)
    (h : Discreet nested m x) (closed : m.Closed) (runs : m.stack.Runs nested) :
    x.Safe Moment.Closed P m fun r m' => m.Precedes m' ∧ m'.Knows r := by
  have : P.Lawful := ⟨A, faithful⟩
  refine Safe.mono (Action.Discreet.safe faithful steady promised (h m closed.refl)
    closed.refl runs) fun r m' ends => ?_
  obtain ⟨after, w, ahead, -, found⟩ := ends
  exact ⟨after, ahead.knows (found_knows.1 found)⟩

theorem finds_pure {a : α} (h : ∀ m, w.Precedes m → Q m a) :
    Finds nested w Q (pure a) :=
  fun m ahead => ⟨ahead.closed.refl, h m ahead⟩

theorem finds_throw {fault : Fault} (known : w.Knows fault) :
    Finds nested w Q (throw fault) :=
  fun _ ahead => ⟨ahead.closed.refl, ahead.knows known⟩

theorem finds_bind {f : α → Eval σ β} (hx : Finds nested w Q x)
    (hf : ∀ a m, w.Precedes m → Q m a → Finds nested m S (f a)) : Finds nested w S (x >>= f) := by
  refine fun m ahead => Action.discreet_bind ((hx m ahead).mono fun r m' after => ?_)
  obtain ⟨after, found⟩ := after
  cases r with
  | ok a =>
    exact (hf a m' (ahead.trans after) found m' after.closed.refl).mono fun r m'' rest =>
      ⟨after.trans rest.1, rest.2⟩
  | error fault => exact ⟨after, found⟩

theorem finds_look {γ : Type} {view : Machine σ → γ} {f : γ → Eval σ β}
    (h : ∀ m, w.Precedes m → m.stack.Runs nested → Finds nested m S (f (view m))) :
    Finds nested w S (ask view >>= f) := by
  intro m ahead m' ahead' runs
  exact (h m' (ahead.trans ahead') runs m' ahead'.closed.refl).mono fun _ _ rest =>
    ⟨ahead'.trans rest.1, rest.2⟩

theorem finds_ask {view : Machine σ → α}
    (h : ∀ m, w.Precedes m → m.stack.Runs nested → Q m (view m)) : Finds nested w Q (ask view) :=
  fun _ ahead m' ahead' runs => ⟨ahead', h m' (ahead.trans ahead') runs⟩

theorem finds_perform {effect : Effect σ α}
    (allowed : ∀ m, w.Precedes m → m.stack.Runs nested → effect.Permitted m)
    (answer : ∀ m, w.Precedes m → m.stack.Runs nested → m.Precedes (effect.apply m).2 →
      Q (effect.apply m).2 (effect.apply m).1) : Finds nested w Q (perform effect) := by
  intro m ahead m' ahead' runs
  have allowed := allowed m' (ahead.trans ahead') runs
  have after := effect.precedes ahead'.closed allowed
  exact ⟨allowed, ahead'.trans after, answer m' (ahead.trans ahead') runs after⟩

theorem finds_within (known : w.Knows scope) (inner : nested = true → scope ≠ ⟨0⟩)
    (h : Finds nested w Q x) : Finds nested w Q (within scope x) :=
  fun m ahead => ⟨⟨ahead.knows known, linked_none, inner⟩, h m ahead⟩

/-! ## Discreet evaluations -/

variable [Refers α] [Refers β] {deletable : Bool} {frame : Frame} {o : ObjectId} {key : String}

theorem discreet_ofExcept (known : w.Knows r) : Discreet nested w (ofExcept r : Eval σ α) :=
  fun _ ahead => ⟨ahead.closed.refl, found_knows.2 (ahead.knows known)⟩

@[grind ←]
theorem discreet_pure {a : α} (known : w.Knows a) : Discreet nested w (pure a) :=
  discreet_ofExcept known

@[grind ←]
theorem discreet_throw {fault : Fault} (known : w.Knows fault) :
    Discreet nested w (throw fault : Eval σ α) :=
  discreet_ofExcept known

@[grind .]
theorem discreet_typeError (issue : TypeIssue) :
    Discreet nested w (typeError issue : Eval σ α) :=
  discreet_throw (linked_typeError _ _)

@[grind ←]
theorem discreet_bind {f : α → Eval σ β} (hx : Discreet nested w x)
    (hf : ∀ a m, w.Precedes m → m.Knows a → Discreet nested m (f a)) :
    Discreet nested w (x >>= f) :=
  finds_bind hx hf

@[grind ←]
theorem discreet_outcome (h : Discreet nested w x) : Discreet nested w (outcome x) :=
  fun m ahead => Action.discreet_bind ((h m ahead).mono fun _ _ after =>
    ⟨after.1, found_knows.1 after.2⟩)

@[grind ←]
theorem discreet_ask {view : Machine σ → α} (h : ∀ m, w.Precedes m → m.Knows (view m)) :
    Discreet nested w (ask view) :=
  finds_ask fun m ahead _ => h m ahead

@[grind ←]
theorem discreet_askFor {view : Machine σ → Except Fault α}
    (h : ∀ m, w.Precedes m → m.Knows (view m)) : Discreet nested w (askFor view) :=
  fun _ ahead m' ahead' _ => ⟨ahead', found_knows.2 (h m' (ahead.trans ahead'))⟩

theorem discreet_look {γ : Type} {view : Machine σ → γ} {f : γ → Eval σ β}
    (h : ∀ m, w.Precedes m → Discreet nested m (f (view m))) :
    Discreet nested w (ask view >>= f) :=
  finds_look fun m ahead _ => h m ahead

theorem discreet_perform {effect : Effect σ α} (allowed : ∀ m, w.Precedes m → effect.Permitted m)
    (answer : ∀ m, w.Precedes m → m.Precedes (effect.apply m).2 →
      (effect.apply m).2.Knows (effect.apply m).1) : Discreet nested w (perform effect) :=
  finds_perform (fun m ahead _ => allowed m ahead) fun m ahead _ => answer m ahead

theorem discreet_attempt {effect : Effect σ (Except Fault α)}
    (allowed : ∀ m, w.Precedes m → effect.Permitted m)
    (answer : ∀ m, w.Precedes m → m.Knows (effect.apply m).1) :
    Discreet nested w (attempt effect) := by
  intro m ahead m' ahead' _
  have allowed := allowed m' (ahead.trans ahead')
  have after := effect.precedes ahead'.closed allowed
  exact ⟨allowed, ahead'.trans after, found_knows.2 (after.knows (answer m' (ahead.trans ahead')))⟩

@[grind ←]
theorem discreet_within (known : w.Has (.inner scope)) (h : Discreet nested w x) :
    Discreet nested w (within scope x) :=
  finds_within (linked_environmentId.2 known.1) (fun _ => known.2) h

@[grind ←]
theorem discreet_withinBody (known : w.Has (.inner scope)) (h : Discreet nested w x) :
    Discreet nested w (withinBody scope x) :=
  have known' : w.Knows scope := linked_environmentId.2 known.1
  fun m ahead => ⟨⟨ahead.knows known', ahead.knows (a := some scope) known', fun _ => known.2⟩,
    h m ahead⟩

@[grind ←]
theorem discreet_inFrame (known : w.Knows frame) (h : Discreet frame.generator.isSome w x) :
    Discreet nested w (inFrame frame x) :=
  fun m ahead => ⟨ahead.knows known, h m ahead⟩

@[grind ←]
theorem discreet_call {callee this : Value} {arguments : List Value} (known : w.Knows callee)
    (known' : w.Knows this) (known'' : w.Knows arguments) :
    Discreet nested w (call callee this arguments) :=
  fun _ ahead => ⟨ahead.knows (linked_call.2 ⟨known, known', known''⟩),
    fun _ _ ahead' known => ⟨ahead', found_knows.2 known⟩⟩

@[grind ←]
theorem discreet_construct {callee : Value} {arguments : List Value} {newTarget : Option Value}
    (known : w.Knows callee) (known' : w.Knows arguments) (known'' : w.Knows newTarget) :
    Discreet nested w (construct callee arguments newTarget) :=
  fun _ ahead => ⟨ahead.knows (linked_construct.2 ⟨known, known', known''⟩),
    fun _ _ ahead' known => ⟨ahead', found_knows.2 known⟩⟩

@[grind ←]
theorem discreet_loop {l : Loop} (known : w.Knows l) (inner : l.Inner nested) :
    Discreet nested w (loop l) :=
  fun _ ahead => ⟨⟨ahead.knows known, inner⟩, fun _ _ ahead' known =>
    ⟨ahead', found_knows.2 known⟩⟩

/-! ## Effects -/

@[grind ←]
theorem discreet_allocate {object : Object} (known : w.Knows object)
    (unbound : ∀ f, object.kind ≠ .function (.bound f)) :
    Discreet nested w (perform (.allocate object)) :=
  discreet_perform (fun _ ahead => ⟨ahead.knows known, fun f kind => absurd kind (unbound f)⟩)
    fun m _ _ => linked_objectId.2 (show m.heap.objects.size < (m.heap.allocate object).2.objects.size
      by simp [Heap.allocate])

@[grind ←]
theorem discreet_define {p : Property} (known : w.Knows o) (known' : w.Knows p) :
    Discreet nested w (perform (.define o key p)) :=
  discreet_perform (fun _ ahead => ⟨ahead.knows (linked_prod.2 ⟨known, known'⟩), trivial⟩)
    fun _ _ _ => linked_unit _

@[grind ←]
theorem discreet_write (known : w.Knows o) (known' : w.Knows v) :
    Discreet nested w (perform (.write o key v)) :=
  discreet_perform (fun _ ahead => ⟨ahead.knows (linked_prod.2 ⟨known, known'⟩), trivial⟩)
    fun _ _ _ => linked_bool _

@[grind ←]
theorem discreet_remove (known : w.Knows o) : Discreet nested w (perform (.remove o key)) :=
  discreet_perform (fun _ ahead => ⟨ahead.knows known, trivial⟩) fun _ _ _ => linked_bool _

theorem finds_enclose {env : Environment} (known : w.Knows env)
    (within : env.outer.isSome = true) (inner : env.globalRecord? = none) :
    Finds nested w (fun m e => m.Has (.inner e)) (perform (.enclose env)) := by
  refine finds_perform (fun _ ahead _ => ⟨ahead.knows known, within, inner⟩) fun m ahead _ _ => ?_
  refine ⟨(m.store.has_enclose env _).2 (.inr rfl), fun outermost => ?_⟩
  have positive : 0 < m.store.environments.size := ahead.closed.store.has_global
  exact Nat.ne_of_gt positive (congrArg EnvironmentId.index outermost)

@[grind ←]
theorem discreet_block {outer : EnvironmentId} (known : w.Knows outer) {f : EnvironmentId → Eval σ α}
    (h : ∀ e m, w.Precedes m → m.Has (.inner e) → Discreet nested m (f e)) :
    Discreet nested w (perform (.enclose (.block outer)) >>= f) :=
  finds_bind (finds_enclose (linked_environment.2 ⟨known, nofun⟩) rfl rfl) h

section

variable (known : w.Knows e)

include known

@[grind ←]
theorem discreet_deleteBinding : Discreet nested w (perform (.deleteBinding e name)) :=
  discreet_perform (fun _ ahead => ⟨ahead.knows known, trivial⟩) fun _ _ _ => linked_bool _

@[grind ←]
theorem discreet_createMutable : Discreet nested w (attempt (.createMutable e name deletable)) :=
  discreet_attempt (fun _ ahead => ⟨ahead.knows known, trivial⟩) fun _ ahead =>
    Store.linked_commit (ahead.closed.store.createMutable _ _ _)

@[grind ←]
theorem discreet_createImmutable {strict : Bool} :
    Discreet nested w (attempt (.createImmutable e name strict)) :=
  discreet_attempt (fun _ ahead => ⟨ahead.knows known, trivial⟩) fun _ ahead =>
    Store.linked_commit (ahead.closed.store.createImmutable _ _ _)

@[grind ←]
theorem discreet_initBinding (known' : w.Knows v) :
    Discreet nested w (attempt (.initBinding e name v)) :=
  discreet_attempt (fun _ ahead => ⟨ahead.knows (linked_prod.2 ⟨known, known'⟩), trivial⟩)
    fun _ ahead => Store.linked_commit (ahead.closed.store.initBinding (ahead.knows known'))

@[grind ←]
theorem discreet_assign {strict : Bool} (known' : w.Knows v) :
    Discreet nested w (attempt (.assign e name v strict)) :=
  discreet_attempt (fun _ ahead => ⟨ahead.knows (linked_prod.2 ⟨known, known'⟩), trivial⟩)
    fun _ ahead => Store.linked_commit (ahead.closed.store.assign (ahead.knows known'))

@[grind ←]
theorem discreet_bindThis (known' : w.Knows v) : Discreet nested w (attempt (.bindThis e v)) :=
  discreet_attempt (fun _ ahead => ⟨ahead.knows (linked_prod.2 ⟨known, known'⟩), trivial⟩)
    fun _ ahead => Store.linked_commit (ahead.closed.store.bindThis (ahead.knows known'))

@[grind ←]
theorem discreet_declareVar : Discreet nested w (attempt (.declareVar e name deletable)) :=
  discreet_attempt (fun _ ahead => ⟨ahead.knows known, trivial⟩) fun _ ahead =>
    Store.linked_commit (ahead.closed.store.declareVar _ _ _)

@[grind ←]
theorem discreet_declareFunction (known' : w.Knows v) :
    Discreet nested w (attempt (.declareFunction e name v deletable)) :=
  discreet_attempt (fun _ ahead => ⟨ahead.knows (linked_prod.2 ⟨known, known'⟩), trivial⟩)
    fun _ ahead => Store.linked_commit (ahead.closed.store.declareFunction (ahead.knows known'))

end

@[grind .]
theorem discreet_checkLimits : Discreet nested w (attempt .checkLimits) := by
  refine discreet_attempt (fun _ _ => ⟨nofun, trivial⟩) fun m _ => ?_
  change m.Knows (Limit.checkAll m.cancelled m.limits).1
  cases result : (Limit.checkAll m.cancelled m.limits).1 with
  | ok u => exact linked_unit u
  | error fault =>
    obtain ⟨issue, rfl⟩ := Limit.checkAll_limitExceeded result
    exact nofun

theorem discreet_createGenerator {function : ObjectId} {closure : Closure}
    (known : w.Knows function) (known' : w.Knows closure) (inner : w.Has (.inner frame.lexical))
    (known'' : w.Knows frame.varScope) :
    Discreet nested w (perform (.createGenerator function closure frame)) := by
  refine discreet_perform (fun _ ahead => ⟨?_, trivial⟩) fun m _ _ => ?_
  · refine Linked.mono (V := w.Has) (List.forall_mem_append.2 ⟨?_, known'⟩) ahead.has
    simp_all
  · simp [Machine.Has, Effect.apply]

@[grind ←]
theorem discreet_startRun {resumption : Option Resumption} (known : w.Knows g)
    (known' : w.Knows resumption) :
    Discreet nested w (attempt (.startRun g resumption)) := by
  refine discreet_attempt (fun _ ahead => ⟨ahead.knows (linked_prod.2 ⟨known, known'⟩), trivial⟩)
    fun m ahead => ?_
  simp only [Effect.apply]
  split
  · exact List.forall_mem_nil _
  · rename_i generator found
    have good := linked_generator.1 (ahead.closed.generators g generator found)
    split
    · exact List.forall_mem_nil _
    · rename_i frame parked
      split
      · exact List.forall_mem_nil _
      · rw [parked] at good
        exact linked_prod.2 ⟨good.1, good.2.2.1⟩

@[grind ←]
theorem discreet_suspend (known : w.Knows g) (known' : w.Knows frame) :
    Discreet nested w (perform (.suspend g frame)) :=
  discreet_perform (fun _ ahead => ⟨ahead.knows (linked_prod.2 ⟨known, known'⟩), trivial⟩)
    fun _ _ _ => linked_unit _

@[grind ←]
theorem discreet_complete (known : w.Knows g) :
    Discreet nested w (perform (.complete g)) :=
  discreet_perform (fun _ ahead => ⟨ahead.knows known, trivial⟩) fun _ _ _ => linked_unit _

@[grind .]
theorem discreet_takeResumePoint :
    Discreet nested w (perform .takeResumePoint) := by
  refine discreet_perform (fun _ _ => ⟨nofun, trivial⟩) fun m ahead after => after.knows ?_
  simp only [Effect.apply]
  split
  · exact linked_none
  · rename_i g _
    cases found : m.generator? g with
    | none => exact linked_none
    | some generator =>
      have good := (linked_generator.1 (ahead.closed.generators g generator found)).2.2.2.1
      cases points : generator.resumePoints with
      | nil => simp [points]
      | cons point rest =>
        rw [points] at good
        simpa [points] using (linked_cons.1 good).1

@[grind ←]
theorem discreet_pushResumePoint {point : ResumePoint} (known : w.Knows point) :
    Discreet nested w (perform (.pushResumePoint point)) :=
  discreet_perform (fun _ ahead => ⟨ahead.knows known, trivial⟩) fun _ _ _ => linked_unit _

@[grind .]
theorem discreet_takeResumption :
    Discreet nested w (perform .takeResumption) := by
  refine discreet_perform (fun _ _ => ⟨nofun, trivial⟩) fun m ahead after => after.knows ?_
  simp only [Effect.apply]
  split
  · exact linked_none
  · rename_i g _
    cases found : m.generator? g with
    | none => exact linked_none
    | some generator =>
      exact (linked_generator.1 (ahead.closed.generators g generator found)).2.2.2.2

end Eval

end ScriptEngine
