import ScriptEngine.Proofs.Pledges.Machine

/-!
# Honest evaluations

An evaluation is `Honest` if it keeps the machine tidy and honors what its rights do not allow, at
all moments and in the end, and does not suspend.
-/

namespace ScriptEngine

variable {σ α β : Type} {m : Machine σ} {W : Watch}

structure Machine.Spares (W : Watch) (R : Rights) (m : Machine σ) (r : Except Fault α)
    (m' : Machine σ) : Prop where
  tidy : m'.Tidy W
  honors : m.Honors W R m'
  steady : m.Steady m'
  fine : Fine W r

def Invocation.Makes : Invocation → Value → Prop
  | .call .., _ => True
  | .construct .., v => ∃ o, v = .object o

def Promises.Spare (W : Watch) (P : Promises σ) : Prop :=
  ∀ invocation m, m.Tidy W → P.invoke invocation m fun r m' =>
    m.Spares W .none r m' ∧ ∀ v, r = .ok v → W.sound = true → invocation.Makes v

namespace Machine.Spares

variable {R : Rights} {m₁ m' : Machine σ} {r : Except Fault α}

theorem of_tidy (tidy : m.Tidy W) (fine : Fine W r) : m.Spares W R r m :=
  ⟨tidy, .refl m, .of_eq rfl rfl, fine⟩

theorem trans {r₁ : Except Fault β} (h₁ : m.Spares W R r₁ m₁) (h : m₁.Spares W R r m') :
    m.Spares W R r m' :=
  ⟨h.tidy, h₁.honors.trans h.honors, h₁.steady.trans h.steady, h.fine⟩

theorem mono {R' : Rights} (h : m.Spares W R r m') (le : R.Le R') : m.Spares W R' r m' :=
  ⟨h.tidy, h.honors.mono le, h.steady, h.fine⟩

theorem error {fault : Fault} (h : m.Spares W R (.error fault : Except Fault α) m') :
    m.Spares W R (.error fault : Except Fault β) m' :=
  ⟨h.tidy, h.honors, h.steady, h.fine.error⟩

end Machine.Spares

namespace Machine

variable {R : Rights} {m' : Machine σ}

theorem runningGenerator?_setScope (lexical varScope : EnvironmentId) :
    (m.setScope lexical varScope).runningGenerator? = m.runningGenerator? := by
  rw [runningGenerator?_eq, links_setScope, ← runningGenerator?_eq]

theorem Tidy.setScope (h : m.Tidy W) {lexical : EnvironmentId}
    (grounds : W.sound = true → m.Grounds lexical) (varScope : EnvironmentId) :
    (m.setScope lexical varScope).Tidy W where
  orderly := h.orderly.setScope lexical varScope
  settled := h.settled
  objects := h.objects
  heap := h.heap
  bodies := h.bodies
  pledged := h.pledged
  apart := h.apart
  sealed := h.sealed
  intact sound := by
    have intact := h.intact sound
    refine ⟨intact.store, intact.realm, ?_, intact.generators⟩
    rw [(h.orderly.inside.setScope varScope).lexical]
    exact (grounds sound).congr (.refl _) (runningGenerator?_setScope lexical varScope)

theorem Tidy.leaveScope (h : m.Tidy W) (h' : m'.Tidy W) (grows : m.store.Grows m'.store)
    (running : m'.runningGenerator? = m.runningGenerator?) :
    (m'.setScope m.lexical m.varScope).Tidy W :=
  h'.setScope (fun sound => (h.intact sound).lexical.congr grows running) m.varScope

end Machine

theorem Effect.Allowed.spares {R : Rights} {effect : Effect σ β} (h : effect.Allowed W R m)
    (tidy : m.Tidy W) {r : Except Fault α} (fine : Fine W r) : m.Spares W R r (effect.apply m).2 :=
  ⟨h.tidy tidy, h.honors tidy.settled, .of_eq (effect.apply_stack m) h.generators, fine⟩

namespace Eval

def Honest (W : Watch) (P : Promises σ) (R : Rights) (H : Machine σ → Prop)
    (Q : α → Machine σ → Prop) (x : Eval σ α) : Prop :=
  ∀ m, m.Tidy W → H m → x.Safe (Moment.Watched W) P m fun r m' =>
    m.Spares W R r m' ∧ ∀ a, r = .ok a → Q a m'

variable {P : Promises σ} {A : Answers σ} {R R' : Rights} {H H' : Machine σ → Prop}
  {Q Q' : α → Machine σ → Prop} {x : Eval σ α}

theorem honest_ofExcept {r : Except Fault α} (fine : Fine W r)
    (h : ∀ a m, r = .ok a → H m → Q a m) : Honest W P R H Q (ofExcept r) :=
  fun m tidy pre => ⟨.of_tidy tidy fine, fun a ok => h a m ok pre⟩

theorem honest_pure {a : α} (h : ∀ m, H m → Q a m) : Honest W P R H Q (pure a) :=
  honest_ofExcept (fine_ok a) fun _ m ok => by
    cases ok
    exact h m

theorem honest_throw {fault : Fault} (h : fault.Benign) :
    Honest W P R H Q (throw fault) :=
  honest_ofExcept (fine_error h) nofun

theorem honest_ask {view : Machine σ → α} (h : ∀ m, m.Tidy W → H m → Q (view m) m) :
    Honest W P R H Q (ask view) :=
  fun m tidy pre => ⟨tidy, .of_tidy tidy (fine_ok _), fun a ok => by
    cases ok
    exact h m tidy pre⟩

theorem honest_askFor {view : Machine σ → Except Fault α}
    (fine : ∀ m, m.Tidy W → H m → Fine W (view m))
    (h : ∀ m a, m.Tidy W → view m = .ok a → H m → Q a m) : Honest W P R H Q (askFor view) :=
  fun m tidy pre => ⟨tidy, .of_tidy tidy (fine m tidy pre), fun a ok => h m a tidy ok pre⟩

theorem honest_perform {effect : Effect σ α}
    (allowed : ∀ m, m.Tidy W → H m → effect.Allowed W R m)
    (h : ∀ m, m.Tidy W → H m → Q (effect.apply m).1 (effect.apply m).2) :
    Honest W P R H Q (perform effect) :=
  fun m tidy pre => ⟨(allowed m tidy pre).watched tidy,
    (allowed m tidy pre).spares tidy (fine_ok _), fun a ok => by
      cases ok
      exact h m tidy pre⟩

theorem honest_attempt {effect : Effect σ (Except Fault α)}
    (allowed : ∀ m, m.Tidy W → H m → effect.Allowed W R m)
    (fine : ∀ m, m.Tidy W → H m → Fine W (effect.apply m).1)
    (h : ∀ m a, m.Tidy W → H m → (effect.apply m).1 = .ok a → Q a (effect.apply m).2) :
    Honest W P R H Q (attempt effect) :=
  fun m tidy pre => ⟨(allowed m tidy pre).watched tidy,
    (allowed m tidy pre).spares tidy (fine m tidy pre), fun a ok => h m a tidy pre ok⟩

theorem honest_given {c : Prop} (h : c → Honest W P R H Q x) :
    Honest W P R (fun m => H m ∧ c) Q x :=
  fun m tidy known => h known.2 m tidy known.1

theorem honest_invoke (calls : P.Spare W) (invocation : Invocation) :
    Honest W P .none (fun _ => True) (fun v _ => W.sound = true → invocation.Makes v)
      (ExceptT.mk (.invoke invocation .pure)) := by
  intro m tidy _
  exact ⟨tidy, calls invocation m tidy⟩

variable {e : EnvironmentId} {name : String}

theorem honest_createImmutable {strict : Bool} : Honest W P R (fun m => m.store.Takes R e)
    (fun _ m => m.Awaits W (e, name)) (attempt (.createImmutable e name strict)) := by
  refine honest_attempt (fun _ _ takes => takes)
    (fun m tidy takes => fine_commit (m.store.createImmutable_unsuspended e name strict)
      fun sound => m.store.createImmutable_endsWell (tidy.intact sound).store takes.declares name strict)
    fun m _ tidy takes ok => ?_
  obtain ⟨before, after⟩ := Store.binding?_createImmutable takes.has takes.table ok
  refine tidy.awaits rfl (fun ⟨_, found, _⟩ => ?_) ⟨_, after, rfl, fun _ => rfl⟩
  cases before.symm.trans found

theorem honest_init (right : R.init (e, name)) (value : Value) :
    Honest W P R (fun m => m.Awaits W (e, name)) (fun _ _ => True)
      (attempt (.initBinding e name value)) :=
  honest_attempt (fun _ _ awaits => ⟨right, awaits⟩)
    (fun m tidy awaits => fine_commit (m.store.initBinding_unsuspended e name value)
      fun sound => m.store.initBinding_endsWell (tidy.intact sound).store
        (fun _ => Effect.contains_of_reserved awaits.reserved) value)
    fun _ _ _ _ _ => trivial

variable [P.Lawful]

theorem honest_bind {f : α → Eval σ β} {Q' : β → Machine σ → Prop} (hx : Honest W P R H Q x)
    (hf : ∀ a, Honest W P R (Q a) Q' (f a)) : Honest W P R H Q' (x >>= f) := by
  intro m tidy pre
  rw [safe_bind]
  refine (hx m tidy pre).mono fun r m₁ post => ?_
  obtain ⟨spares, known⟩ := post
  cases r with
  | error fault => exact ⟨spares.error, nofun⟩
  | ok a =>
    refine (hf a m₁ spares.tidy (known a rfl)).mono fun r m' post => ?_
    exact ⟨spares.trans post.1, post.2⟩

theorem honest_outcome {Q : Except Fault α → Machine σ → Prop}
    (hx : ∀ m, m.Tidy W → H m → x.Safe (Moment.Watched W) P m fun r m' => m.Spares W R r m' ∧ Q r m') :
    Honest W P R H Q (outcome x) := by
  intro m tidy pre
  rw [safe_outcome]
  refine (hx m tidy pre).mono fun r m' post => ?_
  refine ⟨⟨post.1.tidy, post.1.honors, post.1.steady, fine_ok r⟩, fun a ok => ?_⟩
  cases ok
  exact post.2

section

variable (h : Honest W P R H Q x)

include h

theorem Honest.mono (le : R.Le R') (pre : ∀ m, H' m → H m) (post : ∀ a m, Q a m → Q' a m) :
    Honest W P R' H' Q' x := by
  intro m tidy known
  refine (h m tidy (pre m known)).mono fun r m' ends => ?_
  exact ⟨ends.1.mono le, fun a ok => post a m' (ends.2 a ok)⟩

theorem Honest.under (pre : ∀ m, H' m → H m) : Honest W P R H' Q x :=
  h.mono (.refl R) pre fun _ _ known => known

theorem Honest.widen (le : R.Le R') : Honest W P R' H Q x :=
  h.mono le (fun _ known => known) fun _ _ known => known

theorem Honest.keeping {K : Machine σ → Prop}
    (stable : ∀ m m', K m → m.Honors W R m' → m.Steady m' → K m') :
    Honest W P R (fun m => H m ∧ K m) (fun a m => Q a m ∧ K m) x := by
  intro m tidy known
  refine (h m tidy known.1).mono fun r m' ends => ?_
  exact ⟨ends.1, fun a ok => ⟨ends.2 a ok, stable m m' known.2 ends.1.honors ends.1.steady⟩⟩

end

theorem honest_since
    (h : ∀ first, Honest W P (.since first) (fun m => H m ∧ first ≤ m.store.environments.size) Q x) :
    Honest W P .none H Q x := by
  intro m tidy known
  refine (h m.store.environments.size m tidy ⟨known, Nat.le_refl _⟩).mono
    fun r m' ends => ?_
  obtain ⟨⟨tidy', honors, steady, fine⟩, post⟩ := ends
  refine ⟨⟨tidy', honors.weaken (fun p reserved new => ?_) id, steady, fine⟩, post⟩
  exact absurd reserved.has (Nat.not_lt.2 new)

theorem honest_within {scope : EnvironmentId} (h : Honest W P R H' Q' x)
    (grounds : ∀ m, H m → W.sound = true → m.Grounds scope)
    (pre : ∀ m varScope, H m → H' (m.setScope scope varScope))
    (post : ∀ a m lexical varScope, Q' a m → Q a (m.setScope lexical varScope)) :
    Honest W P R H Q (within scope x) := by
  intro m tidy known
  refine (h _ (tidy.setScope (grounds m known) m.varScope) (pre m m.varScope known)).mono
    fun r m' ends => ?_
  have running := ends.1.steady.runningGenerator?.trans (m.runningGenerator?_setScope scope m.varScope)
  exact ⟨⟨tidy.leaveScope ends.1.tidy ends.1.honors.grows running,
    ends.1.honors.congr rfl rfl rfl rfl, ends.1.steady.leaveScope, ends.1.fine⟩,
    fun a ok => post a m' _ _ (ends.2 a ok)⟩

/-! ## New scopes -/

end Eval

structure Machine.Fresh (W : Watch) (e : EnvironmentId) (m : Machine σ) : Prop where
  takes : m.store.Takes .none e
  absent : ∀ name, m.store.binding? (e, name) = none
  inner : W.sound = true → e ≠ ⟨0⟩

structure Environment.Blank (env : Environment) : Prop where
  table : env.record.table? = some .empty
  notGlobal : env.globalRecord? = none
  proper : env.record.Proper

def Store.Encloses (W : Watch) (s : Store) (env : Environment) : Prop :=
  W.sound = true → ∃ outer, env.outer = some outer ∧ s.Has outer

theorem Environment.blank_block (outer : Option EnvironmentId) :
    (Environment.block outer).Blank := ⟨rfl, rfl, trivial⟩

theorem Environment.Blank.settled {env : Environment} (h : env.Blank) : env.record.Settled := by
  intro b found
  cases h.table.symm.trans found
  exact Bindings.settled_empty

theorem Machine.Tidy.inner_enclose (tidy : m.Tidy W) (env : Environment) (sound : W.sound = true) :
    ((Effect.enclose env).apply m).2.store.Inner ((Effect.enclose env).apply m).1 := by
  refine ⟨(m.store.has_enclose env _).2 (.inr rfl), fun same => ?_⟩
  have positive : 0 < m.store.environments.size := (tidy.intact sound).store.has_global
  have first : m.store.environments.size = 0 := congrArg EnvironmentId.index same
  omega

theorem Machine.Tidy.fresh {env : Environment} (tidy : m.Tidy W) (blank : env.Blank) :
    ((Effect.enclose env).apply m).2.Fresh W ((Effect.enclose env).apply m).1 := by
  have opened : ((Effect.enclose env).apply m).2.store.environment
      ((Effect.enclose env).apply m).1 = env := by
    change (m.store.enclose env).2.environment (m.store.enclose env).1 = env
    rw [Store.environment_enclose]
    exact if_pos rfl
  refine ⟨⟨(m.store.has_enclose env _).2 (.inr rfl), ?_, .inr ?_⟩, fun name => ?_,
    fun sound => (tidy.inner_enclose env sound).inner⟩
  · rw [opened, blank.table]
    rfl
  · rw [opened, blank.notGlobal]
  · rw [Store.binding?, opened, Record.binding?, blank.table]
    rfl

theorem Machine.Fresh.store_inner {e : EnvironmentId} (h : m.Fresh W e) (sound : W.sound = true) :
    m.store.Inner e := ⟨h.takes.has, h.inner sound⟩

namespace Eval

variable {P : Promises σ} {A : Answers σ} {R : Rights}

theorem honest_enclose {env : Environment} (blank : env.Blank) (first : Nat) :
    Honest W P R (fun m => m.store.Encloses W env ∧ first ≤ m.store.environments.size)
      (fun e m => m.Fresh W e ∧ first ≤ e.index) (perform (.enclose env)) :=
  honest_perform (fun _ _ known => ⟨blank.settled, fun sound => ⟨blank.proper, known.1 sound⟩⟩)
    fun _ tidy known => ⟨tidy.fresh blank, known.2⟩

theorem honest_inNewScope [P.Lawful] {env : Environment} (blank : env.Blank)
    {H : Machine σ → Prop} (around : ∀ m, m.Tidy W → H m → m.store.Encloses W env)
    (kept : ∀ m m', H m → m.store.Grows m'.store → m'.stack = m.stack → H m')
    {Q : β → Machine σ → Prop} {f : EnvironmentId → Eval σ β}
    (h : ∀ first e, first ≤ e.index →
      Honest W P (.since first) (fun m => m.Fresh W e ∧ H m) Q (f e)) :
    Honest W P .none H Q (perform (.enclose env) >>= f) := by
  refine honest_since fun first => honest_bind (fun m tidy known =>
    ((honest_enclose blank first).keeping (K := H) fun m m' known honors steady =>
      kept m m' known honors.grows steady.stack) m tidy ⟨⟨around m tidy known.1, known.2⟩, known.1⟩)
    fun e m tidy known => ?_
  exact h first e known.1.2 m tidy ⟨known.1.1, known.2⟩

end Eval

/-! ## Tame evaluations -/

namespace Eval

/-- Whatever calls do, as long as they are honest, the evaluation is honest without any rights, from
wherever the store has grown to. -/
def Tame (W : Watch) (s : Store) (x : Eval σ α) : Prop :=
  ∀ (P : Promises σ) (A : Answers σ), P.Faithful A → P.Spare W →
    Honest W P .none (fun m => s.Grows m.store) (fun _ _ => True) x

variable {P : Promises σ} {A : Answers σ} {R : Rights} {s s' : Store} {x : Eval σ α}

theorem Tame.honest [P.Lawful] (h : Tame W s x) (calls : P.Spare W) :
    Honest W P .none (fun m => s.Grows m.store) (fun _ _ => True) x :=
  let ⟨A, faithful⟩ := ‹P.Lawful›.faithful
  h P A faithful calls

theorem tame_of_honest (h : ∀ {P : Promises σ} [P.Lawful], P.Spare W →
    Honest W P .none (fun m => s.Grows m.store) (fun _ _ => True) x) : Tame W s x :=
  fun P A faithful =>
    have : P.Lawful := ⟨A, faithful⟩
    h

theorem Tame.later (h : Tame W s x) (grows : s.Grows s') : Tame W s' x :=
  tame_of_honest fun calls => (h.honest calls).under (fun _ later => grows.trans later)

theorem Tame.keeping (h : Tame W s x) [P.Lawful] (calls : P.Spare W)
    {K : Machine σ → Prop} (stable : ∀ m m', K m → m.Honors W .none m' → m.Steady m' → K m') :
    Honest W P R (fun m => s.Grows m.store ∧ K m) (fun _ m => s.Grows m.store ∧ K m) x :=
  (Honest.keeping (K := fun m => s.Grows m.store ∧ K m) (h.honest calls)
    fun m m' known honors steady => ⟨known.1.trans honors.grows, stable m m' known.2 honors steady⟩).mono
      R.none_le (fun _ known => ⟨known.1, known⟩) fun _ _ known => known.2

theorem Tame.keepingAll (h : ∀ s, Tame W s x) [P.Lawful] (calls : P.Spare W)
    {K : Machine σ → Prop} (stable : ∀ m m', K m → m.Honors W .none m' → m.Steady m' → K m') :
    Honest W P R K (fun _ => K) x := fun m tidy known =>
  ((h m.store).keeping calls stable m tidy ⟨.refl _, known⟩).mono
    fun _ _ post => ⟨post.1, fun a ok => (post.2 a ok).2⟩

theorem tame_gives {Q : Store → α → Prop} {f : α → Eval σ β}
    (hx : ∀ {P : Promises σ} [P.Lawful], P.Spare W →
      Honest W P .none (fun m => s.Grows m.store) (fun a m => Q m.store a) x)
    (hf : ∀ s' a, s.Grows s' → Q s' a → Tame W s' (f a)) : Tame W s (x >>= f) :=
  tame_of_honest fun calls => honest_bind (((hx calls).keeping
      (K := fun m => s.Grows m.store) fun _ _ known honors _ => known.trans honors.grows).under (fun _ known => ⟨known, known⟩))
    fun a m tidy known => (hf m.store a known.2 known.1).honest calls m tidy (.refl _)

@[grind ←]
theorem tame_ofExcept {r : Except Fault α} (h : Fine W r) : Tame W s (ofExcept r : Eval σ α) :=
  fun _ _ _ _ => honest_ofExcept h fun _ _ _ _ => trivial

@[grind .]
theorem tame_ask (view : Machine σ → α) : Tame W s (ask view) :=
  fun _ _ _ _ => honest_ask fun _ _ _ => trivial

@[grind ←]
theorem tame_askFor {view : Machine σ → Except Fault α} (h : ∀ m, m.Tidy W → Fine W (view m)) :
    Tame W s (askFor view) :=
  fun _ _ _ _ => honest_askFor (fun m tidy _ => h m tidy) fun _ _ _ _ _ => trivial

theorem tame_perform {effect : Effect σ α}
    (h : ∀ m, s.Grows m.store → effect.Allowed W .none m) : Tame W s (perform effect) :=
  fun _ _ _ _ => honest_perform (fun m _ known => h m known) fun _ _ _ => trivial

theorem tame_attempt {effect : Effect σ (Except Fault α)}
    (h : ∀ m, s.Grows m.store → effect.Allowed W .none m)
    (fine : ∀ m, m.Tidy W → s.Grows m.store → Fine W (effect.apply m).1) : Tame W s (attempt effect) :=
  fun _ _ _ _ => honest_attempt (fun m _ known => h m known) fine fun _ _ _ _ _ => trivial

@[grind ←]
theorem tame_bind {f : α → Eval σ β} (hx : Tame W s x) (hf : ∀ a, Tame W s (f a)) :
    Tame W s (x >>= f) :=
  tame_gives (Q := fun _ _ => True) hx.honest fun _ a grows _ => (hf a).later grows

theorem tame_outcome (h : Tame W s x) : Tame W s (outcome x) :=
  tame_of_honest fun calls => honest_outcome fun m tidy known =>
    (h.honest calls m tidy known).mono fun _ _ post => ⟨post.1, trivial⟩

theorem tame_within {scope : EnvironmentId} (inner : W.sound = true → s.Inner scope)
    (h : Tame W s x) : Tame W s (within scope x) :=
  tame_of_honest fun calls => honest_within (h.honest calls)
    (fun _ known sound => Machine.grounds_of_inner (known.inner (inner sound)))
    (fun _ _ known => known) fun _ _ _ _ known => known

@[grind .]
theorem tame_call (callee this : Value) (arguments : List Value) :
    Tame W s (call callee this arguments : Eval σ Value) :=
  tame_of_honest fun calls => (honest_invoke calls _).mono (.refl _)
    (fun _ _ => trivial) fun _ _ _ => trivial

@[grind .]
theorem tame_construct (callee : Value) (arguments : List Value) (newTarget : Option Value) :
    Tame W s (construct callee arguments newTarget : Eval σ Value) :=
  tame_of_honest fun calls => (honest_invoke calls _).mono (.refl _)
    (fun _ _ => trivial) fun _ _ _ => trivial

theorem tame_lexical {f : EnvironmentId → Eval σ β}
    (h : ∀ s' e, s.Grows s' → (W.sound = true → s'.Has e) → Tame W s' (f e)) :
    Tame W s (ask (·.lexical) >>= f) :=
  tame_gives (fun _ => honest_ask fun _ tidy _ sound => (tidy.intact sound).lexical.1) h

theorem Tame.functionExpression {node : FunctionNode}
    (made : ∀ s' environment, (W.sound = true → s'.Has environment) → ∀ hint,
      Tame W s' (createFunction node environment { name := hint } : Eval σ ObjectId))
    (hint : Option String) : Tame W s (functionExpression node hint : Eval σ Value) := by
  refine tame_lexical fun s scope grows has => ?_
  have plain (hint : Option String) : Tame W s (do
      let function ← createFunction node scope { name := hint }
      pure (.object function) : Eval σ Value) :=
    tame_bind (made s scope has hint) fun _ => tame_ofExcept (fine_ok _)
  split
  · rename_i name _
    split
    · exact plain none
    · refine tame_of_honest fun calls => ?_
      refine honest_inNewScope (Environment.blank_block scope)
        (fun _ _ known sound => ⟨scope, rfl, known.has (has sound)⟩)
        (fun _ _ known grows _ => known.trans grows) fun first own new => ?_
      refine honest_bind ((honest_createImmutable.keeping
        (K := fun m => m.store.Has own) fun _ _ known honors _ => honors.grows.has known).mono
          (.refl _) (fun _ fresh => ⟨fresh.1.takes.mono False.elim, fresh.1.takes.has⟩)
          fun _ _ awaits => awaits) fun _ => ?_
      refine honest_bind (fun m tidy known => ?_) fun function =>
        honest_bind (honest_init new _) fun _ => honest_pure fun _ known => known
      exact ((made m.store own (fun _ => known.2) none).keeping calls
        (fun _ _ awaits honors _ => Machine.Awaits.honors awaits honors fun _ => id) m tidy
        ⟨.refl _, known.1⟩).mono fun _ _ post => ⟨post.1, fun a ok => (post.2 a ok).2⟩
  · exact plain hint

theorem Tame.defineClass {node : ClassNode} {hint : Option String}
    {parents : Eval σ (Option ObjectId × ObjectId)} (h : ∀ s', Tame W s' parents)
    (built : ∀ s' scope parents, (W.sound = true → s'.Has scope) →
      Tame W s' (buildClass node hint scope parents : Eval σ ObjectId)) :
    Tame W s (defineClass node hint parents) := by
  refine tame_lexical fun s outer grows has => ?_
  refine tame_of_honest fun calls => ?_
  have body {s : Store} {scope : EnvironmentId} (inner : W.sound = true → s.Inner scope) :
      Tame W s (within scope (parents >>= buildClass node hint scope)) :=
    tame_within inner (tame_bind (h s) fun _ => built s scope _ fun sound => (inner sound).has)
  refine honest_inNewScope (Environment.blank_block outer)
    (fun _ _ known sound => ⟨outer, rfl, known.has (has sound)⟩)
    (fun _ _ known grows _ => known.trans grows) fun first scope new => ?_
  cases node.name with
  | none =>
    refine honest_bind (Q := fun _ _ => True) (fun m tidy known => ?_) fun _ =>
      honest_pure fun _ known => known
    exact (((body known.1.store_inner).honest calls).widen (Rights.none_le _)) m tidy (.refl _)
  | some name =>
    refine honest_bind ((honest_createImmutable.keeping
      (K := fun m => W.sound = true → m.store.Inner scope)
      fun _ _ known honors _ sound => honors.grows.inner (known sound)).mono
        (.refl _) (fun _ fresh => ⟨fresh.1.takes.mono False.elim, fresh.1.store_inner⟩)
        fun _ _ awaits => awaits) fun _ => ?_
    refine honest_bind (fun m tidy known => ?_) fun constructor =>
      honest_bind (honest_init new _) fun _ => honest_pure fun _ known => known
    exact ((body known.2).keeping calls
      (fun _ _ awaits honors _ => Machine.Awaits.honors awaits honors fun _ => id) m tidy
      ⟨.refl _, known.1⟩).mono fun _ _ post => ⟨post.1, fun a ok => (post.2 a ok).2⟩

theorem admits_grows {callable : Callable} (h : W.Admits s callable)
    (grows : s.Grows s') : W.Admits s' callable := ⟨h.1, fun sound => grows.callable (h.2 sound)⟩

theorem honest_allocate {object : Object} {H : Machine σ → Prop}
    (admitted : ∀ m, H m → ∀ callable, object.callable? = some callable → W.Admits m.store callable) :
    Honest W P R H (fun o _ => W.objects ≤ o.index) (perform (.allocate object)) :=
  honest_perform (fun m _ known => admitted m known) fun _ tidy _ => tidy.objects

@[grind ←]
theorem tame_allocate {object : Object} {f : ObjectId → Eval σ β}
    (admitted : ∀ callable, object.callable? = some callable → W.Admits s callable)
    (h : ∀ o, W.objects ≤ o.index → Tame W s (f o)) : Tame W s (perform (.allocate object) >>= f) :=
  tame_gives (Q := fun _ o => W.objects ≤ o.index) (fun _ => honest_allocate
    fun _ known callable found => admits_grows (admitted callable found) known)
    fun _ o grows new => (h o new).later grows

@[grind ←]
theorem tame_define {o : ObjectId} (new : W.objects ≤ o.index) (key : String)
    (property : Property) : Tame W s (perform (.define o key property) : Eval σ Unit) :=
  tame_perform fun _ _ => new

end Eval

/-- An effect that neither creates nor initializes names, and makes tidy functions only. -/
def Effect.Harmless (once : Bool) : Effect σ β → Prop
  | .allocate object => ∀ callable, object.callable? = some callable → callable.Tidy once
  | .enclose environment => environment.record.Settled
  | .createMutable .. | .createImmutable .. | .initBinding .. | .declareVar .. | .declareFunction ..
  | .createGenerator .. | .startRun .. | .suspend .. | .complete _ | .takeResumePoint
  | .pushResumePoint _ | .takeResumption => False
  | _ => True

theorem Effect.Harmless.allowed {effect : Effect σ β} (h : effect.Harmless W.once)
    (every : W.objects = 0) (unsound : W.sound = false) (R : Rights) (m : Machine σ) :
    effect.Allowed W R m := by
  have free {c : Prop} (sound : W.sound = true) : c := by simp [unsound] at sound
  cases effect with
  | define o => exact Nat.le_trans (Nat.le_of_eq every) (Nat.zero_le o.index)
  | allocate object => exact fun callable found => ⟨h callable found, free⟩
  | enclose environment => exact ⟨h, free⟩
  | bindThis => exact free
  | _ => first | exact h | exact h.elim

namespace Eval

inductive Harmless (once : Bool) : {α : Type} → Eval σ α → Prop where
  | ofExcept {α : Type} {r : Except Fault α} (h : Unsuspended r) : Harmless once (ofExcept r)
  | ask {α : Type} (view : Machine σ → α) : Harmless once (ask view)
  | askFor {α : Type} {view : Machine σ → Except Fault α} (h : ∀ m, Unsuspended (view m)) :
      Harmless once (askFor view)
  | perform {α : Type} {effect : Effect σ α} (h : effect.Harmless once) :
      Harmless once (perform effect)
  | attempt {α : Type} {effect : Effect σ (Except Fault α)} (h : effect.Harmless once)
      (unsuspended : ∀ m, Unsuspended (effect.apply m).1) : Harmless once (attempt effect)
  | bind {α β : Type} {x : Eval σ α} {f : α → Eval σ β} (hx : Harmless once x)
      (hf : ∀ a, Harmless once (f a)) : Harmless once (x >>= f)
  | outcome {α : Type} {x : Eval σ α} (h : Harmless once x) : Harmless once (outcome x)
  | within {α : Type} (scope : EnvironmentId) {x : Eval σ α} (h : Harmless once x) :
      Harmless once (within scope x)
  | call (callee this : Value) (arguments : List Value) : Harmless once (call callee this arguments)
  | construct (callee : Value) (arguments : List Value) (newTarget : Option Value) :
      Harmless once (construct callee arguments newTarget)
  | functionExpression {node : FunctionNode} (hint : Option String)
      (made : ∀ environment use, Harmless once (createFunction node environment use)) :
      Harmless once (functionExpression node hint)
  | defineClass {node : ClassNode} (hint : Option String)
      {parents : Eval σ (Option ObjectId × ObjectId)} (h : Harmless once parents)
      (built : ∀ scope parents, Harmless once (buildClass node hint scope parents)) :
      Harmless once (defineClass node hint parents)

theorem Harmless.tame (every : W.objects = 0) (unsound : W.sound = false) {x : Eval σ α}
    (h : Harmless W.once x) (s : Store) : Tame W s x := by
  have free {c : Prop} (sound : W.sound = true) : c := by simp [unsound] at sound
  have fine {γ : Type} {r : Except Fault γ} (h : Unsuspended r) : Fine W r := ⟨h, free⟩
  induction h generalizing s with
  | ofExcept h => exact tame_ofExcept (fine h)
  | ask view => exact tame_ask view
  | askFor h => exact tame_askFor fun m _ => fine (h m)
  | perform h => exact tame_perform fun m _ => h.allowed every unsound _ m
  | attempt h unsuspended =>
    exact tame_attempt (fun m _ => h.allowed every unsound _ m) fun m _ _ => fine (unsuspended m)
  | bind _ _ ihx ihf => exact tame_bind (ihx s) fun a => ihf a s
  | outcome _ ih => exact tame_outcome (ih s)
  | within scope _ ih => exact tame_within free (ih s)
  | call callee this arguments => exact tame_call callee this arguments
  | construct callee arguments newTarget => exact tame_construct callee arguments newTarget
  | functionExpression hint _ ih => exact .functionExpression (fun s' e _ hint => ih e _ s') hint
  | defineClass hint _ _ ih ihBuilt =>
    exact .defineClass ih fun s' scope parents _ => ihBuilt scope parents s'

end Eval

end ScriptEngine
