import ScriptEngine.Proofs.Generator.Calls
import ScriptEngine.Proofs.Pledges.Statement

/-!
# Rounds and calls

Rounds of loops and bodies of functions fulfil what they pledge. A call opens a scope that was not
there before, and all that its body pledges is in scopes that are opened after it began.
-/

namespace ScriptEngine

open Eval Claims

variable {σ α β : Type} {W : Watch}

theorem Machine.Rounds.congr {copied : List String} {e : EnvironmentId} {m m' : Machine σ}
    (h : m.Rounds W copied e) (grows : m.store.Grows m'.store)
    (running : m'.runningGenerator? = m.runningGenerator?) : m'.Rounds W copied e :=
  fun sound => (h sound).imp_left (·.congr grows running)

namespace Loop

def Step.Grounded (W : Watch) (m : Machine σ) : Step → Prop
  | .done _ => True
  | .again next => next.Grounded W m

section

variable {P : Promises σ} [P.Lawful] {A : Answers σ} (kept : P.Fulfilled W A) (shortcuts : Bool)

include kept

omit kept in
theorem fulfils_roundBody {strict : Bool} (scope : EnvironmentId) {H : Machine σ → Prop}
    {C E : Claims} {x : Eval σ Completion} (value : Value) (own : Option EnvironmentId)
    (h : Fulfils W P strict scope H 0 C C (fun _ _ => True) x)
    (stable : ∀ m m', H m → m.store.Grows m'.store → m'.runningGenerator? = m.runningGenerator? → H m')
    (named : ∀ m, H m → ∀ e, own = some e → W.sound = true → m.Grounds e)
    (around : C.Below fun rest => E (.loop value own :: rest)) (labels : List String)
    {f : Value → Eval σ Step} (goesOn : ∀ value, Honest W P .none H
      (fun step m => step.Grounded W m) (f value)) :
    Fulfils W P strict scope H 0 C E (fun step m => step.Grounded W m) (do
      let completion ← recording (.loop value own) x
      afterBody completion labels value f) := by
  have recorded := fulfils_recording _ (h.keeping stable) around
    (fun m m' known grows running => ⟨stable m m' known.1 grows running,
      stable m m' known.2 grows running⟩) fun m known => named m known.1
  refine Fulfils.andThen (T := fun _ m => True ∧ H m) (recorded.under (fun _ known => ⟨known, known⟩))
    fun completion => ?_
  unfold afterBody
  split
  · exact Honest.fulfils ((goesOn _).mono (Rights.none_le _)
      (fun _ known => known.1.2) fun _ _ known => known)
  · exact fulfils_pure fun _ _ => trivial

theorem round_fulfils (strict : Bool) (scope : EnvironmentId) (l : Loop) (asks : l.Asks W)
    (around : l.Around scope) :
    Fulfils W P strict scope (fun m => l.Grounded W m) 0 (l.pledges strict scope)
      (l.leaves strict scope) (fun step m => step.Grounded W m) (l.round shortcuts) := by
  cases l with
  | whileLoop test body labels value resuming =>
    have alone := fulfils_alone (Stmt.fulfils kept strict shortcuts body asks.2 scope []) asks.2
    have inside := fulfils_roundBody (E := inLoop fun _ => body.pledges strict scope) scope value none alone
      (fun _ _ _ _ _ => trivial) (fun _ _ => nofun) (.refl _) labels
      (f := fun value => pure (.again (.whileLoop test body labels value false)))
      fun value => honest_pure fun _ _ => trivial
    cases resuming with
    | true => exact inside
    | false =>
      refine Tame.before kept.calls (fun _ => tame_holds (some test) asks.1)
        fun enter => ?_
      cases enter with
      | true => exact inside.starts
      | false => exact fulfils_pure fun _ _ => trivial
  | doWhile body test labels value =>
    have alone := fulfils_alone (Stmt.fulfils kept strict shortcuts body asks.2 scope []) asks.2
    refine fulfils_roundBody scope value none alone (fun _ _ _ _ _ => trivial)
      (fun _ _ => nofun) (.refl _) labels fun value => honest_bind (Tame.keepingAll (K := fun _ => True)
        (fun _ => tame_holds (some test) asks.1) kept.calls
        fun _ _ _ _ _ => trivial) fun enter => ?_
    cases enter <;> exact honest_pure fun _ _ => trivial
  | forLoop r =>
    obtain ⟨ht, hu, hb⟩ := asks
    let rounds (m : Machine σ) : Prop := m.Rounds W r.copied r.environment
    have next (value : Value) : Honest W P .none rounds (fun step m => step.Grounded W m)
        (r.advance value) := by
      refine honest_bind (honest_copyBindings r.environment r.copied)
        fun environment => ?_
      have again : Honest W P .none (fun m => m.Rounds W r.copied environment)
          (fun step m => step.Grounded W m)
          (pure (.again (.forLoop { r with environment, value, resuming := false })) : Eval σ Step) :=
        honest_pure fun _ known => known
      dsimp only
      split
      · rename_i update found
        rw [found] at hu
        exact honest_bind (Q := fun _ m => m.Rounds W r.copied environment)
          (honest_within (Tame.keepingAll (fun _ => Expr.tame hu none) kept.calls
            fun _ _ known honors steady => known.congr honors.grows steady.runningGenerator?)
            (fun _ known sound => (known sound).1)
            (fun m _ known => known.congr (.refl _) (m.runningGenerator?_setScope _ _))
            fun _ m _ _ known => known.congr (.refl _) (m.runningGenerator?_setScope _ _))
          fun _ => again
      · exact again
    have own : (if r.environment = r.outer then none else some r.environment).getD scope =
        r.environment := by
      rw [← show r.outer = scope from around]
      split
      · rename_i same
        exact same.symm
      · rfl
    have alone := fulfils_alone (Stmt.fulfils kept strict shortcuts r.body hb r.environment []) hb
    have inside := fulfils_roundBody (H := rounds)
      (E := inLoop fun own => r.body.pledges strict (own.getD scope)) scope r.value
      (if r.environment = r.outer then none else some r.environment)
      ((fulfils_within alone).under (fun _ known sound => (known sound).1))
      (fun _ _ known grows running => known.congr grows running)
      (fun m known e told sound => ?_) (fun rest n fits => ⟨n, le_rfl, ?_⟩) r.labels next
    · obtain ⟨test, update, body, copied, labels, outer, environment, value, resuming⟩ := r
      cases resuming with
      | true => exact inside
      | false =>
        refine Honest.beforeAll (T := fun _ => rounds) (honest_within
          (Tame.keepingAll (K := rounds) (fun _ => tame_holds _ ht) kept.calls
            fun _ _ known honors steady => known.congr honors.grows steady.runningGenerator?)
            (fun _ known sound => (known.1 sound).1)
            (fun m _ known => known.1.congr (.refl _) (m.runningGenerator?_setScope _ _))
            fun _ m _ _ known => known.congr (.refl _) (m.runningGenerator?_setScope _ _))
          fun enter => ?_
        cases enter with
        | true => exact inside.starts
        | false => exact fulfils_pure fun _ _ => trivial
    · split at told
      · cases told
      · cases told
        exact (known sound).1
    · change r.body.pledges strict (Option.getD _ scope) rest = some n
      rwa [own]

end

end Loop

theorem Completion.result_fine (c : Completion) : Fine W c.result := by
  unfold Completion.result
  split
  · exact fine_ok _
  · exact fine_error trivial
  · exact fine_ok _

theorem FunctionNode.fulfils {P : Promises σ} [P.Lawful] {A : Answers σ} (kept : P.Fulfilled W A) (shortcuts : Bool)
    (strict : Bool) (scope : EnvironmentId) {node : FunctionNode}
    (asks : W.Asks (node.tidy W.once) node.wellFormed) :
    FulfilsAlways W P strict scope (.among scope node.body.names) (node.body.pledges strict scope)
      (node.body.pledges strict scope) (node.run shortcuts) := by
  rw [node.tidy_eq, node.wellFormed_eq, Watch.asks_and] at asks
  unfold FunctionNode.run
  split
  · rename_i statements block
    rw [block] at asks ⊢
    simp only [Body.tidy, Body.wellFormed, Watch.asks_of_and] at asks
    exact fulfils_statements (evalFrom_fulfils kept strict shortcuts statements asks.2.2 scope 0)
  · rename_i e concise
    rw [concise] at asks ⊢
    have value : FulfilsAlways W P strict scope (.among scope []) nowhere nowhere (do
        let v ← e.eval none
        pure (Completion.returning v) : Eval σ Completion) :=
      fulfils_after kept (fun _ => Expr.tame asks.2 none) fun v => fulfils_pure fun _ _ => trivial
    exact fulfils_settle kept.calls value e.span

/-! ## Frames -/

namespace Machine

variable {m m' : Machine σ} {frame : Frame}

theorem Tidy.push (h : m.Tidy W) (free : frame.generator = none)
    (has : W.sound = true → m.store.Has frame.lexical) : (m.push frame).Tidy W where
  orderly := h.orderly.push free
  settled := h.settled
  objects := h.objects
  heap := h.heap
  bodies := h.bodies
  pledged := h.pledged
  apart := h.apart
  sealed := h.sealed
  intact sound :=
    have intact := h.intact sound
    ⟨intact.store, intact.realm, ⟨has sound, fun running => absurd free running⟩, intact.generators⟩

theorem Tidy.pop (h : m.Tidy W) (free : frame.generator = none) (h' : m'.Tidy W)
    (steady : (m.push frame).Steady m') (grows : m.store.Grows m'.store) : m'.pop.Tidy W where
  orderly := h'.orderly.pop (by rw [steady.links, m.links_push, free]) h.orderly.root
  settled := h'.settled
  objects := h'.objects
  heap := h'.heap
  bodies := h'.bodies
  pledged := h'.pledged
  apart := h'.apart
  sealed := h'.sealed
  intact sound := by
    have stack : m'.pop.stack = m.stack := by
      change m'.stack.pop = m.stack
      rw [steady.stack]
      exact CallStack.pop_push m.stack frame
    have intact := h'.intact sound
    refine ⟨intact.store, intact.realm, ?_, intact.generators⟩
    rw [lexical_of_stack h.orderly stack]
    exact (h.intact sound).lexical.congr grows (by simp only [runningGenerator?, stack])

theorem Steady.pop (h : (m.push frame).Steady m') : m.Steady m'.pop := by
  refine ⟨?_, h.executing, h.completed⟩
  change m'.stack.pop = m.stack
  rw [h.stack]
  exact CallStack.pop_push m.stack frame

structure Confines (W : Watch) (first : Nat) (m : Machine σ) (r : Except Fault α) (m' : Machine σ) :
    Prop where
  tidy : m'.Tidy W
  honors : ∀ m₀ : Machine σ, m₀.store.environments.size ≤ first → m₀.Honors W .none m →
    m₀.Honors W .none m'
  grows : m.store.Grows m'.store
  steady : m.Steady m'
  fine : Fine W r

theorem Spares.confines {first : Nat} {r : Except Fault α} (h : m.Spares W (.since first) r m') :
    m.Confines W first r m' :=
  ⟨h.tidy, fun _ few honors => honors.step h.honors (fun _ reserved used =>
    absurd reserved.has (Nat.not_lt.2 (Nat.le_trans few used))) id, h.honors.grows, h.steady, h.fine⟩

structure Called (W : Watch) (closure : Closure) (newTarget : Value) (scope : EnvironmentId)
    (m : Machine σ) : Prop where
  fresh : m.Fresh W scope
  code : W.sound = true → closure.Intact m.store
  ownsThis : closure.thisMode ≠ .lexical → W.sound = true → m.store.OwnsThis scope newTarget

end Machine

def Closure.opens (closure : Closure) (function : ObjectId) (newTarget : Value) : Environment where
  outer := some closure.environment
  record := .function { this := if closure.thisMode = .lexical then .lexical else .uninitialized, function,
                        newTarget, homeObject := closure.homeObject }

theorem Closure.opens_blank (closure : Closure) (function : ObjectId) (newTarget : Value) :
    (closure.opens function newTarget).Blank := by
  refine ⟨rfl, rfl, fun target v _ bound => ?_⟩
  split at bound <;> cases bound

theorem Machine.Tidy.called {m : Machine σ} (tidy : m.Tidy W) {closure : Closure}
    (code : W.sound = true → closure.Intact m.store) (function : ObjectId) (newTarget : Value) :
    ((Effect.enclose (closure.opens function newTarget)).apply m).2.Called W closure newTarget
      ((Effect.enclose (closure.opens function newTarget)).apply m).1 := by
  have fresh := tidy.fresh (closure.opens_blank function newTarget)
  have opened : (m.store.enclose (closure.opens function newTarget)).2.environment
      (m.store.enclose (closure.opens function newTarget)).1 = closure.opens function newTarget := by
    rw [Store.environment_enclose]
    exact if_pos rfl
  exact ⟨fresh, fun sound => (m.store.grows_enclose _).closure (code sound), fun own _ =>
    ⟨fresh.takes.has, _, congrArg Environment.record opened, by simp [own], rfl⟩⟩

namespace Eval

def Confined (W : Watch) (P : Promises σ) (first : Nat) (H : Machine σ → Prop) (Q : α → Prop)
    (x : Eval σ α) : Prop :=
  ∀ m, m.Tidy W → H m → x.Safe (Moment.Watched W) P m fun r m' =>
    m.Confines W first r m' ∧ ∀ a, r = .ok a → Q a

section

variable {P : Promises σ} {A : Answers σ} [P.Lawful] {R : Rights}
  {H : Machine σ → Prop} {Q : α → Prop} {first : Nat} {x : Eval σ α}

theorem Honest.confined (h : Honest W P (.since first) H (fun a _ => Q a) x) :
    Confined W P first H Q x :=
  fun m tidy known => (h m tidy known).mono fun _ _ post => ⟨post.1.confines, post.2⟩

theorem confined_bind {f : α → Eval σ β} {Q : α → Machine σ → Prop} {Q' : β → Prop}
    (hx : Honest W P (.since first) H Q x) (hf : ∀ a, Confined W P first (Q a) Q' (f a)) :
    Confined W P first H Q' (x >>= f) := by
  intro m tidy known
  rw [safe_bind]
  refine (hx m tidy known).mono fun r m₁ post => ?_
  obtain ⟨spares, known⟩ := post
  cases r with
  | error fault => exact ⟨spares.error.confines, nofun⟩
  | ok a =>
    refine (hf a m₁ spares.tidy (known a rfl)).mono fun r m' post => ?_
    exact ⟨⟨post.1.tidy, fun m₀ few honors => post.1.honors m₀ few
      (spares.confines.honors m₀ few honors), spares.honors.grows.trans post.1.grows,
      spares.steady.trans post.1.steady, post.1.fine⟩, post.2⟩

theorem honest_inFrame {frame : Frame} (free : frame.generator = none) {F : Machine σ → Prop}
    (h : Honest W P R F (fun a _ => Q a) x)
    (has : ∀ m, m.Tidy W → H m → W.sound = true → m.store.Has frame.lexical)
    (pre : ∀ m, H m → F (m.push frame)) : Honest W P R H (fun a _ => Q a) (inFrame frame x) := by
  intro m tidy known
  refine (h _ (tidy.push free (has m tidy known)) (pre m known)).mono fun r m' post => ?_
  obtain ⟨spares, result⟩ := post
  exact ⟨⟨tidy.pop free spares.tidy spares.steady spares.honors.grows,
    spares.honors.congr rfl rfl rfl rfl, spares.steady.pop, spares.fine⟩, result⟩

theorem Fulfils.detached (scope : EnvironmentId) {k : Dues} {C : Bool → Claims}
    {T : α → Machine σ → Prop} (h : ∀ strict, Fulfils W P strict scope H k nowhere (C strict) T x) :
    Honest W P (.upTo k) (fun m => (H m ∧ m.runningGenerator? = none) ∧ m.At W scope k) T x := by
  rintro m tidy ⟨⟨known, free⟩, inside, holds⟩
  have quiet : m.Quiet := fun records hr => by simp [tidy.orderly.records_eq_none.2 free] at hr
  refine (h m.strict m k quiet.enters known ⟨tidy, rfl, inside, holds⟩).mono
    fun r m' post => ?_
  have left := post.left
  have fine : Fine W r := by
    cases r with
    | ok a => exact fine_ok a
    | error fault =>
      cases fault with
      | suspended v =>
        obtain ⟨points, _, hr, _⟩ := left
        have free' := post.tidy.orderly.records_eq_none.2 (post.advances.running.trans free)
        simp [hr] at free'
      | _ => exact left.2.error
  refine ⟨⟨post.tidy, post.honors, post.advances.steady free, fine⟩, ?_⟩
  rintro a rfl
  exact left.2

theorem honest_withinBody {own : EnvironmentId} {k : Dues} {C : Bool → Claims}
    (h : ∀ strict, FulfilsAlways W P strict own k nowhere (C strict) x) :
    Honest W P (.upTo k) (fun m => (m.Holds W k ∧ m.store.Has own) ∧ m.runningGenerator? = none)
      (fun _ _ => True) (withinBody own x) := by
  rintro m tidy ⟨⟨holds, has⟩, free⟩
  have body := Fulfils.detached (C := C) m.lexical fun strict => fulfils_inScope
    (H := fun m => m.store.Has own ∧ m.runningGenerator? = none) (T := fun _ _ => True)
    (h strict) (some own) (fun _ known _ => ⟨known.1, fun running => absurd known.2 running⟩)
    (fun _ _ _ => trivial) fun _ _ _ _ _ => trivial
  exact body m tidy ⟨⟨⟨has, free⟩, free⟩, tidy.orderly.inside, holds⟩

@[grind .]
theorem tame_checkDepth {s : Store} : Tame W s (checkDepth : Eval σ Unit) := by
  refine tame_askFor fun m _ => ?_
  split
  · exact fine_error trivial
  · exact fine_ok ()

/-! ## Calls and constructions -/

variable (calls : P.Spare W)

include calls

theorem honest_enterNative {native : Native} {body : Eval σ α}
    (h : Honest W P .none (fun _ => True) (fun a _ => Q a) body) :
    Honest W P .none (fun _ => True) (fun a _ => Q a) (enterNative native body) := by
  refine honest_bind (Tame.keepingAll (K := fun _ => True) (fun _ => tame_checkDepth) calls
    fun _ _ _ _ _ => trivial) fun _ => ?_
  refine honest_bind (Q := fun frame m => frame.generator = none ∧
    (W.sound = true → m.store.Has frame.lexical)) (honest_ask fun m tidy _ => ⟨rfl, fun sound =>
      (tidy.intact sound).lexical.1⟩) fun frame m tidy known => ?_
  exact honest_inFrame (H := fun m => W.sound = true → m.store.Has frame.lexical) known.1 h
    (fun _ _ has => has) (fun _ _ => trivial) m tidy known.2

theorem honest_enter {function : ObjectId} {closure : Closure} {newTarget : Value}
    {body : EnvironmentId → Eval σ α} (h : ∀ first scope, first ≤ scope.index →
      Confined W P first
        (fun m => m.Called W closure newTarget scope ∧ m.runningGenerator? = none) Q (body scope)) :
    Honest W P .none (fun m => W.sound = true → closure.Intact m.store) (fun a _ => Q a)
      (enter function closure newTarget body) := by
  refine honest_bind (Tame.keepingAll (K := fun m => W.sound = true → closure.Intact m.store)
    (fun _ => tame_checkDepth) calls fun _ _ code honors _ sound =>
      honors.grows.closure (code sound)) fun _ m tidy code => ?_
  have blank := closure.opens_blank function newTarget
  have allowed : (Effect.enclose (closure.opens function newTarget)).Allowed W .none m :=
    ⟨blank.settled, fun sound => ⟨blank.proper, _, rfl, (code sound).environment⟩⟩
  have opened := allowed.spares tidy (fine_ok ())
  have called := tidy.called code function newTarget
  refine ⟨allowed.watched tidy, opened.tidy, ?_⟩
  refine (h m.store.environments.size _ (Nat.le_refl _) _ (opened.tidy.push rfl
    fun _ => called.fresh.takes.has) ⟨⟨⟨called.fresh.takes, called.fresh.absent, called.fresh.inner⟩,
      called.code, called.ownsThis⟩, rfl⟩).mono fun r m' post => ?_
  obtain ⟨confines, result⟩ := post
  have honors : m.Honors W .none m' := confines.honors m (Nat.le_refl _) (opened.honors.congr rfl rfl rfl rfl)
  exact ⟨⟨opened.tidy.pop rfl confines.tidy confines.steady confines.grows,
    honors.congr rfl rfl rfl rfl, opened.steady.trans confines.steady.pop, confines.fine⟩, result⟩

end

section

variable {P : Promises σ} [P.Lawful] {A : Answers σ} (kept : P.Fulfilled W A) (shortcuts : Bool)
  {closure : Closure} {scope : EnvironmentId} {first : Nat} (function : ObjectId)

include kept

omit kept in
theorem honest_called_bindThis (newTarget : Value) {this : Value}
    (object : ∀ o, newTarget = .object o → ∃ o, this = .object o) :
    Honest W P .none (fun m => m.Called W closure newTarget scope ∧ m.runningGenerator? = none)
      (fun _ m => m.Called W closure newTarget scope ∧ m.runningGenerator? = none)
      (bindThis closure scope this) := by
  refine ((honest_bindThis closure scope newTarget this object).keeping
    (K := fun m => ((W.sound = true → closure.Intact m.store) ∧
      (closure.thisMode ≠ .lexical → W.sound = true → m.store.OwnsThis scope newTarget)) ∧
        m.runningGenerator? = none) ?_).mono (.refl _)
      (fun m known => ⟨⟨known.1.fresh, known.1.ownsThis⟩, ⟨known.1.code, known.1.ownsThis⟩, known.2⟩)
      fun _ m known => ⟨⟨known.1, known.2.1.1, known.2.1.2⟩, known.2.2⟩
  rintro m m' ⟨⟨code, owns⟩, free⟩ honors steady
  exact ⟨⟨fun sound => honors.grows.closure (code sound),
    fun own sound => honors.grows.ownsThis (owns own sound)⟩, steady.runningGenerator?.trans free⟩

section

variable (tidy : closure.node.tidy W.once = true)

include tidy

theorem honest_called_instantiate (new : first ≤ scope.index) (newTarget : Value)
    (arguments : List Value) :
    Honest W P (.since first)
      (fun m => m.Called W closure newTarget scope ∧ m.runningGenerator? = none)
      (fun own m => ((m.Holds W (.among own closure.node.body.names) ∧ m.store.Has own) ∧
        m.runningGenerator? = none) ∧ first ≤ own.index ∧ (W.sound = true → own ≠ ⟨0⟩))
      (instantiate closure.node scope arguments) := by
  intro m orderly known
  obtain ⟨called, free⟩ := known
  have made := honest_instantiate kept.calls
    ⟨tidy, fun sound => (called.code sound).node⟩ new called.fresh.inner arguments
  refine ((made.keeping (K := fun m => m.runningGenerator? = none)
    fun _ _ free _ steady => steady.runningGenerator?.trans free) m orderly ⟨called.fresh, free⟩).mono
      fun r m' post => ⟨post.1, fun own ok => ?_⟩
  obtain ⟨⟨held, opened⟩, free⟩ := post.2 own ok
  exact ⟨⟨held, free⟩, opened⟩

theorem honest_runFunction (new : first ≤ scope.index) (newTarget : Value) (arguments : List Value) :
    Honest W P (.since first)
      (fun m => m.Called W closure newTarget scope ∧ m.runningGenerator? = none) (fun _ _ => True)
      (runFunction shortcuts closure.node scope arguments) := by
  intro m orderly known
  have asks : W.Asks (closure.node.tidy W.once) closure.node.wellFormed :=
    ⟨tidy, fun sound => (known.1.code sound).node⟩
  refine honest_bind (honest_called_instantiate kept tidy new newTarget arguments)
    (fun own => honest_given fun opened => ?_) m orderly known
  refine honest_bind ((honest_withinBody fun strict =>
    (FunctionNode.fulfils kept shortcuts strict own asks).starts).widen (Rights.among_le_since opened.1 _))
    fun completion => honest_ofExcept completion.result_fine fun _ _ _ _ => trivial

theorem honest_callClosure (this : Value) (arguments : List Value) :
    Honest W P .none (fun m => W.sound = true → closure.Intact m.store) (fun _ _ => True)
      (callClosure shortcuts function closure this arguments) :=
  honest_enter (Q := fun _ => True) kept.calls fun _ _ new =>
    Honest.confined (honest_bind
      ((honest_called_bindThis .undefined nofun).widen (Rights.none_le _)) fun _ =>
          honest_runFunction kept shortcuts tidy new _ arguments)

theorem honest_constructBase (arguments : List Value) (newTarget : ObjectId) :
    Honest W P .none (fun m => W.sound = true → closure.Intact m.store) (fun v _ => ∃ o, v = .object o)
      (constructBase shortcuts function closure arguments newTarget) := by
  let code (m : Machine σ) : Prop := W.sound = true → closure.Intact m.store
  refine honest_bind (Q := fun _ => code) (honest_ask fun _ _ known => known) fun fallback =>
    honest_bind (Q := fun _ => code) (honest_ask fun _ _ known => known) fun prototype =>
      honest_bind (Q := fun _ => code) (Tame.keepingAll (fun _ => tame_allocateData rfl) kept.calls fun _ _ known honors _ sound =>
          honors.grows.closure (known sound)) fun this => ?_
  refine honest_enter (Q := fun v : Value => ∃ o, v = .object o) kept.calls fun _ _ new =>
    Honest.confined (honest_bind ((honest_called_bindThis _ fun _ _ =>
      ⟨this, rfl⟩).widen (Rights.none_le _))
        fun _ => honest_bind (honest_runFunction kept shortcuts tidy new _ arguments)
          fun v => ?_)
  split
  · exact honest_pure fun _ _ => ⟨_, rfl⟩
  · exact honest_pure fun _ _ => ⟨this, rfl⟩

end

omit kept in
theorem tame_constructParent {s : Store} {newTarget : ObjectId}
    (owns : W.sound = true → s.OwnsThis scope (.object newTarget)) (function : ObjectId)
    (arguments : List Value) :
    Tame W s (constructParent function scope arguments newTarget : Eval σ Value) := by
  have made (parent : Value) := tame_construct_bindThis (σ := σ) owns parent arguments fun _ => .undefined
  refine tame_bind (tame_ask _) fun parent => tame_bind (tame_ask _) fun constructor => ?_
  dsimp only
  split
  · exact tame_bind (tame_typeError _) fun _ => made parent
  · exact made parent

theorem honest_constructDerived (tidy : closure.node.tidy W.once = true)
    (derived : closure.constructorKind = .derived) (arguments : List Value) (newTarget : ObjectId) :
    Honest W P .none (fun m => W.sound = true → closure.Intact m.store) (fun v _ => ∃ o, v = .object o)
      (constructDerived shortcuts function closure arguments newTarget) := by
  refine honest_enter (Q := fun v : Value => ∃ o, v = .object o) kept.calls
    fun first scope new => Honest.confined ?_
  let owns (m : Machine σ) : Prop := W.sound = true → m.store.OwnsThis scope (.object newTarget)
  have lasts {R : Rights} (m m' : Machine σ) (known : owns m) (honors : m.Honors W R m')
      (_ : m.Steady m') : owns m' := fun sound => honors.grows.ownsThis (known sound)
  have owned {m : Machine σ} (called : m.Called W closure (.object newTarget) scope) : owns m :=
    fun sound => called.ownsThis ((called.code sound).derived derived) sound
  have result (v : Value) : Honest W P (.since first) owns (fun v _ => ∃ o, v = .object o)
      (derivedResult scope v) := by
    unfold derivedResult
    split
    · exact honest_pure fun _ _ => ⟨_, rfl⟩
    · refine honest_bind (Q := fun v m => True ∧ (W.sound = true → ∃ o, v = .object o))
        (honest_askFor (fun m tidy known => ?_) fun m v tidy ok known => ⟨trivial, fun sound => ?_⟩)
        fun v => honest_given fun object => ?_
      · exact ⟨(m.store.environment scope).getThis_unsuspended, fun sound issue same => by
          have ends := (tidy.intact sound).store.getThis (known sound)
          rw [same] at ends
          exact ends⟩
      · have ends := (tidy.intact sound).store.getThis (known sound)
        rw [ok] at ends
        exact ends
      · split
        · exact honest_pure fun _ _ => ⟨_, rfl⟩
        · rename_i notObject
          refine honest_ofExcept ⟨unsuspended_error.2 nofun, fun sound _ _ => ?_⟩ nofun
          obtain ⟨o, rfl⟩ := object sound
          exact notObject o rfl
    · exact honest_ofExcept (fine_error trivial) nofun
  dsimp only
  split
  · refine honest_bind (Q := fun _ => owns) (fun m orderly known => ?_) result
    have parent := tame_constructParent (σ := σ) (owned known.1) function arguments
    exact ((parent.keeping kept.calls lasts) m orderly ⟨.refl _, owned known.1⟩).mono
      fun _ _ post => ⟨post.1, fun a ok => (post.2 a ok).2⟩
  · exact honest_bind (((honest_runFunction kept shortcuts tidy new _ arguments).keeping
      lasts).mono (.refl _) (fun _ known => ⟨known, owned known.1⟩)
        fun _ _ known => known.2) result

theorem honest_constructClosure (tidy : closure.node.tidy W.once = true) (arguments : List Value)
    (newTarget : ObjectId) :
    Honest W P .none (fun m => W.sound = true → closure.Intact m.store) (fun v _ => ∃ o, v = .object o)
      (constructClosure shortcuts function closure arguments newTarget) := by
  unfold constructClosure
  split
  · exact honest_constructBase kept shortcuts function tidy arguments newTarget
  · rename_i derived
    exact honest_constructDerived kept shortcuts function tidy derived arguments newTarget

end

end Eval

end ScriptEngine
