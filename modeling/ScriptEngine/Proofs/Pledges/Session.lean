import ScriptEngine.Proofs.Globals
import ScriptEngine.Proofs.Pledges.Drive

/-!
# Sessions of tidy programs

`Engine.Session` follows a host that uses operations on tidy trees, one after the other. The machine
stays tidy, so that a constant is never given a second value.
-/

namespace ScriptEngine

open Eval

variable {σ α : Type} {W : Watch} {m m' : Machine σ}

def Operation.Tidy (once : Bool) : Operation α → Prop
  | .run program | .eval program => program.tidy once = true
  | .statement s _ => s.tidy once false = true
  | .expression e _ => e.tidy once = true
  | .call .. | .construct .. | .drive .. => True

structure Machine.Adjusted (m m' : Machine σ) : Prop where
  store : m'.store = m.store
  generators : m'.generators = m.generators
  stack : m'.stack = m.stack
  realm : m'.realm = m.realm

inductive Engine.Session (engine : Engine σ) (allowed : (α : Type) → Operation α → Prop) :
    Machine σ → Machine σ → Prop where
  | refl (m : Machine σ) : engine.Session allowed m m
  | operate {α : Type} {m m₁ m' : Machine σ} (operation : Operation α) {fuel : Nat}
      {r : Except Fault α} (before : engine.Session allowed m m₁) (h : allowed α operation)
      (run : engine.run fuel (operation.evaluate engine) m₁ = .finished r m') :
      engine.Session allowed m m'
  | adjust {m m₁ m' : Machine σ} (before : engine.Session allowed m m₁) (h : m₁.Adjusted m') :
      engine.Session allowed m m'

/-! ## Scripts -/

def Rights.all : Rights := ⟨fun _ => True, True⟩

theorem Rights.script_le : script.Le all := ⟨fun _ => False.elim, id⟩

theorem Rights.upTo_le_all (n : Dues) : (upTo n).Le all := ⟨fun _ _ => trivial, False.elim⟩

structure Machine.InScript (W : Watch) (functions : List String) (scope : EnvironmentId)
    (m : Machine σ) : Prop where
  takes : m.store.Takes .script scope
  global : W.sound = true → scope = ⟨0⟩
  declarable : ∀ name ∈ functions, W.functions (scope, name)

def Program.functionNames (program : Program) : List String :=
  program.scope.functions.filterMap (·.name)

namespace Eval

variable {P : Promises σ} [P.Lawful] {A : Answers σ} (kept : P.Fulfilled W A) (shortcuts : Bool)

include kept

theorem honest_evalStatements {body : List Stmt}
    (asks : W.Asks (tidyList W.once body) (wellFormedList body)) (scope : EnvironmentId) :
    Honest W P (.upTo (.among scope (namesOf body)))
      (fun m => m.runningGenerator? = none ∧ m.At W scope (.among scope (namesOf body)))
      (fun _ _ => True) (evalStatements shortcuts body) :=
  (Fulfils.detached scope fun strict => (fulfils_statements
    (evalFrom_fulfils kept strict shortcuts body asks scope 0)).starts).under (fun _ known => ⟨⟨trivial, known.1⟩, known.2⟩)

variable {program : Program} (asks : W.Asks (program.tidy W.once) program.wellFormed)

include asks

omit kept in
theorem Program.asks_body : W.Asks (tidyList W.once program.body) (wellFormedList program.body) :=
  (Watch.asks_of_and.1 asks).2

theorem honest_declared (scope : EnvironmentId) :
    Honest W P .script (fun m => m.InScript W program.functionNames scope ∧
        m.runningGenerator? = none ∧ m.Inside scope)
      (fun _ m => m.runningGenerator? = none ∧ m.At W scope (.among scope (namesOf program.body)))
      (declareGlobals scope program.scope) := by
  intro m tidy known
  have functions (f : FunctionNode) (listed : f ∈ program.scope.functions) :
      W.Asks (f.tidy W.once) f.wellFormed :=
    asks_declaredFunctions (Program.asks_body asks) f (lastOfEachName_subset listed)
  refine (((honest_declareGlobals kept.calls functions known.1.global
    known.1.declarable).keeping (K := fun m => m.runningGenerator? = none ∧ m.Inside scope)
      fun _ _ known _ steady => ?_).mono (.refl _) (fun _ known => known)
        fun _ _ known => ⟨known.2.1, known.2.2, known.1⟩) m tidy ⟨known.1.takes, known.2⟩
  exact ⟨steady.runningGenerator?.trans known.1, known.2.congr steady.stack⟩

theorem honest_script (scope : EnvironmentId) :
    Honest W P .all (fun m => m.InScript W program.functionNames scope ∧
        m.runningGenerator? = none ∧ m.Inside scope) (fun _ _ => True)
      (program.runBody shortcuts scope) := by
  have body : Honest W P .all (fun m => m.InScript W program.functionNames scope ∧
        m.runningGenerator? = none ∧ m.Inside scope) (fun _ _ => True) (do
      declareGlobals scope program.scope
      evalStatements shortcuts program.body) :=
    honest_bind ((honest_declared kept asks scope).mono Rights.script_le
      (fun _ known => known) fun _ _ known => known) fun _ =>
        (honest_evalStatements kept shortcuts (Program.asks_body asks) scope).widen (Rights.upTo_le_all _)
  refine honest_bind (Q := fun r _ => True ∧ Fine W r) (honest_outcome fun m h start =>
    (body m h start).mono fun r m' post => ⟨post.1, trivial, post.1.fine⟩) fun result =>
      honest_given fun fine => ?_
  cases result with
  | ok completion => exact honest_pure fun _ _ => trivial
  | error fault =>
    dsimp only
    split
    · exact honest_ofExcept fine.error fun _ _ _ _ => trivial
    · exact (Tame.keepingAll (K := fun _ => True) (fun _ => tame_bind (tame_faultValue fault) fun v =>
        tame_pure _) kept.calls fun _ _ _ _ _ => trivial)

theorem honest_run : Honest W P .all
      (fun m => m.InScript W program.functionNames m.realm.globalEnvironment) (fun _ _ => True)
      (program.run shortcuts) := by
  have framed (scope : EnvironmentId) (strict : Bool) :
      Honest W P .all (fun m => m.InScript W program.functionNames scope) (fun _ _ => True)
        (inFrame { lexical := scope, varScope := scope, strict } (program.runBody shortcuts scope)) :=
    honest_inFrame (Q := fun _ => True) rfl (honest_script kept shortcuts asks scope)
      (fun _ _ start _ => start.takes.has) fun m start => ⟨⟨start.takes, start.global,
        start.declarable⟩, rfl, rfl⟩
  exact honest_bind
    (Q := fun _ m => m.InScript W program.functionNames m.realm.globalEnvironment)
    (honest_perform (fun _ _ _ => trivial) fun _ _ start => ⟨start.takes, start.global,
      start.declarable⟩) fun _ =>
    honest_bind (Q := fun scope m => m.InScript W program.functionNames scope)
      (honest_ask fun _ _ start => start) fun scope =>
    honest_bind (Q := fun _ m => m.InScript W program.functionNames scope)
      (honest_ask fun _ _ start => start) fun _ => framed scope _

theorem honest_eval : Honest W P .all
      (fun m => m.InScript W program.functionNames m.realm.globalEnvironment) (fun _ _ => True)
      (program.eval shortcuts) := by
  refine honest_bind (honest_run kept shortcuts asks) fun completion => ?_
  split
  · exact honest_throw trivial
  · exact honest_pure fun _ known => known

end Eval

namespace Operation

def Asks (W : Watch) : Operation α → Prop
  | .run program | .eval program => W.Asks (program.tidy W.once) program.wellFormed
  | .statement s _ => W.Asks (s.tidy W.once false) (s.wellFormed false)
  | .expression e _ => W.Asks (e.tidy W.once) e.wellFormed
  | .call .. | .construct .. | .drive .. => True

theorem Tidy.asks {operation : Operation α} (h : operation.Tidy W.once) (unsound : W.sound = false) :
    operation.Asks W := by
  cases operation with
  | call | construct | drive => trivial
  | _ => exact ⟨h, fun sound => by simp [unsound] at sound⟩

def Ready (m : Machine σ) : Operation α → Prop
  | .statement .. => m.Quiet
  | _ => True

def functionNames : Operation α → List String
  | .run program | .eval program => program.functionNames
  | _ => []

def rights : Operation α → Rights
  | .run _ | .eval _ => .all
  | _ => .none

end Operation

structure Machine.Operates (W : Watch) (R : Rights) (m : Machine σ) (r : Except Fault α)
    (m' : Machine σ) : Prop where
  tidy : m'.Tidy W
  honors : m.Honors W R m'
  benign : W.sound = true → ∀ issue, r ≠ .error (.internal issue)

theorem Operation.operates {P : Promises σ} [P.Lawful] {A : Answers σ} (kept : P.Fulfilled W A)
    {operation : Operation α} (asks : operation.Asks W) (engine : Engine σ) (tidy : m.Tidy W)
    (ready : operation.Ready m)
    (start : m.InScript W operation.functionNames m.realm.globalEnvironment) :
    (operation.evaluate engine).Safe (Moment.Watched W) P m (m.Operates W operation.rights) := by
  have honest {β : Type} {x : Eval σ β} {R : Rights} {H : Machine σ → Prop} {Q : β → Machine σ → Prop}
      (h : Honest W P R H Q x) (known : H m) :
      x.Safe (Moment.Watched W) P m (m.Operates W R) :=
    (h m tidy known).mono fun _ _ post => ⟨post.1.tidy, post.1.honors, post.1.fine.benign⟩
  have tame {β : Type} {x : Eval σ β} (h : Tame W m.store x) :=
    honest (h.honest kept.calls) (.refl _)
  cases operation with
  | statement s labels =>
    have alone := fulfils_alone
      (Stmt.fulfils kept m.strict engine.shortcuts s asks m.lexical labels) asks
    refine (alone m 0 (Machine.Quiet.enters ready) trivial ⟨tidy, rfl, tidy.orderly.inside, .zero⟩).mono
      fun r m' post => ⟨post.tidy, post.honors.mono (Rights.upTo_zero_le _),
        fun sound issue same => ?_⟩
    subst same
    exact post.left.2.benign sound issue rfl
  | expression e hint => exact tame (Expr.tame asks hint)
  | call callee this arguments => exact tame (tame_call callee this arguments)
  | construct callee arguments newTarget => exact tame (tame_construct callee arguments newTarget)
  | drive receiver resumption brand =>
    exact honest (honest_drive kept engine.shortcuts receiver resumption brand) trivial
  | run program => exact honest (honest_run kept engine.shortcuts asks) start
  | eval program => exact honest (honest_eval kept engine.shortcuts asks) start

/-! ## Between operations -/

theorem Machine.Tidy.adjusted (tidy : m.Tidy W) (h : m.Adjusted m') : m'.Tidy W := by
  have found (g : GeneratorId) : m'.generator? g = m.generator? g := by
    simp only [Machine.generator?, h.generators]
  have heap : m'.heap = m.heap := congrArg Store.heap h.store
  have claimed (p : Spot) : m'.Claimed p ↔ m.Claimed p := Claimed.congr h.generators
  refine ⟨tidy.orderly.congr h.generators (by simp only [Machine.links, h.stack]),
    h.store ▸ tidy.settled, heap ▸ tidy.objects, heap ▸ tidy.heap, by simpa only [found] using tidy.bodies,
    by simpa only [found, h.store] using tidy.pledged, by simpa only [found] using tidy.apart,
    by simpa only [claimed, h.store] using tidy.sealed, fun sound => ?_⟩
  have intact := tidy.intact sound
  exact intact.change tidy.orderly (h.store ▸ intact.store) (h.store ▸ .refl _) h.stack h.realm
    fun g generator hg => h.store ▸ intact.generators g generator (found g ▸ hg)

theorem Machine.Rooted.takes (h : m.Rooted) : m.store.Takes .script m.realm.globalEnvironment := by
  obtain ⟨r, object, globals⟩ := h
  exact ⟨Store.has_of_global globals.record, by rw [globals.record]; rfl, .inl trivial⟩

structure Machine.Rests (W : Watch) (m : Machine σ) : Prop where
  tidy : m.Tidy W
  rooted : m.Rooted
  free : m.runningGenerator? = none

theorem Machine.Rests.carry (h : m.Rests W) (tidy : m'.Tidy W) (rooted : m'.Rooted)
    (stack : m'.stack = m.stack) : m'.Rests W where
  tidy := tidy
  rooted := rooted
  free := by
    unfold Machine.runningGenerator?
    rw [stack]
    exact h.free

theorem Machine.Rests.ready (h : m.Rests W) (operation : Operation α) : operation.Ready m := by
  cases operation with
  | statement => exact fun records hr => by simp [h.tidy.orderly.records_eq_none.2 h.free] at hr
  | _ => trivial

theorem Machine.Rests.inScript (h : m.Rests W) (any : ∀ p, W.functions p) (functions : List String) :
    m.InScript W functions m.realm.globalEnvironment :=
  ⟨h.rooted.takes, fun sound => (h.tidy.intact sound).realm, fun _ _ => any _⟩

def Engine.Harmless (engine : Engine σ) (once : Bool) : Prop :=
  ∀ f ∈ engine.host, ∀ this arguments, Eval.Harmless once (f.run this arguments)

namespace Engine

variable {engine : Engine σ}

theorem start_tidy (engine : Engine σ) (options : Options) (host : σ) (once : Bool) :
    (engine.start options host).Tidy { once } := by
  have none (g : GeneratorId) (generator : Generator) :
      (engine.start options host).generator? g ≠ some generator := by
    simp [Machine.generator?, start_generators]
  refine ⟨(start_orderly engine options host).1, fun e b found => ?_, Nat.zero_le _,
    fun o callable found => ?_, fun g generator hg => absurd hg (none g generator),
    fun _ g generator hg => absurd hg (none g generator),
    fun _ g _ generator _ hg => absurd hg (none g generator), fun _ => False.elim, Bool.noConfusion⟩
  · have empty : b = .empty := by
      simp only [Store.environment, engine.start_environments options host] at found
      obtain ⟨_ | index⟩ := e <;> simp_all [Record.table?]
    rw [empty]
    exact Bindings.settled_empty
  · have given := engine.start_given options host o
    unfold Object.callable? at found
    generalize ((engine.start options host).heap.get o).kind = kind at given found
    cases given with
    | ordinary => cases found
    | native =>
      cases found
      trivial

theorem start_free (engine : Engine σ) (options : Options) (host : σ) :
    (engine.start options host).runningGenerator? = none := by
  rw [Machine.runningGenerator?_eq, (start_orderly engine options host).2]
  rfl

theorem start_rests (engine : Engine σ) (options : Options) (host : σ) (once : Bool) :
    (engine.start options host).Rests { once } where
  tidy := engine.start_tidy options host once
  rooted := engine.start_rooted options host
  free := engine.start_free options host

theorem Harmless.tame {once : Bool} (h : engine.Harmless once) : engine.Tame { once } :=
  fun _ f listed this arguments s => (h f listed this arguments).tame rfl rfl s

theorem safe_operation (tame : engine.Tame W) (any : ∀ p, W.functions p) {m : Machine σ}
    (rests : m.Rests W) {operation : Operation α} (asks : operation.Asks W) (fuel : Nat) :
    (operation.evaluate engine).Safe (Moment.Watched W) (engine.promises (Moment.Watched W) fuel) m
      (m.Operates W operation.rights) :=
  Operation.operates (promises_fulfilled tame fuel) asks engine rests.tidy (rests.ready operation)
    (rests.inScript any _)

variable {allowed : (α : Type) → Operation α → Prop}

theorem Session.rests (tame : engine.Tame W) (any : ∀ p, W.functions p)
    (asks : ∀ α operation, allowed α operation → operation.Asks W)
    {m m' : Machine σ} (session : engine.Session allowed m m') (rests : m.Rests W) : m'.Rests W := by
  induction session with
  | refl => exact rests
  | @operate _ _ m₁ m' operation fuel r _ h run ih =>
    have before := ih rests
    have operates : m₁.Operates W operation.rights r m' :=
      engine.safe_result run (safe_operation tame any before (asks _ operation h) fuel)
    exact before.carry operates.tidy (rooted_kept.run engine run before.rooted)
      (stack_kept.run engine run)
  | @adjust _ m₁ m' _ h ih =>
    have before := ih rests
    refine before.carry (before.tidy.adjusted h) ?_ h.stack
    obtain ⟨r, object, globals⟩ := before.rooted
    exact ⟨r, object, by rw [h.realm, h.store]; exact globals⟩

end Engine

/-! ## Bindings -/

structure Store.Preserves (s s' : Store) : Prop where
  constant : ∀ p b, s.binding? p = some b → b.mutable = false → b.initialized = true →
    s'.binding? p = some b
  firm : ∀ p b, s.binding? p = some b → b.deletable = false →
    ∃ b', s'.binding? p = some b' ∧ b.Lasts b'
  this : ∀ e r, (s.environment e).record = .function r →
    ∃ r', (s'.environment e).record = .function r' ∧ r.this.Lasts r'.this

namespace Store

variable {s s' : Store}

theorem Grows.function (h : s.Grows s') {e : EnvironmentId} {r : FunctionRecord}
    (record : (s.environment e).record = .function r) :
    ∃ r', (s'.environment e).record = .function r' ∧ r.this.Lasts r'.this := by
  have has : s.Has e := by
    refine Classical.byContradiction fun absent => ?_
    rw [environment_of_not_has absent] at record
    cases record
  have extended := h.record has
  rw [record] at extended
  cases record' : (s'.environment e).record with
  | function r' =>
    rw [record'] at extended
    exact ⟨r', rfl, extended.2.1⟩
  | _ => simp [record', Record.Extends] at extended

theorem Grows.preserves (grows : s.Grows s')
    (constant : ∀ p b, s.binding? p = some b → b.mutable = false → b.initialized = true →
      s'.binding? p = some b) : s.Preserves s' :=
  ⟨constant, fun _ _ => grows.binding?, fun _ _ => grows.function⟩

end Store

theorem Moment.Watched.retains {old new : Machine σ} (h : Moment.Watched W (.change old new))
    (once : W.once = true) (p : Spot) : old.store.Retains p new.store := by
  obtain same | ⟨settled, _, effect, _, allowed, rfl⟩ := h
  · exact same ▸ .refl p old.store
  · exact allowed.retains settled once p

theorem Operation.constant_kept {engine : Engine σ} (harmless : engine.Harmless true)
    (rests : m.Rests { once := true }) {operation : Operation α} (tidy : operation.Tidy true)
    {fuel : Nat} {r : Except Fault α}
    (run : engine.run fuel (operation.evaluate engine) m = .finished r m') (p : Spot) (b : Binding)
    (found : m.store.binding? p = some b) (constant : b.mutable = false)
    (initialized : b.initialized = true) : m'.store.binding? p = some b := by
  have kept := engine.safe_chain
    (R := fun s s' => ∀ b, s.binding? p = some b → b.mutable = false → b.initialized = true →
      s'.binding? p = some b)
    (fun _ _ found _ _ => found)
    (fun h h' b found constant initialized =>
      h' b (h b found constant initialized) constant initialized)
    (fun _ _ changed => (changed.retains rfl p).constant)
    (Engine.safe_operation harmless.tame (fun _ => trivial) rests (tidy.asks rfl) fuel) run
  exact kept b found constant initialized

namespace Engine

variable {engine : Engine σ} {allowed : (α : Type) → Operation α → Prop}

theorem Session.grows (session : engine.Session allowed m m') : m.store.Grows m'.store := by
  induction session with
  | refl => exact .refl _
  | operate _ _ _ run ih => exact ih.trans (scopes_kept.run engine run)
  | adjust _ h ih => exact h.store ▸ ih

theorem Session.tidy_rests (harmless : engine.Harmless true)
    (session : engine.Session (fun _ operation => operation.Tidy true) m m')
    (rests : m.Rests { once := true }) : m'.Rests { once := true } :=
  session.rests harmless.tame (fun _ => trivial) (fun _ _ tidy => tidy.asks rfl) rests

theorem Session.preserves (harmless : engine.Harmless true)
    (session : engine.Session (fun _ operation => operation.Tidy true) m m') (rests : m.Rests { once := true }) :
    m.store.Preserves m'.store := by
  refine session.grows.preserves fun p b found constant initialized => ?_
  induction session with
  | refl => exact found
  | operate operation before tidy run ih =>
    exact operation.constant_kept harmless (before.tidy_rests harmless rests) tidy run p b
      (ih rests found) constant initialized
  | adjust _ h ih => exact h.store ▸ ih rests found

theorem Meets.kept {R : Machine σ → Machine σ → Prop} (kept : Kept R) {x : Action σ α}
    {old new : Machine σ} (meets : engine.Meets x m (.change old new)) : R old new := by
  generalize change : Moment.change old new = moment at meets
  induction meets with
  | change =>
    cases change
    exact kept.effect _ _
  | look | call | round => cases change
  | _ => simp_all

end Engine

/-- In a session a constant that has its value keeps it, bindings that cannot be deleted stay, what is
initialized stays initialized, and the `this` of a function stays what it is from the moment it is
bound. This is so from one operation to any later one, and across every change that an operation
makes to the machine. -/
theorem bindings_monotone {engine : Engine σ} (harmless : engine.Harmless true) {options : Options}
    {host : σ} {m m' : Machine σ}
    (before : engine.Session (fun _ operation => operation.Tidy true) (engine.start options host) m)
    (after : engine.Session (fun _ operation => operation.Tidy true) m m') :
    m.store.Preserves m'.store ∧
      ∀ {α : Type} (operation : Operation α), operation.Tidy true → ∀ old new : Machine σ,
        engine.Meets (operation.evaluate engine).run m (.change old new) →
        old.store.Preserves new.store ∧ ∀ p, old.store.Retains p new.store := by
  have rests := before.tidy_rests harmless (engine.start_rests options host true)
  refine ⟨after.preserves harmless rests, fun operation tidy old new meets => ?_⟩
  have retains (p : Spot) : old.store.Retains p new.store :=
    (Engine.Meets.holds engine meets fun fuel => ⟨_, Engine.safe_operation harmless.tame
      (fun _ => trivial) rests (tidy.asks rfl) fuel⟩).retains rfl p
  exact ⟨(meets.kept scopes_kept).preserves fun p => (retains p).constant, retains⟩

/-- The script `{ const x = true; }` is followed by `{ const x = false; }`. The first block has left its
`x` in the scope after the global one, and the second block has an `x` of its own. -/
theorem bindings_monotone_blocks :
    let engine : Engine Unit := {}
    let script (value : Bool) : Operation Value := .eval
      { body := [.block
          [.declare
            { kind := .const
              declarators := [{ name := "x", init := some (.literal (.boolean value) {}) }]
              span := {} }] {}]
        strict := false
        span := {} }
    ∃ r r' m m', engine.run 0 ((script true).evaluate engine) (engine.start {} ()) = .finished r m ∧
      engine.run 0 ((script false).evaluate engine) m = .finished r' m' ∧
      m'.store.binding? (⟨1⟩, "x") = some
        { value := .boolean true, mutable := false, initialized := true, strict := true } := by
  intro engine script
  have ends : ((engine.run 0 ((script true).evaluate engine) (engine.start {} ())).andThen fun _ m =>
      (engine.run 0 ((script false).evaluate engine) m).andThen fun _ _ =>
        .finished (m.store.binding? (⟨1⟩, "x")) Machine.bare) = .finished (some
          { value := .boolean true, mutable := false, initialized := true, strict := true })
        Machine.bare := by
    have global := Setup.all_globalEnvironment engine.host { objects := #[] }
    unfold Engine.start
    generalize Setup.all engine.host { objects := #[] } = setup at global
    obtain ⟨⟨_, _, _, _, _, globalEnvironment⟩, heap⟩ := setup
    cases global
    cbv
  obtain ⟨r, m, run, rest⟩ := Outcome.andThen_eq_finished.1 ends
  obtain ⟨r', m', run', same⟩ := Outcome.andThen_eq_finished.1 rest
  injection same with found
  have before : engine.Session (fun _ operation => operation.Tidy true) (engine.start {} ()) m :=
    .operate (script true) (.refl _) rfl run
  have after : engine.Session (fun _ operation => operation.Tidy true) m m' := .operate (script false) (.refl _) rfl run'
  have preserves := (bindings_monotone (fun _ listed => by cases listed) before after).1
  exact ⟨r, r', m, m', run, run', preserves.constant _ _ found rfl rfl⟩

end ScriptEngine
