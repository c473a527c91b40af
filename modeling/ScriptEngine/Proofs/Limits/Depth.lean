import ScriptEngine.Proofs.Additions
import ScriptEngine.Proofs.Limits.Accounts

/-!
# The depth of the stack

A script runs in a frame of its own, however deep the stack is. All other frames are opened where
there is room for them (`Action.Guarded`).
-/

namespace ScriptEngine

open Eval

variable {σ α β : Type}

/-! ## Guarded frames -/

def Action.Guarded : {α : Type} → Action σ α → (full : Bool) → (known : Nat) →
    (ok : α → Prop) → Prop
  | _, .pure a, _, _, ok => ok a
  | _, .read view next, full, known, ok =>
    ∀ m, m.isFull = full → known ≤ m.heap.objects.size →
      Guarded (next (view m)) full m.heap.objects.size ok
  | _, .perform effect next, full, known, ok =>
    ∀ m, m.isFull = full → known ≤ m.heap.objects.size →
      Guarded (next (effect.apply m).1) full known ok
  | _, .inScope _ _ body next, full, known, ok =>
    Guarded body full known fun b => Guarded (next b) full known ok
  | _, .inFrame _ body next, full, known, ok =>
    full = false ∧ ∀ inner, Guarded body inner known fun b => Guarded (next b) full known ok
  | _, .invoke _ next, full, known, ok => ∀ r, Guarded (next r) full known ok
  | _, .loop _ next, full, known, ok => ∀ r, Guarded (next r) full known ok

namespace Action

variable {full : Bool} {known : Nat} {x : Action σ α}

theorem Guarded.mono {ok ok' : α → Prop} (h : x.Guarded full known ok) {known' : Nat}
    (grown : known ≤ known') (weaker : ∀ a, ok a → ok' a) : x.Guarded full known' ok' := by
  induction x generalizing full known known' with
  | pure a => exact weaker a h
  | read view next ih =>
    exact fun m hm le => ih _ (h m hm (Nat.le_trans grown le)) (Nat.le_refl _) weaker
  | perform effect next ih =>
    exact fun m hm le => ih _ (h m hm (Nat.le_trans grown le)) grown weaker
  | inScope lexical varScope body next ihBody ih =>
    exact ihBody h grown fun b rest => ih b rest grown weaker
  | inFrame frame body next ihBody ih =>
    exact ⟨h.1, fun inner => ihBody (h.2 inner) grown fun b rest => ih b rest grown weaker⟩
  | invoke invocation next ih | loop l next ih => exact fun r => ih r (h r) grown weaker

theorem guarded_bind {f : α → Action σ β} {ok : β → Prop}
    (h : x.Guarded full known fun a => (f a).Guarded full known ok) :
    (x.bind f).Guarded full known ok := by
  induction x generalizing full known with
  | pure a => exact h
  | read view next ih =>
    exact fun m hm le => ih _ ((h m hm le).mono (Nat.le_refl _) fun a rest =>
      rest.mono le fun _ => id)
  | perform effect next ih => exact fun m hm le => ih _ (h m hm le)
  | inScope lexical varScope body next _ ih =>
    exact Guarded.mono (x := body) h (Nat.le_refl _) fun b rest => ih b rest
  | inFrame frame body next _ ih =>
    exact ⟨h.1, fun inner => (h.2 inner).mono (Nat.le_refl _) fun b rest => ih b rest⟩
  | invoke invocation next ih | loop l next ih => exact fun r => ih r (h r)

theorem Measured.guarded {size : Nat} {aborted : Bool} {ok : α → Bool → Prop}
    (h : x.Measured full size known aborted ok) {ok' : α → Prop} (weaker : ∀ a b, ok a b → ok' a) :
    x.Guarded full known ok' := by
  induction x generalizing full size known aborted with
  | pure a => exact weaker a aborted h
  | read view next ih => exact fun m hm le => ih _ (h m hm le) weaker
  | perform effect next ih => exact fun m hm le => ih _ (h m hm le).2 weaker
  | inScope lexical varScope body next ihBody ih => exact ihBody h fun b _ rest => ih b rest weaker
  | inFrame frame body next ihBody ih =>
    refine ⟨h.1, fun inner => ?_⟩
    obtain ⟨large, hbody⟩ := h.2 inner
    exact ihBody hbody fun b _ rest => ih b rest weaker
  | invoke invocation next ih | loop l next ih => exact fun r => ih r (h.2.2 r) weaker

end Action

namespace Eval

variable {x : Eval σ α}

def Guarded (x : Eval σ α) : Prop := ∀ full known, x.run.Guarded full known fun _ => True

theorem Measured.guarded (h : ∀ full known, ∃ size, Measured full size known x) : Guarded x := by
  intro full known
  obtain ⟨size, measured⟩ := h full known
  exact Action.Measured.guarded measured fun _ _ _ => trivial

theorem Plain.guarded (h : Plain x) : Guarded x :=
  Measured.guarded fun _ _ => ⟨1, h.measured Nat.one_pos⟩

theorem Guarded.bind {f : α → Eval σ β} (hx : Guarded x) (hf : ∀ a, Guarded (f a)) :
    Guarded (x >>= f) := by
  intro full known
  refine Action.guarded_bind ((hx full known).mono (Nat.le_refl _) fun r _ => ?_)
  cases r with
  | ok a => exact hf a full known
  | error fault => trivial

theorem guarded_enterNative (native : Native) {body : Eval σ α} (h : Guarded body) :
    Guarded (enterNative native body) := by
  intro full known m hm _
  cases full with
  | true =>
    simp only [hm, if_true]
    trivial
  | false =>
    simp only [hm, Bool.false_eq_true, if_false]
    exact fun m' _ le => ⟨rfl, fun inner => (h inner _).mono le fun _ _ => trivial⟩

end Eval

def Engine.Guarded (engine : Engine σ) : Prop :=
  ∀ f ∈ engine.host, ∀ this arguments, Eval.Guarded (f.run this arguments)

section

variable {engine : Engine σ} (natives : engine.Guarded)

include natives

theorem Native.guarded_call (native : Native) (this : Value) (arguments : List Value) :
    Guarded (native.call engine this arguments) := by
  refine guarded_enterNative native ?_
  cases native.code with
  | builtin builtin => exact Measured.guarded fun _ _ => ⟨1, builtin.measured_call _ _ _ Nat.one_pos⟩
  | host index =>
    dsimp only
    split
    · rename_i f found
      exact natives f (List.mem_of_getElem? found) this arguments
    · exact Plain.guarded (plain_throw nofun)

theorem Invocation.guarded (invocation : Invocation) : Guarded (invocation.eval engine) := by
  have refused (text : Machine σ → String) (issue : String → TypeIssue) : Guarded (do
      let text ← ask text
      typeError (issue text) : Eval σ Value) :=
    Measured.guarded fun _ _ => ⟨0, measured_bind (measured_ask _) fun _ => measured_typeError _⟩
  have look (o : ObjectId) : Guarded (ask fun m : Machine σ => (m.heap.get o).callable?) :=
    Measured.guarded fun _ _ => ⟨0, measured_ask _⟩
  cases invocation with
  | call callee this arguments =>
    cases callee with
    | object o =>
      refine (look o).bind fun callable => ?_
      split
      · exact Measured.guarded fun _ _ => ⟨0, measured_typeError _⟩
      · split
        · exact Measured.guarded fun _ _ => ⟨0, measured_typeError _⟩
        · exact Measured.guarded fun _ _ => ⟨0, measured_callClosure ..⟩
      · exact Measured.guarded fun _ _ => ⟨0, measured_startGenerator ..⟩
      · exact Native.guarded_call natives _ _ _
      · exact Measured.guarded fun _ _ => ⟨1, measured_call Nat.one_pos ..⟩
    | _ => exact refused _ _
  | construct callee arguments newTarget =>
    cases callee with
    | object o =>
      refine (look o).bind fun callable => ?_
      split
      · split
        · exact Measured.guarded fun _ _ => ⟨0, measured_constructClosure ..⟩
        · exact refused _ _
      · split
        · split
          · rename_i found
            exact guarded_enterNative _ (Plain.guarded (simple_builtinConstruct found).plain)
          · exact refused _ _
        · exact refused _ _
      · exact Measured.guarded fun _ _ => ⟨1, measured_construct Nat.one_pos ..⟩
      · exact refused _ _
    | _ => exact refused _ _

end

/-! ## Bounded runs -/

def Moment.machines : Moment σ → List (Machine σ)
  | .look m | .round _ m => [m]
  | .change before after => [before, after]

def Moment.Within (bound : Nat) (moment : Moment σ) : Prop :=
  ∀ m ∈ moment.machines, m.stack.depth ≤ bound

structure Machine.Held (limit bound : Nat) (m : Machine σ) : Prop where
  limit : m.options.maxRecursionDepth = some limit
  depth : m.stack.depth ≤ bound

structure Machine.Level (m m' : Machine σ) : Prop where
  options : m'.options = m.options
  stack : m'.stack = m.stack
  heap : m.heap.Extends m'.heap

theorem level_kept : Kept fun m m' : Machine σ => m.Level m' where
  refl _ := ⟨rfl, rfl, .refl _⟩
  trans h h' := ⟨h'.options.trans h.options, h'.stack.trans h.stack, h.heap.trans h'.heap⟩
  effect effect m :=
    ⟨options_kept.effect effect m, stack_kept.effect effect m, kinds_kept.effect effect m⟩
  scope lexical varScope h := ⟨h.options, stack_kept.scope lexical varScope h.stack, h.heap⟩
  frame frame h := ⟨h.options, stack_kept.frame frame h.stack, h.heap⟩

namespace Machine

variable {limit bound : Nat} {m m' : Machine σ}

theorem Held.level (held : m.Held limit bound) (level : m.Level m') : m'.Held limit bound :=
  ⟨level.options ▸ held.limit, level.stack ▸ held.depth⟩

theorem Level.isFull (level : m.Level m') : m'.isFull = m.isFull := by
  simp only [Machine.isFull, level.options, level.stack]

theorem depth_setScope (m : Machine σ) (lexical varScope : EnvironmentId) :
    (m.setScope lexical varScope).stack.depth = m.stack.depth := by
  simp only [setScope, CallStack.setScope, CallStack.depth]
  split
  · rfl
  · rename_i frames
    simp [frames]

theorem Held.push (held : m.Held limit bound) (le : limit ≤ bound) (room : m.isFull = false)
    (frame : Frame) : (m.push frame).Held limit bound := by
  refine ⟨held.limit, ?_⟩
  simp only [isFull, held.limit, decide_eq_false_iff_not, Nat.not_le] at room
  exact Nat.le_trans room le

end Machine

section

variable {limit bound : Nat} {P : Promises σ} {A : Answers σ}

theorem Action.Guarded.safe (le : limit ≤ bound) (faithful : P.Faithful A)
    (keep : A.Keep fun m m' => m.Level m')
    (invoke : ∀ invocation m, m.Held limit bound → P.invoke invocation m fun _ _ => True)
    (loop : ∀ l m, m.Held limit bound → P.loop l m fun _ _ => True)
    {x : Action σ α} {m : Machine σ} {known : Nat} {ok : α → Prop}
    (h : x.Guarded m.isFull known ok) (held : m.Held limit bound)
    (grown : known ≤ m.heap.objects.size) :
    x.Safe (Moment.Within bound) P m fun a _ => ok a := by
  have : P.Lawful := ⟨A, faithful⟩
  induction x generalizing m known with
  | pure a => exact h
  | read view next ih =>
    refine ⟨?_, ih _ (h m rfl grown) held (Nat.le_refl _)⟩
    simpa [Moment.Within, Moment.machines] using held.depth
  | perform effect next ih =>
    have level := level_kept.effect effect m
    have held' := held.level level
    refine ⟨?_, ih _ (level.isFull ▸ h m rfl grown) held' (Nat.le_trans grown level.heap.size)⟩
    simpa [Moment.Within, Moment.machines] using ⟨held.depth, held'.depth⟩
  | inScope lexical varScope body next ihBody ih =>
    have inner : (m.setScope lexical (varScope.getD m.varScope)).Held limit bound :=
      ⟨held.limit, by rw [m.depth_setScope]; exact held.depth⟩
    rw [← m.isFull_setScope lexical (varScope.getD m.varScope)] at h
    have safe := ihBody h inner grown
    refine (safe.and faithful fun b m' run =>
      level_kept.scope _ _ (level_kept.action keep run)).mono fun b m' found => ?_
    obtain ⟨rest, level⟩ := found
    rw [m.isFull_setScope, ← level.isFull] at rest
    exact ih b rest (held.level level) (Nat.le_trans grown level.heap.size)
  | inFrame frame body next ihBody ih =>
    obtain ⟨room, h⟩ := h
    have safe := ihBody (h (m.push frame).isFull) (held.push le room frame) grown
    refine (safe.and faithful fun b m' run =>
      level_kept.frame frame (level_kept.action keep run)).mono fun b m' found => ?_
    obtain ⟨rest, level⟩ := found
    exact ih b (level.isFull ▸ rest) (held.level level) (Nat.le_trans grown level.heap.size)
  | invoke invocation next ih =>
    refine ⟨by simpa [Moment.Within, Moment.machines] using held.depth,
      faithful.invoke.2 ⟨invoke invocation m held, fun r m' run => ?_⟩⟩
    have level := keep.invoke run
    exact ih r (level.isFull ▸ h r) (held.level level) (Nat.le_trans grown level.heap.size)
  | loop l next ih =>
    refine faithful.loop.2 ⟨loop l m held, fun r m' run => ?_⟩
    have level := keep.loop run
    exact ih r (level.isFull ▸ h r) (held.level level) (Nat.le_trans grown level.heap.size)

end

section

variable {engine : Engine σ} (natives : engine.Guarded) {limit bound : Nat} (le : limit ≤ bound)

include natives le

theorem Engine.promises_within (fuel : Nat) :
    (∀ invocation m, m.Held limit bound →
      (engine.promises (Moment.Within bound) fuel).invoke invocation m fun _ _ => True) ∧
    ∀ l m, m.Held limit bound →
      (engine.promises (Moment.Within bound) fuel).loop l m fun _ _ => True := by
  induction fuel with
  | zero => exact ⟨fun _ _ _ => trivial, fun _ _ _ => trivial⟩
  | succ fuel ih =>
    have faithful := engine.promises_faithful (J := Moment.Within bound) fuel
    have keep := level_kept.answers engine fuel
    constructor
    · intro invocation m held
      exact (invocation.guarded natives m.isFull 0).safe le faithful keep ih.1 ih.2 held
        (Nat.zero_le _)
    · intro l m held
      refine ⟨by simpa [Moment.Within, Moment.machines] using held.depth, ?_⟩
      have round : Eval.Guarded (l.round engine.shortcuts : Eval σ Loop.Step) :=
        Measured.guarded fun _ _ => ⟨_, Loop.measured_round (Nat.le_refl _)⟩
      refine (((round m.isFull 0).safe le faithful keep ih.1 ih.2 held (Nat.zero_le _)).and
        faithful fun r m' run => level_kept.action keep run).mono fun r m' found => ?_
      rcases r with fault | step
      · trivial
      · cases step with
        | done completion => trivial
        | again next => exact ih.2 next m' (held.level found.2)

omit le in
theorem Program.within {program : Program} {m : Machine σ}
    (limited : m.options.maxRecursionDepth = some limit) {moment : Moment σ}
    (met : engine.Meets (program.run engine.shortcuts).run m moment) :
    moment.Within (max limit (m.stack.depth + 1)) := by
  have le : limit ≤ max limit (m.stack.depth + 1) := Nat.le_max_left ..
  refine met.holds engine fun fuel => ⟨fun _ _ => True, ?_⟩
  obtain ⟨invoke, loop⟩ := Engine.promises_within natives le fuel
  have body : Eval.Guarded
      (program.runBody engine.shortcuts m.realm.globalEnvironment : Eval σ Completion) := by
    obtain ⟨size, measured⟩ := program.measured_runBody (σ := σ) engine.shortcuts
      m.realm.globalEnvironment
    exact Measured.guarded fun full known => ⟨size, measured full known⟩
  have entered : (program.entered m).Held limit (max limit (m.stack.depth + 1)) :=
    ⟨limited, Nat.le_max_right ..⟩
  have safe := (body (program.entered m).isFull 0).safe le (engine.promises_faithful fuel)
    (level_kept.answers engine fuel) invoke loop entered (Nat.zero_le _)
  have here {m' : Machine σ} (same : m'.stack = m.stack) :
      (Moment.look m').Within (max limit (m.stack.depth + 1)) := by
    simp [Moment.Within, Moment.machines, same]
  refine ⟨?_, here rfl, here rfl, safe⟩
  simp [Moment.Within, Moment.machines, Effect.apply]

end

/-! ## Refused frames -/

/-- The operation opens a frame: it calls or constructs with a function that has code, or with one
that is bound to such a function, or it runs a parked generator. -/
inductive Operation.Opens (m : Machine σ) : Operation Value → Prop where
  | call {o : ObjectId} {closure : Closure} (this : Value) (arguments : List Value)
      (callee : (m.heap.get o).callable? = some (.script closure))
      (callable : closure.isClass = false) : Opens m (.call (.object o) this arguments)
  | callGenerator {o : ObjectId} {closure : Closure} (this : Value) (arguments : List Value)
      (callee : (m.heap.get o).callable? = some (.generator closure)) :
      Opens m (.call (.object o) this arguments)
  | callNative {o : ObjectId} {f : Native} (this : Value) (arguments : List Value)
      (callee : (m.heap.get o).callable? = some (.native f)) :
      Opens m (.call (.object o) this arguments)
  | callBound {o : ObjectId} {f : Bound} (this : Value) (arguments : List Value)
      (callee : (m.heap.get o).callable? = some (.bound f))
      (target : Opens m (.call (.object f.target) f.thisArgument (f.arguments ++ arguments))) :
      Opens m (.call (.object o) this arguments)
  | construct {o : ObjectId} {closure : Closure} (arguments : List Value)
      (newTarget : Option Value) (callee : (m.heap.get o).callable? = some (.script closure))
      (constructable : closure.constructable = true) :
      Opens m (.construct (.object o) arguments newTarget)
  | constructNative {o : ObjectId} {f : Native} (arguments : List Value)
      (newTarget : Option Value) (callee : (m.heap.get o).callable? = some (.native f))
      (constructable : f.isConstructor = true) :
      Opens m (.construct (.object o) arguments newTarget)
  | constructBound {o : ObjectId} {f : Bound} (arguments : List Value)
      (newTarget : Option Value) (callee : (m.heap.get o).callable? = some (.bound f))
      (target : ∀ newTarget, Opens m
        (.construct (.object f.target) (f.arguments ++ arguments) newTarget)) :
      Opens m (.construct (.object o) arguments newTarget)
  | start {receiver : Value} {brand : Option String} {g : GeneratorId} {generator : Generator}
      {frame : Frame} (value : Value) (found : m.drivable receiver brand = .ok (g, generator))
      (parked : generator.frame = some frame) (state : generator.state = .suspendedStart) :
      Opens m (.drive receiver (.next value) brand)
  | resume {receiver : Value} {brand : Option String} {g : GeneratorId} {generator : Generator}
      {frame : Frame} (resumption : Resumption)
      (found : m.drivable receiver brand = .ok (g, generator))
      (parked : generator.frame = some frame) (state : generator.state = .suspendedYield) :
      Opens m (.drive receiver resumption brand)

section

variable {A : Answers σ} {m : Machine σ} (full : m.isFull = true)

include full

theorem Answers.eval_enter_full (function : ObjectId) (closure : Closure) (newTarget : Value)
    (body : EnvironmentId → Eval σ α) :
    A.eval (enter function closure newTarget body) m =
      .finished (.error (.stackOverflow m.stack.depth)) m := by
  simp [enter, checkDepth, full]

theorem Answers.eval_enterNative_full (native : Native) (body : Eval σ α) :
    A.eval (enterNative native body) m = .finished (.error (.stackOverflow m.stack.depth)) m := by
  simp [enterNative, checkDepth, full]

theorem Answers.eval_constructClosure_full (shortcuts : Bool) (function : ObjectId)
    (closure : Closure) (arguments : List Value) (newTarget : ObjectId) :
    ∃ m', A.eval (constructClosure shortcuts function closure arguments newTarget) m =
      .finished (.error (.stackOverflow m.stack.depth)) m' ∧ m.Adds m' := by
  unfold constructClosure
  cases closure.constructorKind with
  | base =>
    -- The new object is there before the check.
    have allocated (object : Object) : ((Effect.allocate object).apply m).2.isFull = true :=
      (level_kept.effect (.allocate object) m).isFull.trans full
    unfold constructBase
    simp only [eval_bind, eval_ask, eval_perform, proceed_ok,
      instancePrototype]
    exact ⟨_, eval_enter_full (allocated _) .., (Machine.Adds.refl m).allocate _⟩
  | derived => exact ⟨m, eval_enter_full full .., .refl m⟩

theorem Answers.eval_runGenerator_full (shortcuts : Bool) {g : GeneratorId} {generator : Generator}
    {frame : Frame} (found : m.generator? g = some generator)
    (parked : generator.frame = some frame) (resumption : Option Resumption) :
    A.eval (runGenerator shortcuts g resumption) m =
      .finished (.error (.stackOverflow m.stack.depth)) m := by
  simp [runGenerator, Effect.apply, found, parked, full]

theorem Operation.Opens.refused {engine : Engine σ} {operation : Operation Value}
    (h : operation.Opens m) :
    ∃ fuel m', engine.run fuel (operation.evaluate engine) m =
      .finished (.error (.stackOverflow m.stack.depth)) m' ∧ m.Adds m' := by
  simp only [engine.run_eq]
  induction h with
  | call this arguments callee callable =>
    refine ⟨1, m, ?_, .refl m⟩
    simp [Operation.evaluate, engine.answers_succ_invoke, Invocation.eval, callObject, callee,
      callable, callClosure, Answers.eval_enter_full full]
  | callGenerator this arguments callee =>
    refine ⟨1, m, ?_, .refl m⟩
    simp [Operation.evaluate, engine.answers_succ_invoke, Invocation.eval, callObject, callee,
      startGenerator, Answers.eval_enter_full full]
  | callNative this arguments callee =>
    refine ⟨1, m, ?_, .refl m⟩
    simp [Operation.evaluate, engine.answers_succ_invoke, Invocation.eval, callObject, callee,
      Native.call, Answers.eval_enterNative_full full]
  | callBound this arguments callee target ih =>
    obtain ⟨fuel, m', run, adds⟩ := ih
    refine ⟨fuel + 1, m', ?_, adds⟩
    simpa [Operation.evaluate, engine.answers_succ_invoke, Invocation.eval, callObject, callee]
      using run
  | construct arguments newTarget callee constructable =>
    obtain ⟨m', run, adds⟩ := Answers.eval_constructClosure_full (A := engine.answers 0) full
      engine.shortcuts _ _ arguments _
    refine ⟨1, m', ?_, adds⟩
    simpa [Operation.evaluate, engine.answers_succ_invoke, Invocation.eval, constructObject,
      callee, constructable] using run
  | @constructNative o f arguments newTarget callee constructable =>
    refine ⟨1, m, ?_, .refl m⟩
    simp only [Native.isConstructor] at constructable
    split at constructable <;> rename_i code
    · simp [Operation.evaluate, engine.answers_succ_invoke, Invocation.eval, constructObject,
        callee, code, Builtin.construct?, Answers.eval_enterNative_full full]
    · simp [Operation.evaluate, engine.answers_succ_invoke, Invocation.eval, constructObject,
        callee, code, Builtin.construct?, Answers.eval_enterNative_full full]
    · contradiction
  | constructBound arguments newTarget callee target ih =>
    obtain ⟨fuel, m', run, adds⟩ := ih _
    refine ⟨fuel + 1, m', ?_, adds⟩
    simpa [Operation.evaluate, engine.answers_succ_invoke, Invocation.eval, constructObject,
      callee] using run
  | start value found parked state =>
    refine ⟨0, m, ?_, .refl m⟩
    have run := Answers.eval_runGenerator_full (A := engine.answers 0) full engine.shortcuts
      (Machine.drivable_eq_ok.1 found).2.1 parked none
    simp [Operation.evaluate, Eval.drive, found, state, run]
  | resume resumption found parked state =>
    refine ⟨0, m, ?_, .refl m⟩
    have run := Answers.eval_runGenerator_full (A := engine.answers 0) full engine.shortcuts
      (Machine.drivable_eq_ok.1 found).2.1 parked (some resumption)
    simp [Operation.evaluate, Eval.drive, found, state, run]

end

/-- Under a recursion limit no script makes the stack deeper than the limit, or than one frame more
than there were. Once the limit is reached, whatever opens a frame fails with the depth, and leaves
the objects, scopes and generators that there were as they are. -/
theorem recursion_bounded {engine : Engine σ} (natives : engine.Guarded) {m : Machine σ}
    {limit : Nat} (limited : m.options.maxRecursionDepth = some limit) :
    (∀ (program : Program) (moment : Moment σ),
      engine.Meets (program.run engine.shortcuts).run m moment →
        moment.Within (max limit (m.stack.depth + 1))) ∧
    (limit ≤ m.stack.depth → ∀ operation : Operation Value, operation.Opens m →
      ∃ fuel m', engine.run fuel (operation.evaluate engine) m =
        .finished (.error (.stackOverflow m.stack.depth)) m' ∧ m.Adds m') := by
  refine ⟨fun program moment => Program.within natives limited, fun reached operation opens => ?_⟩
  have full : m.isFull = true := by
    simpa [Machine.isFull, limited] using reached
  exact opens.refused full

/-- A host function that calls its argument is bounded as well, and is refused at the limit. -/
theorem recursion_bounded_host :
    let apply : HostFunction Unit :=
      { name := "apply", arity := 1
        run := fun _ arguments => Eval.call (arguments.headD .undefined) .undefined [] }
    let engine : Engine Unit := { host := [apply] }
    let native : Native := { name := "apply", arity := 1, code := .host 0 }
    let m : Machine Unit :=
      { Machine.bare with
        store := { heap := ⟨#[{ kind := .function (.native native) }]⟩, environments := #[{}] }
        options := { maxRecursionDepth := some 1 } }
    (∀ (program : Program) (moment : Moment Unit),
      engine.Meets (program.run engine.shortcuts).run m moment → moment.Within 2) ∧
    ∃ fuel m', engine.run fuel (Eval.call (.object ⟨0⟩) .undefined []) m =
      .finished (.error (.stackOverflow 1)) m' ∧ m.Adds m' := by
  intro apply engine native m
  have natives : engine.Guarded := by
    intro f hf this arguments
    cases List.mem_singleton.1 hf
    exact Measured.guarded fun _ _ => ⟨1, measured_call Nat.one_pos ..⟩
  have limited : m.options.maxRecursionDepth = some 1 := rfl
  have bounded := recursion_bounded natives limited
  have opens : Operation.Opens m (.call (.object ⟨0⟩) .undefined []) :=
    .callNative (f := native) _ _ rfl
  exact ⟨bounded.1, bounded.2 (Nat.le_refl 1) _ opens⟩

end ScriptEngine
