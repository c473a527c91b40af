import ScriptEngine.Proofs.Limits.Accounts
import ScriptEngine.Proofs.Parts

/-!
# Larger limits change nothing

Two runs of the same evaluation, one of them under larger limits, go in lockstep until the limits of
the other one end it. `Machine.LoosenedTo` relates their machines, and `Eval.Composed.carries` keeps
it.
-/

namespace ScriptEngine

open Eval

variable {σ α β : Type}

/-! ## Larger limits -/

def Limit.Allows : (loose tight : Limit) → Prop
  | .statements loose, .statements tight => tight.limit ≤ loose.limit
  | .cancellation, .cancellation => True
  | _, _ => False

def Limit.Spares : (loose tight : Limit) → Prop
  | .statements loose, .statements tight =>
    tight.limit ≤ loose.limit ∧ loose.executed ≤ tight.executed
  | .cancellation, .cancellation => True
  | _, _ => False

def AllowsDepth (loose tight : Option Nat) : Prop :=
  ∀ limit ∈ loose, ∃ smaller ∈ tight, smaller ≤ limit

theorem allowsDepth_none (tight : Option Nat) : AllowsDepth none tight := by
  simp [AllowsDepth]

inductive Fault.ByLimits : Fault → Prop where
  | stackOverflow (depth : Nat) : ByLimits (.stackOverflow depth)
  | limitExceeded (issue : LimitIssue) : ByLimits (.limitExceeded issue)

theorem Fault.ByLimits.isHostAbort {fault : Fault} (h : fault.ByLimits) :
    fault.isHostAbort = true := by
  cases h <;> rfl

theorem Fault.ByLimits.isSuspension {fault : Fault} (h : fault.ByLimits) :
    fault.isSuspension = false := by
  cases h <;> rfl

namespace Limit

variable {cancelled : Bool}

theorem Allows.spares_reset {loose tight : Limit} (h : loose.Allows tight) :
    loose.reset.Spares tight.reset := by
  cases loose <;> cases tight <;> simp_all [Allows, Spares, reset, StatementBudget.reset]

theorem Spares.allows {loose tight : Limit} (h : loose.Spares tight) : loose.Allows tight := by
  cases loose <;> cases tight <;> simp_all [Allows, Spares]

theorem Spares.check {loose tight : Limit} (h : loose.Spares tight)
    (passes : (tight.check cancelled).1 = .ok ()) :
    (loose.check cancelled).1 = .ok () ∧
      (loose.check cancelled).2.Spares (tight.check cancelled).2 := by
  cases loose with
  | cancellation =>
    cases tight with
    | cancellation => exact ⟨passes, trivial⟩
    | statements _ => cases h
  | statements loose =>
    cases tight with
    | cancellation => cases h
    | statements tight =>
      obtain ⟨limit, executed⟩ := h
      simp only [Limit.check, StatementBudget.check] at passes ⊢
      have spent : tight.executed + 1 ≤ tight.limit := by
        by_contra exceeded
        simp [Nat.lt_of_not_le exceeded] at passes
      exact ⟨if_neg (by omega), limit, by simp only; omega⟩

theorem checkAll_cons_ok {limit : Limit} {rest : List Limit}
    (passes : (checkAll cancelled (limit :: rest)).1 = .ok ()) :
    (limit.check cancelled).1 = .ok () ∧ (checkAll cancelled rest).1 = .ok () ∧
      (checkAll cancelled (limit :: rest)).2 =
        (limit.check cancelled).2 :: (checkAll cancelled rest).2 := by
  rw [checkAll_cons] at passes ⊢
  cases check : (limit.check cancelled).1 with
  | error fault => simp [check] at passes
  | ok => simpa [check] using passes

theorem checkAll_spares {loose tight : List Limit} (h : List.SublistForall₂ Spares loose tight)
    (passes : (checkAll cancelled tight).1 = .ok ()) :
    (checkAll cancelled loose).1 = .ok () ∧
      List.SublistForall₂ Spares (checkAll cancelled loose).2 (checkAll cancelled tight).2 := by
  induction h with
  | nil => exact ⟨rfl, .nil⟩
  | cons spares _ ih =>
    obtain ⟨first, others, left⟩ := checkAll_cons_ok passes
    obtain ⟨first', spares⟩ := spares.check first
    obtain ⟨others', rest⟩ := ih others
    rw [left, checkAll_cons, first']
    exact ⟨others', .cons spares rest⟩
  | cons_right _ ih =>
    obtain ⟨-, others, left⟩ := checkAll_cons_ok passes
    obtain ⟨others', rest⟩ := ih others
    rw [left]
    exact ⟨others', .cons_right rest⟩

theorem spares_reset {R : Limit → Limit → Prop}
    (allows : ∀ loose tight, R loose tight → loose.Allows tight) {loose tight : List Limit}
    (h : List.SublistForall₂ R loose tight) :
    List.SublistForall₂ Spares (loose.map reset) (tight.map reset) := by
  induction h with
  | nil => exact .nil
  | cons related _ ih => exact .cons (allows _ _ related).spares_reset ih
  | cons_right _ ih => exact .cons_right ih

theorem checkAll_error {limits : List Limit} {fault : Fault}
    (h : (checkAll cancelled limits).1 = .error fault) : fault.ByLimits := by
  obtain ⟨excess, rfl⟩ := checkAll_limitExceeded h
  exact .limitExceeded excess

end Limit

/-! ## The machines of two runs -/

def Machine.LoosenedTo (m m' : Machine σ) : Prop :=
  ∃ limits depth, List.SublistForall₂ Limit.Spares limits m.limits ∧
    AllowsDepth depth m.options.maxRecursionDepth ∧ m' = m.relaxed limits depth

namespace Machine.LoosenedTo

variable {m m' : Machine σ}

variable (h : m.LoosenedTo m')

include h

theorem view (view : Machine σ → α) (blind : Blind view) : view m' = view m := by
  obtain ⟨limits, depth, -, -, rfl⟩ := h
  exact blind m limits depth

theorem lexical : m'.lexical = m.lexical :=
  h.view (·.lexical) fun _ _ _ => rfl

theorem varScope : m'.varScope = m.varScope :=
  h.view (·.varScope) fun _ _ _ => rfl

theorem setScope (lexical varScope : EnvironmentId) :
    (m.setScope lexical varScope).LoosenedTo (m'.setScope lexical varScope) := by
  obtain ⟨limits, depth, spares, allows, rfl⟩ := h
  exact ⟨limits, depth, spares, allows, rfl⟩

theorem push (frame : Frame) : (m.push frame).LoosenedTo (m'.push frame) := by
  obtain ⟨limits, depth, spares, allows, rfl⟩ := h
  exact ⟨limits, depth, spares, allows, rfl⟩

theorem pop : m.pop.LoosenedTo m'.pop := by
  obtain ⟨limits, depth, spares, allows, rfl⟩ := h
  exact ⟨limits, depth, spares, allows, rfl⟩

theorem modifyGenerator (g : GeneratorId) (change : Generator → Generator) :
    (m.modifyGenerator g change).LoosenedTo (m'.modifyGenerator g change) := by
  obtain ⟨limits, depth, spares, allows, rfl⟩ := h
  exact ⟨limits, depth, spares, allows, rfl⟩

theorem isFull (room : m.isFull = false) : m'.isFull = false := by
  obtain ⟨limits, depth, -, allows, rfl⟩ := h
  cases depth with
  | none => rfl
  | some limit =>
    obtain ⟨smaller, same, le⟩ := allows limit rfl
    simp only [Machine.isFull, Option.mem_def.1 same] at room
    change decide (limit ≤ m.stack.depth) = false
    rw [decide_eq_false_iff_not] at room ⊢
    omega

theorem effect (effect : Effect σ β) (free : effect.Free) :
    (effect.apply m').1 = (effect.apply m).1 ∧
      (effect.apply m).2.LoosenedTo (effect.apply m').2 := by
  obtain ⟨limits, depth, spares, allows, rfl⟩ := h
  cases effect with
  | checkLimits | startRun g resumption => exact free.elim
  | resetLimits =>
    have reset := Limit.spares_reset (fun _ _ h => h.allows) spares
    exact ⟨rfl, limits.map Limit.reset, depth, reset, allows, rfl⟩
  | takeResumePoint | pushResumePoint point | takeResumption =>
    have running : (m.relaxed limits depth).runningGenerator? = m.runningGenerator? := rfl
    rw [Effect.apply, Effect.apply, running]
    cases m.runningGenerator? with
    | none | some g => exact ⟨rfl, limits, depth, spares, allows, rfl⟩
  | _ => exact ⟨rfl, limits, depth, spares, allows, rfl⟩

end Machine.LoosenedTo

def Outcome.CarriesTo (tight loose : Outcome σ (Except Fault α)) : Prop :=
  ∀ r m, tight = .finished r m → (∃ fault, r = .error fault ∧ fault.ByLimits) ∨
    ∃ m', m.LoosenedTo m' ∧ loose = .finished r m'

namespace Outcome.CarriesTo

variable {m m' : Machine σ} {loose tight : Outcome σ (Except Fault α)}

theorem finished (h : m.LoosenedTo m') (r : Except Fault α) :
    (Outcome.finished r m).CarriesTo (.finished r m') := by
  rintro r m ⟨rfl, rfl⟩
  exact .inr ⟨m', h, rfl⟩

theorem aborted {fault : Fault} (abort : fault.ByLimits) {o : Outcome σ (Except Fault α)} :
    (Outcome.finished (.error fault) m).CarriesTo o := by
  rintro r m ⟨rfl, rfl⟩
  exact .inl ⟨fault, rfl, abort⟩

variable (h : tight.CarriesTo loose)

include h

theorem andThen {next : Except Fault α → Machine σ → Outcome σ (Except Fault β)}
    (abort : ∀ fault m m', fault.ByLimits → (next (.error fault) m).CarriesTo m')
    (rest : ∀ r m m', m.LoosenedTo m' → (next r m).CarriesTo (next r m')) :
    (tight.andThen next).CarriesTo (loose.andThen next) := by
  intro r m₂ run
  obtain ⟨r', m₁, first, second⟩ := andThen_eq_finished.1 run
  rcases h r' m₁ first with ⟨fault, rfl, host⟩ | ⟨m₁', loosened, rfl⟩
  · exact abort fault m₁ (loose.andThen next) host r m₂ second
  · exact rest r' m₁ m₁' loosened r m₂ second

theorem restored {back : Machine σ → Machine σ}
    (keeps : ∀ m m', m.LoosenedTo m' → (back m).LoosenedTo (back m')) :
    (tight.andThen fun r m => .finished r (back m)).CarriesTo
      (loose.andThen fun r m => .finished r (back m)) :=
  andThen h (fun _ _ _ host => aborted host) fun r m m' loosened => finished (keeps m m' loosened) r

theorem proceed {next : α → Machine σ → Outcome σ (Except Fault β)}
    (rest : ∀ a m m', m.LoosenedTo m' → (next a m).CarriesTo (next a m')) :
    (tight.proceed next).CarriesTo (loose.proceed next) := by
  refine andThen h (fun fault m _ host => aborted host) fun r m m' loosened => ?_
  cases r with
  | ok a => exact rest a m m' loosened
  | error fault => exact finished loosened _

end Outcome.CarriesTo

/-! ## Evaluations -/

namespace Eval

variable {engine : Engine σ} {fuel : Nat}
  (calls : ∀ invocation m m', m.LoosenedTo m' → ((engine.answers fuel).invoke invocation m).CarriesTo ((engine.answers fuel).invoke invocation m'))
  {x : Eval σ α} {m m' : Machine σ}

include calls

theorem Simple.carries (h : Simple x) (loosened : m.LoosenedTo m') :
    ((engine.answers fuel).eval x m).CarriesTo ((engine.answers fuel).eval x m') := by
  induction h generalizing m m' with
  | ofExcept _ => exact .finished loosened _
  | ask blind =>
    rw [eval_ask, eval_ask, loosened.view _ blind]
    exact .finished loosened _
  | askFor blind _ =>
    rw [eval_askFor, eval_askFor, loosened.view _ blind]
    exact .finished loosened _
  | perform plain =>
    obtain ⟨same, left⟩ := loosened.effect _ plain.free
    rw [eval_perform, eval_perform, same]
    exact .finished left _
  | attempt plain _ =>
    obtain ⟨same, left⟩ := loosened.effect _ plain.free
    rw [eval_attempt, eval_attempt, same]
    exact .finished left _
  | bind _ _ ihx ihf =>
    rw [eval_bind, eval_bind]
    exact .proceed (ihx loosened) fun a _ _ left => ihf a left
  | within scope _ ih =>
    rw [eval_within, eval_within, loosened.lexical, loosened.varScope]
    exact .restored (ih (loosened.setScope _ _)) fun _ _ left => left.setScope _ _
  | call callee this arguments =>
    rw [eval_call, eval_call]
    exact calls _ m m' loosened
  | construct callee arguments newTarget =>
    rw [eval_construct, eval_construct]
    exact calls _ m m' loosened

omit calls in
theorem carries_handle {f : Except Fault α → Eval σ β}
    (hx : ((engine.answers fuel).eval x m).CarriesTo ((engine.answers fuel).eval x m'))
    (passes : ∀ fault : Fault, fault.ByLimits → ∀ m, ∃ m', (engine.answers fuel).eval (f (.error fault)) m = .finished (.error fault) m')
    (hf : ∀ r m m', m.LoosenedTo m' → ((engine.answers fuel).eval (f r) m).CarriesTo ((engine.answers fuel).eval (f r) m')) :
    ((engine.answers fuel).eval (outcome x >>= f) m).CarriesTo
      ((engine.answers fuel).eval (outcome x >>= f) m') := by
  rw [eval_handle, eval_handle]
  refine .andThen hx (fun fault m₁ o limit => ?_) hf
  obtain ⟨m₂, passed⟩ := passes fault limit m₁
  rw [passed]
  exact .aborted limit

omit calls in
theorem carries_checkLimits (loosened : m.LoosenedTo m') :
    ((engine.answers fuel).eval (attempt .checkLimits) m).CarriesTo
      ((engine.answers fuel).eval (attempt .checkLimits) m') := by
  obtain ⟨limits, depth, spares, allows, rfl⟩ := loosened
  rw [eval_attempt, eval_attempt]
  cases check : (Limit.checkAll m.cancelled m.limits).1 with
  | error fault =>
    have failed : ((Effect.checkLimits : Effect σ _).apply m).1 = .error fault := check
    rw [failed]
    exact .aborted (Limit.checkAll_error check)
  | ok =>
    obtain ⟨passes, spares⟩ := Limit.checkAll_spares spares check
    have passed : ((Effect.checkLimits : Effect σ _).apply m).1 = .ok () := check
    have passed' :
        ((Effect.checkLimits : Effect σ _).apply (m.relaxed limits depth)).1 = .ok () := passes
    rw [passed, passed']
    have left : ((Effect.checkLimits : Effect σ _).apply m).2.LoosenedTo
        ((Effect.checkLimits : Effect σ _).apply (m.relaxed limits depth)).2 :=
      ⟨_, depth, spares, allows, rfl⟩
    exact .finished left _

omit calls in
theorem carries_startRun (g : GeneratorId) (resumption : Option Resumption)
    (loosened : m.LoosenedTo m') :
    ((engine.answers fuel).eval (attempt (.startRun g resumption)) m).CarriesTo
      ((engine.answers fuel).eval (attempt (.startRun g resumption)) m') := by
  have same : m'.generator? g = m.generator? g := loosened.view (·.generator? g) fun _ _ _ => rfl
  rw [eval_attempt, eval_attempt]
  simp only [Effect.apply, same]
  cases m.generator? g with
  | none => exact .finished loosened _
  | some generator =>
    cases parked : generator.frame with
    | none =>
      simp only [parked]
      exact .finished loosened _
    | some frame =>
      simp only [parked]
      cases full : m.isFull with
      | true => exact .aborted (.stackOverflow _)
      | false =>
        rw [loosened.isFull full]
        exact .finished (loosened.modifyGenerator g _) _

theorem carries_settle (location : Span) (r : Except Fault Completion) (loosened : m.LoosenedTo m') :
    ((engine.answers fuel).eval (settle location r) m).CarriesTo
      ((engine.answers fuel).eval (settle location r) m') := by
  cases r with
  | ok completion => exact .finished loosened _
  | error fault =>
    simp only [settle]
    split
    · exact .finished loosened _
    · exact Simple.carries calls (.bind (simple_faultValue fault) fun _ => simple_pure _) loosened

theorem carries_finishRun (g : GeneratorId) (frame : Frame) (r : Except Fault Completion)
    (loosened : m.LoosenedTo m') :
    ((engine.answers fuel).eval (finishRun g frame r) m).CarriesTo
      ((engine.answers fuel).eval (finishRun g frame r) m') := by
  rcases finishRun_cases g frame r with ⟨-, e⟩ | ⟨-, e⟩ <;> rw [e, eval_bind, eval_bind]
  · exact (simple_answerRun r).carries calls (loosened.effect (.suspend g frame) trivial).2
  · exact (simple_answerRun r).carries calls (loosened.effect (.complete g) trivial).2

theorem carries_drive
    (bodies : ∀ (closure : Closure) {m m' : Machine σ}, m.LoosenedTo m' → ((engine.answers fuel).eval (closure.node.run engine.shortcuts) m).CarriesTo ((engine.answers fuel).eval (closure.node.run engine.shortcuts) m'))
    (receiver : Value) (resumption : Resumption) (brand : Option String)
    (loosened : m.LoosenedTo m') :
    ((engine.answers fuel).eval (drive engine.shortcuts receiver resumption brand) m).CarriesTo
      ((engine.answers fuel).eval (drive engine.shortcuts receiver resumption brand) m') := by
  obtain ⟨f, drive, leads⟩ := drive_eq (σ := σ) engine.shortcuts receiver resumption brand
  have done : Simple (driveDone resumption : Eval σ Value) := simple_driveDone resumption
  have drivable : m'.drivable receiver brand = m.drivable receiver brand :=
    loosened.view (·.drivable receiver brand) fun _ _ _ => rfl
  rw [drive, eval_bind, eval_bind, eval_askFor, eval_askFor,
    drivable]
  refine .proceed (.finished loosened _) fun ⟨g, generator⟩ m m' left => ?_
  have leads := leads g generator
  cases runs : generator.resumed? resumption with
  | none =>
    simp only [runs] at leads
    rcases leads with e | ⟨-, e⟩ <;> rw [e]
    · exact done.carries calls left
    · rw [eval_bind, eval_bind]
      exact done.carries calls (left.effect (.complete g) trivial).2
  | some resumed =>
    simp only [runs] at leads
    rw [leads, runGenerator, eval_bind, eval_bind]
    refine .proceed (carries_startRun g resumed left) fun ⟨frame, closure⟩ m₁ m₁' left => ?_
    refine carries_handle ?_ (fun fault limit m => ?_) fun r m m' left =>
      carries_finishRun calls g frame r left
    · rw [eval_inFrame, eval_inFrame]
      exact .restored (bodies closure (left.push frame)) fun _ _ left => left.pop
    · cases limit <;> exact ⟨_, rfl⟩

theorem Composed.carries_step
    (loops : ∀ l m m', m.LoosenedTo m' → ((engine.answers fuel).loop l m).CarriesTo ((engine.answers fuel).loop l m'))
    {yields : Bool} (h : Composed engine (fun _ _ => False) yields x) (loosened : m.LoosenedTo m') :
    ((engine.answers fuel).eval x m).CarriesTo ((engine.answers fuel).eval x m') := by
  induction h generalizing m m' with
  | leaf h => exact h.elim
  | simple h => exact h.carries calls loosened
  | checkDepth =>
    rw [Eval.checkDepth, eval_askFor, eval_askFor]
    cases full : m.isFull with
    | true => exact .aborted (.stackOverflow _)
    | false =>
      rw [loosened.isFull full]
      exact .finished loosened _
  | perform free =>
    obtain ⟨same, left⟩ := loosened.effect _ free
    rw [eval_perform, eval_perform, same]
    exact .finished left _
  | checkLimits => exact carries_checkLimits loosened
  | bind _ _ ihx ihf =>
    rw [eval_bind, eval_bind]
    exact .proceed (ihx loosened) fun a _ _ left => ihf a left
  | look blind _ ih =>
    rw [eval_bind, eval_bind, eval_ask, eval_ask,
      loosened.view _ blind]
    exact ih m loosened
  | within scope _ ih =>
    rw [eval_within, eval_within, loosened.lexical, loosened.varScope]
    exact .restored (ih (loosened.setScope _ _)) fun _ _ left => left.setScope _ _
  | withinBody scope _ ih =>
    rw [eval_withinBody, eval_withinBody, loosened.lexical, loosened.varScope]
    exact .restored (ih (loosened.setScope _ _)) fun _ _ left => left.setScope _ _
  | inFrame _ _ ih =>
    rw [eval_inFrame, eval_inFrame]
    exact .restored (ih (loosened.push _)) fun _ _ left => left.pop
  | loop l =>
    rw [eval_loop, eval_loop]
    exact loops l m m' loosened
  | recorded point _ ih =>
    refine carries_handle (ih loosened) (fun fault limit m => ⟨m, ?_⟩) fun r m m' left => ?_
    · simp [limit.isSuspension]
    · cases r with
      | ok a => exact .finished left _
      | error fault =>
        dsimp only
        split
        · exact .finished (left.effect (.pushResumePoint point) trivial).2 _
        · exact .finished left _
  | settled location _ ih =>
    refine carries_handle (ih loosened) (fun fault limit m => ⟨m, ?_⟩) fun r m m' left =>
      carries_settle calls location r left
    simp [settle, limit.isHostAbort]
  | suspendAt _ slot span ih =>
    have running : m'.runningGenerator? = m.runningGenerator? :=
      loosened.view (·.runningGenerator?) fun _ _ _ => rfl
    rw [Eval.suspendAt, eval_bind, eval_bind, eval_ask, eval_ask,
      running]
    cases m.runningGenerator? with
    | none => exact .finished loosened _
    | some g =>
      simp only [proceed_ok, eval_bind]
      refine .proceed (ih loosened) fun v _ _ left => ?_
      exact .finished (left.effect (.pushResumePoint (.yield slot)) trivial).2 _
  | script _ _ ih =>
    rw [eval_inFrame, eval_inFrame]
    refine .restored ?_ fun _ _ left => left.pop
    refine carries_handle (ih (loosened.push _)) (fun fault limit m => ⟨m, ?_⟩)
      fun r m m' left => ?_
    · simp [limit.isHostAbort]
    · cases r with
      | ok completion => exact .finished left _
      | error fault =>
        dsimp only
        split
        · exact .finished left _
        · exact Simple.carries calls
            (.bind (simple_faultValue fault) fun _ => simple_pure _) left
  | driven receiver resumption brand _ ih =>
    exact carries_drive calls ih receiver resumption brand loosened

end Eval

namespace Engine

variable {engine : Engine σ} (builtin : engine.host = [])

include builtin

theorem carries_requests (fuel : Nat) :
    (∀ invocation m m', m.LoosenedTo m' →
      ((engine.answers fuel).invoke invocation m).CarriesTo
        ((engine.answers fuel).invoke invocation m')) ∧
    ∀ l m m', m.LoosenedTo m' →
      ((engine.answers fuel).loop l m).CarriesTo ((engine.answers fuel).loop l m') := by
  induction fuel with
  | zero => exact ⟨fun _ _ _ _ r m h => by simp at h, fun _ _ _ _ r m h => by simp at h⟩
  | succ fuel ih =>
    obtain ⟨calls, loops⟩ := ih
    constructor
    · intro invocation m m' loosened
      have composed : Composed engine (fun _ _ => False) false (invocation.eval engine) :=
        invocation.composed (by simp [builtin])
      rw [answers_succ_invoke, answers_succ_invoke]
      exact composed.carries_step calls loops loosened
    · intro l m m' loosened
      rw [answers_succ_loop, answers_succ_loop]
      have round : Composed engine (fun _ _ => False) true (l.round engine.shortcuts) :=
        l.composed_round
      refine .proceed (round.carries_step calls loops loosened) fun step m m' left => ?_
      cases step with
      | done completion => exact .finished left _
      | again next => exact loops next m m' left

end Engine

theorem Eval.Composed.carries {engine : Engine σ} (builtin : engine.host = []) {yields : Bool}
    {x : Eval σ α} (h : Composed engine (fun _ _ => False) yields x) (fuel : Nat) {m m' : Machine σ}
    (loosened : m.LoosenedTo m') : (engine.run fuel x m).CarriesTo (engine.run fuel x m') := by
  obtain ⟨calls, loops⟩ := engine.carries_requests builtin fuel
  rw [engine.run_eq, engine.run_eq]
  exact h.carries_step calls loops loosened

def Machine.renewed (m : Machine σ) : Machine σ := { m with limits := m.limits.map Limit.reset }

theorem Program.run_renewed (A : Answers σ) (shortcuts : Bool) (program : Program) (m : Machine σ) :
    A.eval (program.run shortcuts) m.renewed = A.eval (program.run shortcuts) m := by
  have again : Limit.reset ∘ Limit.reset = Limit.reset := by
    funext limit
    cases limit <;> rfl
  rw [Program.run, eval_bind, eval_bind, eval_perform, eval_perform]
  simp only [Effect.apply, Machine.renewed, List.map_map, again]

/-- A script that the limits do not end gives the same completion, store and generators under any
larger limits, and under none at all. -/
theorem limits_transparent {engine : Engine σ} (builtin : engine.host = []) (program : Program)
    {m m₁ : Machine σ} {limits : List Limit} {depth : Option Nat}
    (larger : List.SublistForall₂ Limit.Allows limits m.limits)
    (deeper : AllowsDepth depth m.options.maxRecursionDepth) {fuel : Nat}
    {r : Except Fault Completion}
    (run : engine.run fuel (program.run engine.shortcuts) m = .finished r m₁)
    (unlimited : ∀ fault, r = .error fault → ¬ fault.ByLimits) :
    ∃ left, engine.run fuel (program.run engine.shortcuts) (m.relaxed limits depth) =
      .finished r (m₁.relaxed left depth) := by
  have loosened : m.renewed.LoosenedTo (m.relaxed limits depth).renewed :=
    ⟨_, depth, Limit.spares_reset (fun _ _ h => h) larger, deeper, rfl⟩
  have composed : Composed engine (fun _ _ => False) false (program.run engine.shortcuts) :=
    program.composed_run
  have carries := composed.carries builtin fuel loosened
  rw [engine.run_eq, ← Program.run_renewed] at run ⊢
  rcases carries r m₁ run with ⟨fault, failed, limit⟩ | ⟨m₁', ⟨left, depth', -, -, rfl⟩, same⟩
  · exact absurd limit (unlimited fault failed)
  · cases congrArg Options.maxRecursionDepth (options_kept.run engine same)
    exact ⟨left, same⟩

def Machine.withFunction (body : List Stmt) : Machine Unit :=
  let node : FunctionNode :=
    { name := none, parameters := [], body := .block body, arrow := false, generator := false
      strict := false, span := {} }
  let closure : Closure :=
    { name := none, node, environment := ⟨0⟩, thisMode := .global, constructorKind := .base
      homeObject := none, isClass := false, constructable := false, isDefault := false
      strict := false }
  { Machine.bare with
    store := { Machine.bare.store with heap := ⟨#[{ kind := .function (.script closure) }]⟩ }
    limits := [.statements { limit := 2, executed := 1 }]
    options := { maxRecursionDepth := some 3 } }

/-- A script calls a function, which takes all that is allowed. Without limits it does the same. -/
theorem limits_transparent_call :
    let engine : Engine Unit := {}
    let program : Program :=
      { body := [.expression (.call (.thisValue {}) [] {}) {}], strict := false, span := {} }
    let m := Machine.withFunction [.return (some (.literal (.boolean true) {})) {}]
    ∃ m₁ left, engine.run 1 (program.run engine.shortcuts) m =
        .finished (.ok (.normal (some (.boolean true)))) m₁ ∧
      engine.run 1 (program.run engine.shortcuts) (m.relaxed [] none) =
        .finished (.ok (.normal (some (.boolean true)))) (m₁.relaxed left none) := by
  intro engine program m
  have ends : ((engine.run 1 (program.run engine.shortcuts) m).andThen fun r _ =>
      .finished r Machine.bare) =
        .finished (.ok (.normal (some (.boolean true)))) Machine.bare := by
    cbv
  obtain ⟨r, m₁, run, same⟩ := Outcome.andThen_eq_finished.1 ends
  cases same
  obtain ⟨left, relaxed⟩ :=
    limits_transparent (m := m) rfl program .nil (allowsDepth_none _) run (by simp)
  exact ⟨m₁, left, run, relaxed⟩

end ScriptEngine
