import ScriptEngine.Proofs.Parts
import ScriptEngine.Proofs.Limits.Grounded

/-!
# Runs under limits end

A bound on the depth of the stack bounds the calls that are open at one time, and the text of a
program bounds its nested statements. What is left are loops.
-/

namespace ScriptEngine

open Eval

variable {σ α : Type}

namespace Engine

variable (engine : Engine σ)

def Ends (x : Action σ α) (m : Machine σ) : Prop := ∃ a m', engine.total.run x m = .finished a m'

def GoesOn (turn turn' : Loop × Machine σ) : Prop :=
  engine.total.eval (turn.1.round engine.shortcuts) turn.2 = .finished (.ok (.again turn'.1)) turn'.2

def Spins (l : Loop) (m : Machine σ) : Prop :=
  ∃ turns : Nat → Loop × Machine σ, turns 0 = (l, m) ∧
    ∀ n, engine.GoesOn (turns n) (turns (n + 1)) ∧ (turns n).2.limits = m.limits

def Calm (x : Action σ α) (m : Machine σ) : Prop :=
  ∀ l m', engine.Meets x m (.round l m') → ¬ engine.Spins l m'

end Engine

section

variable {engine : Engine σ} {m : Machine σ} {l : Loop}

theorem Engine.Spins.next (h : engine.Spins l m) :
    ∃ l' m', engine.GoesOn (l, m) (l', m') ∧ engine.Spins l' m' := by
  obtain ⟨turns, start, goes⟩ := h
  refine ⟨(turns 1).1, (turns 1).2, start ▸ (goes 0).1, fun n => turns (n + 1), rfl, fun n => ?_⟩
  exact ⟨(goes (n + 1)).1, ((goes (n + 1)).2).trans (goes 1).2.symm⟩

theorem Engine.Spins.not_loop (h : engine.Spins l m) : engine.total.loop l m = .exhausted := by
  have never (fuel : Nat) : (engine.answers fuel).loop l m = .exhausted := by
    induction fuel generalizing l m with
    | zero => exact engine.answers_zero_loop l m
    | succ fuel ih =>
      obtain ⟨l', m', goes, spins⟩ := h.next
      rw [engine.answers_succ_loop]
      rcases (engine.run_approaches (l.round engine.shortcuts) m).within fuel with out | done
      · rw [show (engine.answers fuel).eval (l.round engine.shortcuts) m = .exhausted from out]
        rfl
      · rw [show (engine.answers fuel).eval (l.round engine.shortcuts) m = _ from done.trans goes]
        exact ih spins
  cases loop : engine.total.loop l m with
  | exhausted => rfl
  | finished r m' =>
    obtain ⟨fuel, -, run⟩ := engine.exists_answers_loop loop 0
    rw [never fuel] at run
    cases run

theorem Engine.Meets.not_ends {x : Action σ α} {moment : Moment σ} (h : engine.Meets x m moment)
    {m₁ : Machine σ} (round : moment = .round l m₁) (spins : engine.Spins l m₁) :
    engine.total.run x m = .exhausted := by
  induction h with
  | look | change | call => cases round
  | read _ ih | perform _ ih => exact ih round
  | inScope _ ih => rw [run_inScope, ih round, Outcome.andThen_exhausted]
  | inFrame _ ih => rw [run_inFrame, ih round, Outcome.andThen_exhausted]
  | afterScope run _ ih => rw [run_inScope, run, Outcome.andThen_finished, ih round]
  | afterFrame run _ ih => rw [run_inFrame, run, Outcome.andThen_finished, ih round]
  | inCall _ ih =>
    rw [run_invoke, engine.total_invoke]
    exact congrArg (Outcome.andThen · _) (ih round)
  | afterCall run _ ih => rw [run_invoke, run, Outcome.andThen_finished, ih round]
  | round =>
    cases round
    rw [run_loop, spins.not_loop, Outcome.andThen_exhausted]
  | inRound _ ih =>
    rw [run_loop, engine.total_loop]
    exact congrArg (fun o => (engine.total.afterRound o).andThen _) (ih round)
  | again run _ ih =>
    have later := ih round
    rw [run_loop] at later ⊢
    rw [engine.total_loop, run]
    exact later
  | afterLoop run _ ih => rw [run_loop, run, Outcome.andThen_finished, ih round]

end

/-- At most `room` more frames fit on the stack, and calls that are handed on come to an end. -/
structure Machine.Bounded (m : Machine σ) (room : Nat) : Prop where
  fits : ∃ limit, m.options.maxRecursionDepth = some limit ∧ limit - m.stack.depth = room
  grounded : m.heap.Grounded

namespace Machine.Bounded

variable {m m' : Machine σ} {room : Nat}

theorem isFull (h : m.Bounded 0) : m.isFull = true := by
  obtain ⟨limit, bound, full⟩ := h.fits
  simp only [Machine.isFull, bound, decide_eq_true_eq]
  omega

theorem push (h : m.Bounded (room + 1)) (frame : Frame) : (m.push frame).Bounded room := by
  obtain ⟨limit, bound, left⟩ := h.fits
  refine ⟨⟨limit, bound, ?_⟩, h.grounded⟩
  simp only [Machine.push, CallStack.push, CallStack.depth, List.length_cons] at left ⊢
  omega

theorem setScope (h : m.Bounded room) (lexical varScope : EnvironmentId) :
    (m.setScope lexical varScope).Bounded room := by
  obtain ⟨limit, bound, left⟩ := h.fits
  refine ⟨⟨limit, bound, ?_⟩, h.grounded⟩
  rw [show (m.setScope lexical varScope).stack.depth = m.stack.depth by
    simp only [Machine.setScope, CallStack.setScope, CallStack.depth]
    split <;> simp_all]
  exact left

theorem after (h : m.Bounded room) (remains : m.Remains m')
    (grounded : m.heap.Grounded → m'.heap.Grounded) : m'.Bounded room := by
  obtain ⟨limit, bound, left⟩ := h.fits
  exact ⟨⟨limit, remains.1.2 ▸ bound, remains.1.1 ▸ left⟩, grounded h.grounded⟩

end Machine.Bounded

def Engine.EndsWithin (engine : Engine σ) (room size : Nat) : Prop :=
  ∀ {α : Type} {x : Action σ α} {full : Bool} {known : Nat} {aborted : Bool}
    {ok : α → Bool → Prop} {m : Machine σ}, x.Measured full size known aborted ok →
    m.isFull = full → known ≤ m.heap.objects.size → m.Bounded room →
    (aborted = false → m.Within) → engine.Calm x m → engine.Ends x m

def Invocation.rank (invocation : Invocation) : Nat :=
  match invocation.callee with
  | .object o => o.index + 1
  | _ => 0

section

variable {engine : Engine σ} (builtins : engine.host = []) {room : Nat} {m : Machine σ}

include builtins

theorem Engine.GoesOn.accounts {l l' : Loop} {m' : Machine σ} (goes : engine.GoesOn (l, m) (l', m')) :
    m.Accounts false m' false :=
  (Loop.measured_round (Nat.le_refl _)).accounts (remains_kept.total engine)
    (Engine.total_account builtins) goes

theorem Engine.loop_ends {body : Stmt}
    (rounds : ∀ (l : Loop) (m : Machine σ), l.body = body → m.Bounded room → m.Within → engine.Calm (l.round engine.shortcuts).run m → engine.Ends (l.round engine.shortcuts).run m)
    {l : Loop} {next : Except Fault Completion → Action σ α} (hl : l.body = body)
    (bounded : m.Bounded room) (within : m.Within) (calm : engine.Calm (.loop l next) m) :
    ∃ r m', engine.total.loop l m = .finished r m' := by
  by_contra forever
  -- A loop that goes on forever has a next round, from which it goes on forever too.
  let Lasts (turn : Loop × Machine σ) : Prop :=
    turn.1.body = body ∧ turn.2.Bounded room ∧ turn.2.Within ∧
      engine.Calm (.loop turn.1 next) turn.2 ∧
        ¬ ∃ r m', engine.total.loop turn.1 turn.2 = .finished r m'
  have onward : ∀ turn, Lasts turn → ∃ turn', Lasts turn' ∧ engine.GoesOn turn turn' := by
    rintro ⟨l, m⟩ ⟨hl, bounded, within, calm, forever⟩
    obtain ⟨r, m', round⟩ := rounds l m hl bounded within fun l' m' meets => calm l' m' meets.inRound
    rcases r with fault | step
    · exact absurd ⟨_, _, (engine.total_loop l m).trans (congrArg _ round)⟩ forever
    · cases step with
      | done completion =>
        exact absurd ⟨_, _, (engine.total_loop l m).trans (congrArg _ round)⟩ forever
      | again l' =>
        have goes : engine.GoesOn (l, m) (l', m') := round
        have accounts := goes.accounts builtins
        obtain ⟨value, environment, rfl⟩ := Loop.round_again engine.shortcuts round
        refine ⟨(_, m'), ⟨(Loop.entered_body ..).trans hl, ?_, ?_, ?_, ?_⟩, goes⟩
        · exact bounded.after (remains_kept.action (remains_kept.total engine) round)
            accounts.grounded
        · exact accounts.within (fun _ => within) rfl
        · exact fun l' m'' meets => calm l' m'' (.again round meets)
        · rintro ⟨r, m'', rest⟩
          exact forever ⟨r, m'', (engine.total_loop l m).trans ((congrArg _ round).trans rest)⟩
  choose! follow lasts goes using onward
  let turns (n : Nat) : Loop × Machine σ := follow^[n] (l, m)
  have step (n : Nat) : turns (n + 1) = follow (turns n) := Function.iterate_succ_apply' follow n _
  have all (n : Nat) : Lasts (turns n) := by
    induction n with
    | zero => exact ⟨hl, bounded, within, calm, forever⟩
    | succ n ih => exact step n ▸ lasts _ ih
  have on (n : Nat) : engine.GoesOn (turns n) (turns (n + 1)) := step n ▸ goes _ (all n)
  have spends (n k : Nat) : Limit.Spends (turns n).2.limits (turns (n + k)).2.limits := by
    induction k with
    | zero => exact .refl _
    | succ k ih => exact ih.trans ((on (n + k)).accounts builtins).spends
  -- From the round on where least is left of the budgets, nothing is drawn on them.
  let left (n : Nat) : Nat := ((turns n).2.limits.map Limit.left).sum
  let least := Function.argmin left
  refine (all least).2.2.2.1 _ _ .round ⟨fun n => turns (least + n), rfl, fun n => ?_⟩
  refine ⟨on (least + n), (spends least n).same ?_ (all (least + n)).2.2.1⟩
  exact Nat.le_antisymm (spends least n).left (Function.argmin_le left (least + n))

theorem Engine.invoke_ends (grounded : m.heap.Grounded)
    (frames : ∀ x : Eval σ Value, (∀ full size known, Measured full size known x) → engine.Calm x.run m → engine.Ends x.run m)
    (invocation : Invocation) (calm : engine.Calm (invocation.eval engine).run m) :
    ∃ r m', engine.total.invoke invocation m = .finished r m' := by
  induction rank : invocation.rank using Nat.strong_induction_on generalizing invocation with
  | _ rank ih =>
  obtain ⟨γ, view, next, run, enters⟩ := invocation.enters builtins
  have entered := enters m
  rw [engine.total_invoke]
  simp only [Answers.eval, run, run_read]
  rw [run] at calm
  replace calm : engine.Calm (next (view m)) m := fun l m' meets => calm l m' meets.read
  generalize next (view m) = x at entered calm
  cases entered with
  | frames h => exact frames _ h calm
  | @handsOn o f handed callee bound target =>
    have older : f.target.index < o.index := grounded o f (Object.callable?_eq_some.1 bound)
    obtain ⟨r, m', answer⟩ := ih handed.rank
      (by simp only [← rank, Invocation.rank, callee, target]; omega) handed
      (fun l m' meets => calm l m' meets.inCall) rfl
    exact ⟨r, m', by simp [answer]⟩

theorem Engine.endsWithin_step {size : Nat}
    (frames : ∀ room' < room, ∀ size, engine.EndsWithin room' size)
    (smaller : ∀ size' < size, engine.EndsWithin room size') : engine.EndsWithin room size := by
  have keep := remains_kept.total engine
  have account := Engine.total_account builtins
  intro α x full known aborted ok m h hm le bounded within calm
  induction x generalizing full known aborted m with
  | pure a => exact ⟨a, _, rfl⟩
  | read view next ih =>
    exact ih _ (h m hm le) hm (Nat.le_refl _) bounded within fun l m' meets =>
      calm l m' meets.read
  | perform effect next ih =>
    obtain ⟨measured, rest⟩ := h m hm le
    have remains := remains_kept.effect effect m
    have accounts := measured.accounts aborted
    exact ih _ rest (remains.isFull.trans hm) (Nat.le_trans le remains.2.size)
      (bounded.after remains accounts.grounded)
      (accounts.within within) fun l m' meets => calm l m' meets.perform
  | inScope lexical varScope body next ihBody ih =>
    obtain ⟨b, m₁, run⟩ := ihBody h ((m.isFull_setScope ..).trans hm) le (bounded.setScope ..)
      within fun l m' meets => calm l m' meets.inScope
    have remains := remains_kept.scope _ _ (remains_kept.action keep run)
    obtain ⟨aborted₁, rest, accounts⟩ :=
      Action.Measured.accounts keep account (x := body) h ((m.isFull_setScope ..).trans hm) le run
    obtain ⟨a, m', done⟩ := ih b rest (remains.isFull.trans hm)
      (Nat.le_trans le remains.2.size)
      (bounded.after remains accounts.grounded)
      (accounts.within within) fun l m' meets => calm l m' (.afterScope run meets)
    exact ⟨a, m', by rw [run_inScope, run]; exact done⟩
  | inFrame frame body next ihBody ih =>
    obtain ⟨rfl, inner⟩ := h
    cases room with
    | zero => exact absurd bounded.isFull (Bool.eq_false_iff.1 hm)
    | succ room =>
      obtain ⟨large, hbody⟩ := inner (m.push frame).isFull
      obtain ⟨b, m₁, run⟩ := frames room (Nat.lt_succ_self room) large hbody rfl le
        (bounded.push frame) within fun l m' meets => calm l m' meets.inFrame
      have remains := remains_kept.frame frame (remains_kept.action keep run)
      obtain ⟨aborted₁, rest, accounts⟩ :=
        Action.Measured.accounts keep account hbody rfl le run
      obtain ⟨a, m', done⟩ := ih b rest (remains.isFull.trans hm)
        (Nat.le_trans le remains.2.size)
        (bounded.after remains accounts.grounded)
        (accounts.within within) fun l m' meets => calm l m' (.afterFrame run meets)
      exact ⟨a, m', by rw [run_inFrame, run]; exact done⟩
  | invoke invocation next ih =>
    obtain ⟨rfl, pos, rest⟩ := h
    obtain ⟨r, m₁, answer⟩ := Engine.invoke_ends builtins bounded.grounded
      (fun x measured calm => smaller 0 pos (measured m.isFull 0 0) rfl (Nat.zero_le _) bounded
        within calm) invocation fun l m' meets => calm l m' meets.inCall
    have remains := keep.invoke answer
    have accounts := account.invoke answer
    obtain ⟨a, m', done⟩ := ih r (rest r) (remains.isFull.trans hm)
      (Nat.le_trans le remains.2.size)
      (bounded.after remains accounts.grounded)
      (accounts.within within) fun l m' meets => calm l m' (.afterCall answer meets)
    exact ⟨a, m', by rw [run_invoke, answer]; exact done⟩
  | loop l next ih =>
    obtain ⟨rfl, repeated, rest⟩ := h
    have rounds (l' : Loop) (m : Machine σ) (hl : l'.body = l.body) (bounded : m.Bounded room)
        (within : m.Within) (calm : engine.Calm (l'.round engine.shortcuts).run m) :
        engine.Ends (l'.round engine.shortcuts).run m := by
      have measured : Measured m.isFull (sizeOf l.body) 0
          (l'.round engine.shortcuts : Eval σ Loop.Step) :=
        Loop.measured_round (Nat.le_of_eq (congrArg _ hl))
      exact smaller _ repeated measured rfl (Nat.zero_le _) bounded (fun _ => within) calm
    obtain ⟨r, m₁, answer⟩ := Engine.loop_ends builtins rounds rfl bounded (within rfl)
      calm
    have remains := keep.loop answer
    have accounts := account.loop answer
    obtain ⟨a, m', done⟩ := ih r (rest r) (remains.isFull.trans hm)
      (Nat.le_trans le remains.2.size)
      (bounded.after remains accounts.grounded)
      (accounts.within within) fun l m' meets => calm l m' (.afterLoop answer meets)
    exact ⟨a, m', by rw [run_loop, answer]; exact done⟩

theorem Engine.endsWithin (room size : Nat) : engine.EndsWithin room size := by
  induction room using Nat.strong_induction_on generalizing size with
  | _ room frames =>
  induction size using Nat.strong_induction_on with
  | _ size smaller => exact Engine.endsWithin_step builtins frames smaller

end

theorem Program.entered_within (program : Program) (m : Machine σ) :
    (program.entered m).Within := by
  intro limit found
  obtain ⟨limit, -, rfl⟩ := List.mem_map.1 found
  cases limit with
  | statements budget => exact Nat.zero_le _
  | cancellation => trivial

theorem Program.run_result {A : Answers σ} {shortcuts : Bool} {program : Program} {m m' : Machine σ}
    {fault : Fault} (run : A.eval (program.run shortcuts) m = .finished (.error fault) m') :
    fault.isHostAbort = true := by
  rw [Answers.eval_run, andThen_eq_finished] at run
  obtain ⟨r, m₁, body, left⟩ := run
  cases left
  rw [runBody, eval_handle, andThen_eq_finished] at body
  obtain ⟨r, m₂, -, rest⟩ := body
  cases r with
  | ok completion => cases rest
  | error fault' =>
    dsimp only at rest
    split at rest
    · cases rest
      assumption
    · obtain ⟨v, m₃, value⟩ := exists_faultValue A fault' m₂
      rw [eval_bind, value] at rest
      cases rest

/-- With a bound on the depth of the stack, a script ends, with a completion or with a host abort,
exactly if it comes by no loop that goes round forever while the limits stay as they are. With a
budget among the limits, these are loops that go round without a statement being counted. -/
theorem run_ends_iff {engine : Engine σ} (builtins : engine.host = [])
    {change : Machine σ → Machine σ → Prop}
    (grounded : ∀ m m', change m m' → m.heap.Grounded → m'.heap.Grounded) {m : Machine σ}
    (reachable : engine.Reachable change m) {limit : Nat}
    (depth : m.options.maxRecursionDepth = some limit) (program : Program) :
    (∃ fuel r m', engine.run fuel (program.run engine.shortcuts) m = .finished r m' ∧
        ∀ fault, r = .error fault → fault.isHostAbort = true) ↔
      ∀ l m', engine.Meets (program.run engine.shortcuts).run m (.round l m') →
        ¬ engine.Spins l m' := by
  constructor
  · rintro ⟨fuel, r, m', run, -⟩ l m₁ meets spins
    have never := meets.not_ends rfl spins
    have done := engine.exists_run_iff.1 ⟨fuel, run⟩
    rw [Answers.eval, never] at done
    cases done
  · intro calm
    obtain ⟨size, measured⟩ := program.measured_runBody (σ := σ) engine.shortcuts
      m.realm.globalEnvironment
    have bounded : (program.entered m).Bounded (limit - (program.entered m).stack.depth) :=
      ⟨⟨limit, depth, rfl⟩, reachable.grounded builtins grounded⟩
    obtain ⟨r, m₁, body⟩ := Engine.endsWithin builtins _ size
      (measured (program.entered m).isFull 0) rfl (Nat.zero_le _) bounded
      (fun _ => program.entered_within m) fun l m' meets => calm l m' (.perform (.read (.read
        (.inFrame meets))))
    have run : engine.total.eval (program.run engine.shortcuts) m = .finished r m₁.pop := by
      rw [Answers.eval_run, Answers.eval, body]
      rfl
    obtain ⟨fuel, done⟩ := engine.exists_run_iff.2 run
    exact ⟨fuel, r, m₁.pop, done, fun fault failed => Program.run_result (failed ▸ run)⟩

def Loop.idle : Loop := .whileLoop (.literal (.boolean true) {}) (.empty {}) [] .undefined false

theorem Loop.idle_spins (engine : Engine σ) {m : Machine σ} : engine.Spins .idle m :=
  ⟨fun _ => (.idle, m), rfl, fun _ => ⟨rfl, rfl⟩⟩

/-- Where two statements and ten frames are allowed, the script `while (true) ;` never ends. -/
theorem run_ends_iff_idle :
    let engine : Engine Unit := { host := [] }
    let program : Program :=
      { body := [.whileLoop (.literal (.boolean true) {}) (.empty {}) {}], strict := false, span := {} }
    ∃ m, engine.Reachable (fun _ m => m.heap.Grounded) m ∧
      m.limits = [.statements { limit := 2 }] ∧ m.options.maxRecursionDepth = some 10 ∧
        ¬ ∃ fuel r m', engine.run fuel (program.run engine.shortcuts) m = .finished r m' ∧
          ∀ fault, r = .error fault → fault.isHostAbort = true := by
  intro engine program
  let m : Machine Unit :=
    { Machine.bare with
      limits := [.statements { limit := 2 }], options := { maxRecursionDepth := some 10 } }
  have reachable : engine.Reachable (fun _ m => m.heap.Grounded) m :=
    .change (.start {} ()) fun o f bound => by cases bound
  refine ⟨m, reachable, rfl, rfl, fun ends => ?_⟩
  have calm := (run_ends_iff rfl (fun _ _ kept _ => kept) reachable rfl program).1 ends
  -- The script comes by the loop once its only statement is counted.
  let counted := ((Effect.checkLimits : Effect Unit _).apply (program.entered m)).2
  let statement : Eval Unit Completion := whileStatement (.literal (.boolean true) {}) (.empty {}) []
  have loop : engine.Meets statement.run counted (.round .idle counted) := .next rfl .round
  have listed : engine.Meets (listed 0 none {} statement).run (program.entered m)
      (.round .idle counted) := .next rfl loop.bind.bind.bind.bind
  have body : engine.Meets (do
      declareGlobals m.realm.globalEnvironment program.scope
      evalStatements engine.shortcuts program.body : Eval Unit Completion).run (program.entered m)
      (.round .idle counted) := by
    refine .next rfl (.next rfl ?_)
    simp only [program, evalFrom]
    exact listed.bind
  exact calm .idle counted (.perform (.read (.read (.inFrame body.bind.bind))))
    (Loop.idle_spins engine)

end ScriptEngine
