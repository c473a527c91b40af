import ScriptEngine.Proofs.Generator.Recording

/-!
# Suspending and resuming

`Eval.Resumes E F` says of an evaluation that it can be entered with records in `E`, that it leaves
records in `F` when it suspends, and that it leaves none when it ends.
-/

namespace ScriptEngine

variable {σ α β : Type} {cancelled : Bool} {fault : Fault}

namespace Machine

def Quiet (m : Machine σ) : Prop := ∀ records, m.records = some records → records = ([], none)

def Replays (E : List ResumePoint → Prop) (m : Machine σ) : Prop :=
  ∃ points resumption, m.records = some (points, some resumption) ∧ E points

def Unwinds (F : List ResumePoint → Prop) (m : Machine σ) : Prop :=
  ∃ points, m.records = some (points, none) ∧ F points

def Left (m : Machine σ) (F : List ResumePoint → Prop) (fault : Option Fault) : Prop :=
  match fault with
  | none => m.Quiet
  | some (.suspended _) => m.Unwinds F
  | some fault => fault.isHostAbort = true ∨ m.Quiet

def Continues (m : Machine σ) (F : List ResumePoint → Prop) (r : Except Fault α)
    (m' : Machine σ) : Prop :=
  m'.Orderly ∧ m.Advances m' ∧ m'.Left F (Except.fault? r)

variable {m m' : Machine σ} {E F : List ResumePoint → Prop} {fault : Option Fault}

theorem Quiet.congr (h : m.Quiet) (records : m'.records = m.records) : m'.Quiet := by
  unfold Quiet
  rwa [records]

theorem Left.congr (h : m.Left F fault) (records : m'.records = m.records) : m'.Left F fault := by
  unfold Left Quiet Unwinds at *
  rwa [records]

theorem Left.of_quiet (unsuspended : ∀ v, fault ≠ some (.suspended v)) (h : m.Quiet) :
    m.Left F fault := by
  unfold Left
  split
  · exact h
  · exact absurd rfl (unsuspended _)
  · exact .inr h

theorem Left.mono {F' : List ResumePoint → Prop} (h : m.Left F fault)
    (wider : ∀ points, F points → F' points) : m.Left F' fault := by
  unfold Left at *
  split at h
  · exact h
  · obtain ⟨points, records, left⟩ := h
    exact ⟨points, records, wider points left⟩
  · exact h

theorem not_replays : ¬m.Replays fun _ => False := fun ⟨_, _, _, fits⟩ => fits

variable (m) in
theorem records_setScope (lexical varScope : EnvironmentId) :
    (m.setScope lexical varScope).records = m.records := by
  simp only [records, runningGenerator?_eq, links_setScope]
  rfl

variable (m) in
theorem strict_setScope (lexical varScope : EnvironmentId) :
    (m.setScope lexical varScope).strict = m.strict := by
  simp only [strict, setScope, CallStack.setScope, CallStack.running?]
  split <;> simp_all

theorem Steady.records (steady : m.Steady m') (h : m.Orderly) : m'.records = m.records := by
  simp only [Machine.records, steady.runningGenerator?]
  cases hr : m.runningGenerator? with
  | none => rfl
  | some g =>
    obtain ⟨generator, hg, executing⟩ := h.running hr
    simp [hg, steady.executing g generator hg executing]

theorem Quiet.takeResumePoint (quiet : m.Quiet) (orderly : m.Orderly) :
    Effect.takeResumePoint.apply m = (none, m) := by
  cases hr : m.records with
  | none => simp [Effect.apply, orderly.records_eq_none.1 hr]
  | some records =>
    cases quiet _ hr
    rw [takeResumePoint_apply hr]
    exact congrArg (Prod.mk _) (setRecords_self hr)

end Machine

theorem Limit.check_limitExceeded {limit : Limit} (h : (limit.check cancelled).1 = .error fault) :
    ∃ excess, fault = .limitExceeded excess := by
  cases limit with
  | statements budget =>
    simp only [Limit.check, StatementBudget.check] at h
    split at h <;> cases h
    exact ⟨_, rfl⟩
  | cancellation =>
    simp only [Limit.check] at h
    split at h <;> cases h
    exact ⟨_, rfl⟩

theorem Limit.checkAll_limitExceeded {limits : List Limit}
    (h : (Limit.checkAll cancelled limits).1 = .error fault) :
    ∃ excess, fault = .limitExceeded excess := by
  induction limits with
  | nil => cases h
  | cons limit rest ih =>
    simp only [Limit.checkAll] at h
    split at h
    · rename_i check
      cases h
      exact Limit.check_limitExceeded (congrArg Prod.fst check)
    · exact ih h

theorem Limit.checkAll_isHostAbort {limits : List Limit}
    (h : (Limit.checkAll cancelled limits).1 = .error fault) : fault.isHostAbort = true := by
  obtain ⟨excess, rfl⟩ := Limit.checkAll_limitExceeded h
  rfl

namespace Eval

/-- Entered with records in `E` or with none, leaves records in `F` when it suspends and none when
it ends. -/
def Resumes (P : Promises σ) (strict : Bool) (E F : List ResumePoint → Prop) (x : Eval σ α) :
    Prop :=
  ∀ m, m.Orderly → m.strict = strict → m.Quiet ∨ m.Replays E →
    x.Safe Moment.Orderly P m (m.Continues F)

def Starts (P : Promises σ) (strict : Bool) (F : List ResumePoint → Prop) (x : Eval σ α) : Prop :=
  Resumes P strict (fun _ => False) F x

variable {P : Promises σ} {strict : Bool} {E F : List ResumePoint → Prop} {x : Eval σ α}

theorem Resumes.mono [P.Lawful] {D G : List ResumePoint → Prop}
    (h : Resumes P strict E F x) (entry : ∀ points, D points → E points)
    (exit : ∀ points, F points → G points) : Resumes P strict D G x := by
  intro m orderly hs entered
  have entered : m.Quiet ∨ m.Replays E := entered.imp id fun ⟨points, w, records, he⟩ =>
    ⟨points, w, records, entry points he⟩
  refine (h m orderly hs entered).mono fun r m' post => ?_
  exact ⟨post.1, post.2.1, post.2.2.mono exit⟩

theorem Resumes.starts [P.Lawful] (h : Resumes P strict E F x) :
    Starts P strict F x := h.mono nofun fun _ left => left

theorem Resumes.after [P.Lawful] (hx : Resumes P strict E F x) {m m₁ : Machine σ}
    (orderly₁ : m₁.Orderly) (advances : m.Advances m₁) (hs : m.strict = strict)
    (entered : m₁.Quiet ∨ m₁.Replays E) : x.Safe Moment.Orderly P m₁ (m.Continues F) :=
  (hx m₁ orderly₁ (advances.strict.trans hs) entered).mono fun _ _ post =>
    ⟨post.1, advances.trans post.2.1, post.2.2⟩

/-! ## Ordinary parts -/

theorem Ordinary.starts [P.Lawful] (h : Ordinary P x) : Starts P strict F x := by
  intro m orderly _ entered
  have quiet : m.Quiet := entered.resolve_right Machine.not_replays
  refine (h m orderly).mono fun r m' post => ?_
  obtain ⟨orderly', steady, unsuspended⟩ := post
  refine ⟨orderly', steady.advances, .of_quiet ?_ (quiet.congr (steady.records orderly))⟩
  cases r with
  | ok a => nofun
  | error fault => simpa [Except.fault?] using unsuspended_error.1 unsuspended

theorem starts_pure (a : α) : Starts P strict F (pure a : Eval σ α) :=
  fun _ orderly _ entered =>
    ⟨orderly, (Machine.Steady.of_eq rfl rfl).advances,
      entered.resolve_right Machine.not_replays⟩

theorem Resumes.bind [P.Lawful] {f : α → Eval σ β} (hx : Resumes P strict E F x)
    (hf : ∀ a, Starts P strict F (f a)) : Resumes P strict E F (x >>= f) := by
  intro m orderly hs entered
  rw [safe_bind]
  refine (hx m orderly hs entered).mono fun r m₁ post => ?_
  obtain ⟨orderly₁, advances, left⟩ := post
  cases r with
  | ok a => exact (hf a).after orderly₁ advances hs (.inl left)
  | error fault => exact ⟨orderly₁, advances, left⟩

theorem Resumes.ask {view : Machine σ → α} {f : α → Eval σ β}
    (h : ∀ m, m.strict = strict → Resumes P strict E F (f (view m))) :
    Resumes P strict E F (Eval.ask view >>= f) :=
  fun m orderly hs entered => ⟨orderly, h m hs m orderly hs entered⟩

theorem resumes_inScope [P.Lawful] (h : Resumes P strict E F x)
    (lexical : EnvironmentId) (varScope : Option EnvironmentId) :
    Resumes P strict E F (ExceptT.mk (.inScope lexical varScope x.run .pure) : Eval σ α) := by
  intro m orderly hs entered
  have records := m.records_setScope lexical (varScope.getD m.varScope)
  refine (h _ (orderly.setScope _ _) ((m.strict_setScope _ _).trans hs) ?_).mono
    fun r m' post => ?_
  · simpa only [Machine.Quiet, Machine.Replays, records] using entered
  · exact ⟨post.1.setScope _ _, post.2.1.leaveScope, post.2.2.congr (m'.records_setScope _ _)⟩

theorem resumes_within [P.Lawful] (h : Resumes P strict E F x)
    (scope : EnvironmentId) : Resumes P strict E F (within scope x) :=
  resumes_inScope h scope none

theorem resumes_withinBody [P.Lawful] (h : Resumes P strict E F x)
    (scope : EnvironmentId) : Resumes P strict E F (withinBody scope x) :=
  resumes_inScope h scope (some scope)

theorem Resumes.detached [P.Lawful] {E F : Bool → List ResumePoint → Prop}
    (h : ∀ strict, Resumes P strict (E strict) (F strict) x) : Detached P x := by
  intro m orderly free
  have quiet : m.Quiet := fun records hr => by simp [orderly.records_eq_none.2 free] at hr
  refine (h m.strict m orderly rfl (.inl quiet)).mono fun r m' post => ?_
  obtain ⟨orderly', advances, left⟩ := post
  refine ⟨orderly', advances.steady free, fun v hv => ?_⟩
  subst hv
  obtain ⟨points, hr, _⟩ := left
  have free' := orderly'.records_eq_none.2 (advances.running.trans free)
  simp [hr] at free'

theorem Resumes.take [P.Lawful] {reading : ResumePoint → Option α}
    {D : α → List ResumePoint → Prop} {next : Option α → Eval σ β}
    (entry : ∀ points, E points → ∃ point a rest, points = point :: rest ∧
      reading point = some a ∧ D a rest)
    (fresh : Starts P strict F (next none))
    (resumed : ∀ a, (∃ rest, D a rest) → Resumes P strict (D a) F (next (some a))) :
    Resumes P strict E F (takeRecord reading >>= next) := by
  intro m orderly hs entered
  rw [safe_bind, takeRecord, safe_bind, safe_perform]
  rcases entered with quiet | ⟨points, resumption, hr, fits⟩
  · rw [quiet.takeResumePoint orderly]
    exact ⟨.of_eq rfl, fresh m orderly hs (.inl quiet)⟩
  · obtain ⟨point, a, rest, rfl, read, fits⟩ := entry points fits
    rw [Machine.takeResumePoint_apply hr]
    refine ⟨.setRecords hr, ?_⟩
    simp only [List.head?_cons, List.tail_cons, After, read]
    exact (resumed a ⟨rest, fits⟩).after (orderly.setRecords hr)
      (.setRecords orderly hr) hs (.inr ⟨rest, resumption, Machine.records_setRecords hr, fits⟩)

theorem resumes_recording [P.Lawful] {F' : List ResumePoint → Prop}
    (hx : Resumes P strict E F x) {point : ResumePoint}
    (around : ∀ rest, F rest → F' (point :: rest)) : Resumes P strict E F' (recording point x) := by
  intro m orderly hs entered
  rw [recording, safe_bind, safe_outcome]
  refine (hx m orderly hs entered).mono fun r m₁ post => ?_
  obtain ⟨orderly₁, advances, left⟩ := post
  cases r with
  | ok a => exact ⟨orderly₁, advances, left⟩
  | error fault =>
    cases fault with
    | suspended v =>
      obtain ⟨points, hr, left⟩ := left
      have next : m₁.Advances (m₁.setRecords (point :: points) none) :=
        .setRecords orderly₁ hr
      change Safe _ _ (perform (.pushResumePoint point) >>= fun _ => throw _) m₁ _
      rw [safe_bind, safe_perform, Machine.pushResumePoint_apply hr]
      exact ⟨.setRecords hr, orderly₁.setRecords hr, advances.trans next,
        point :: points, Machine.records_setRecords hr, around points left⟩
    | _ => exact ⟨orderly₁, advances, left⟩

theorem Resumes.checkLimits [P.Lawful] {next : Unit → Eval σ α}
    (h : Resumes P strict E F (next ())) :
    Resumes P strict E F (attempt .checkLimits >>= next) := by
  intro m orderly hs entered
  have steady : m.Steady (Effect.checkLimits.apply m).2 := .of_eq rfl rfl
  have records : (Effect.checkLimits.apply m).2.records = m.records := rfl
  have orderly₁ : (Effect.checkLimits.apply m).2.Orderly := orderly.congr rfl rfl
  rw [safe_bind, safe_attempt]
  refine ⟨.of_eq rfl, ?_⟩
  cases result : (Effect.checkLimits.apply m).1 with
  | error fault =>
    refine ⟨orderly₁, steady.advances, ?_⟩
    have abort := Limit.checkAll_isHostAbort result
    simp only [Except.fault?, Machine.Left]
    cases fault with
    | suspended v => cases abort
    | _ => exact .inl abort
  | ok _ => exact h.after orderly₁ steady.advances hs entered

theorem resumes_settle [P.Lawful] (calls : P.Orderly) {x : Eval σ Completion}
    (hx : Resumes P strict E F x) (span : Span) :
    Resumes P strict E F (outcome x >>= settle span) := by
  intro m orderly hs entered
  rw [safe_bind, safe_outcome]
  refine (hx m orderly hs entered).mono fun r m₁ post => ?_
  obtain ⟨orderly₁, advances, left⟩ := post
  cases r with
  | ok a => exact ⟨orderly₁, advances, left⟩
  | error fault =>
    by_cases passes : fault.isSuspension || fault.isHostAbort
    · simp only [After, settle, passes, if_true]
      exact ⟨orderly₁, advances, left⟩
    · simp only [After, settle, passes]
      have quiet : m₁.Quiet := by
        cases fault <;>
          simp_all [Machine.Left, Except.fault?, Fault.isSuspension, Fault.isHostAbort]
      have value := (simple_faultValue fault).plain.ordinary calls
      exact (value.starts.bind fun _ => starts_pure _).after
        orderly₁ advances hs (.inl quiet)

def deliver (span : Span) : Option Resumption → Eval σ Yielded
  | none => pure (.value .undefined)
  | some (.next v) => pure (.value v)
  | some (.return v) => pure (.return v)
  | some (.throw v) => throw (.thrown v span)

theorem resumes_resumeAt [P.Lawful] (span : Span) :
    Resumes P strict (· = []) F (resumeAt span : Eval σ Yielded) := by
  intro m orderly hs entered
  rw [resumeAt, safe_bind, safe_perform]
  have delivered (w : Option Resumption) : Starts P strict F (deliver span w : Eval σ _) := by
    rcases w with _ | v | v | v
    · exact starts_pure _
    · exact starts_pure _
    · exact fun m orderly _ entered => ⟨orderly, (Machine.Steady.of_eq rfl rfl).advances,
        .inr (entered.resolve_right Machine.not_replays)⟩
    · exact starts_pure _
  cases hr : m.records with
  | none =>
    have free := orderly.records_eq_none.1 hr
    have quiet : m.Quiet := fun records hr' => by simp [hr] at hr'
    simp only [Effect.apply, free]
    exact ⟨.of_eq rfl, delivered none m orderly hs (.inl quiet)⟩
  | some records =>
    obtain ⟨w, rfl⟩ : ∃ w, records = ([], w) := by
      rcases entered with quiet | ⟨points, w, hr', rfl⟩
      · exact ⟨none, quiet _ hr⟩
      · exact ⟨some w, by simpa [hr] using hr'⟩
    have quiet : (m.setRecords [] none).Quiet := fun records hr' => by
      simpa [Machine.records_setRecords hr] using hr'.symm
    rw [Machine.takeResumption_apply hr]
    exact ⟨.setRecords hr, (delivered w).after (orderly.setRecords hr)
      (.setRecords orderly hr) hs (.inl quiet)⟩

theorem starts_suspendAt [P.Lawful] {operand : Eval σ Value}
    (h : Ordinary P operand) (slot : Nat) (span : Span) :
    Starts P strict (AtYield (· = slot)) (suspendAt operand slot span) := by
  intro m orderly hs entered
  have quiet : m.Quiet := entered.resolve_right Machine.not_replays
  rw [suspendAt, safe_bind, safe_ask]
  refine ⟨orderly, ?_⟩
  cases hr : m.records with
  | none =>
    simp only [orderly.records_eq_none.1 hr, After]
    exact ⟨orderly, (Machine.Steady.of_eq rfl rfl).advances, .inr quiet⟩
  | some records =>
    obtain ⟨g, generator, running, -⟩ := Machine.records_eq_some.1 hr
    simp only [running, After]
    rw [safe_bind]
    refine (h m orderly).mono fun r m₁ post => ?_
    obtain ⟨orderly₁, steady, unsuspended⟩ := post
    have hr₁ : m₁.records = some ([], none) := by rw [steady.records orderly, hr, quiet _ hr]
    cases r with
    | error fault =>
      refine ⟨orderly₁, steady.advances, .of_quiet ?_ fun records hr' => ?_⟩
      · simpa [Except.fault?] using unsuspended_error.1 unsuspended
      · simpa [hr₁] using hr'.symm
    | ok v =>
      change Safe _ _ (perform (.pushResumePoint (.yield slot)) >>= fun _ => throw _) m₁ _
      rw [safe_bind, safe_perform, Machine.pushResumePoint_apply hr₁]
      exact ⟨.setRecords hr₁, orderly₁.setRecords hr₁,
        steady.advances.trans (.setRecords orderly₁ hr₁), _, Machine.records_setRecords hr₁, slot, rfl,
        rfl⟩

theorem resumes_yieldAt [P.Lawful] {operand : Eval σ Value}
    (h : Ordinary P operand) (slot : Nat) (span : Span) (resumed : Option Nat) :
    Resumes P strict (fun points => points = [] ∧ resumed = some slot) (AtYield (· = slot))
      (yieldAt operand slot span resumed) := by
  unfold yieldAt
  split
  · exact (resumes_resumeAt span).mono (fun _ entry => entry.1) fun _ left => left
  · rename_i other
    exact (starts_suspendAt h slot span).mono (fun _ entry => other entry.2)
      fun _ left => left

end Eval

end ScriptEngine
