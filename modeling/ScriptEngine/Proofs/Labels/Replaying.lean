import ScriptEngine.Proofs.Generator.Resuming
import ScriptEngine.Proofs.Labels.Tree

/-!
# What code makes of the records of its generator

The code of a body takes and leaves records of the generator that it runs in. Of the rest of the
machine only the strictness of the code matters for this.
-/

namespace ScriptEngine

variable {σ α β : Type}

abbrev Records := Option (List ResumePoint)

/-! ## Entering and leaving -/

namespace Records

def Quiet (points : Records) : Prop := ∀ left, points = some left → left = []

def Enters (E : List ResumePoint → Prop) (points : Records) : Prop :=
  points.Quiet ∨ ∃ left, points = some left ∧ E left

def Ends (F : List ResumePoint → Prop) (T : α → Prop) (points : Records) :
    Except Fault α → Prop
  | .ok a => points.Quiet ∧ T a
  | .error (.suspended _) => ∀ left, points = some left → F left
  | .error fault => fault.isHostAbort = true ∨ points.Quiet

variable {E F F' : List ResumePoint → Prop} {T T' : α → Prop} {points : Records}

theorem Ends.mono {r : Except Fault α} (h : points.Ends F T r)
    (wider : ∀ left, F left → F' left) (weaker : ∀ a, T a → T' a) : points.Ends F' T' r := by
  match r, h with
  | .ok a, h => exact ⟨h.1, weaker a h.2⟩
  | .error fault, h =>
    cases fault with
    | suspended v => exact fun left found => wider left (h left found)
    | _ => exact h

theorem Ends.error {U : β → Prop} {fault : Fault}
    (h : points.Ends F T (.error fault : Except Fault α)) :
    points.Ends F U (.error fault : Except Fault β) := by
  cases fault <;> exact h

theorem Quiet.ends_error {fault : Fault} (quiet : points.Quiet)
    (h : points ≠ none → ∀ v, fault ≠ .suspended v) : points.Ends F T (.error fault) := by
  cases fault with
  | suspended v => exact fun left found => absurd rfl (h (by simp [found]) v)
  | _ => exact .inr quiet

theorem Quiet.head (quiet : points.Quiet) : points.bind List.head? = none := by
  cases points with
  | none => rfl
  | some left => rw [quiet left rfl]; rfl

theorem Quiet.tail (quiet : points.Quiet) : Quiet (points.map List.tail) := by
  cases points with
  | none => nofun
  | some left =>
    rw [quiet left rfl]
    rintro _ ⟨⟩
    rfl

theorem enters_false : points.Enters (fun _ => False) ↔ points.Quiet :=
  ⟨fun h => h.resolve_right fun ⟨_, _, h⟩ => h, .inl⟩

end Records

/-! ## Following the records -/

def Effect.Leads (effect : Effect σ β) (points : Records) (Q : Records → β → Prop) : Prop :=
  match effect, Q with
  | .takeResumePoint, Q => Q (points.map List.tail) (points.bind List.head?)
  | .pushResumePoint point, Q => Q (points.map (point :: ·)) ()
  | .createGenerator .., _ | .startRun .., _ | .suspend .., _ | .complete _, _ => False
  | effect, Q => ∀ m, Q points (effect.apply m).1

/-- In code of the given strictness, however the machine looks, the action leads from the records to
other records and a result that satisfy `Q`. -/
def Action.Leads (strict : Bool) :
    {α : Type} → Action σ α → Records → (Records → α → Prop) → Prop
  | _, .pure a, points, Q => Q points a
  | _, .read view next, points, Q => ∀ m, m.strict = strict → Leads strict (next (view m)) points Q
  | _, .perform effect next, points, Q =>
    effect.Leads points fun points b => Leads strict (next b) points Q
  | _, .inScope _ _ body next, points, Q =>
    Leads strict body points fun points b => Leads strict (next b) points Q
  | _, .inFrame .., _, _ => False
  | _, .invoke _ next, points, Q =>
    ∀ r, (points ≠ none → Unsuspended r) → Leads strict (next r) points Q
  | _, .loop l next, points, Q =>
    ∃ around, l.wellLabelled around = true ∧ points.Enters (l.Aims strict around) ∧
      ∀ points' r, points'.Ends (InLoop (l.BodyAims strict around)) (·.Within around) r →
        Leads strict (next r) points' Q

variable {strict : Bool}

theorem Effect.Leads.mono {effect : Effect σ β} {points : Records} {Q Q' : Records → β → Prop}
    (h : effect.Leads points Q) (weaker : ∀ points b, Q points b → Q' points b) :
    effect.Leads points Q' := by
  cases effect with
  | createGenerator | startRun | suspend | complete => exact h
  | takeResumePoint | pushResumePoint => exact weaker _ _ h
  | _ => exact fun m => weaker _ _ (h m)

theorem Effect.Plain.leads {effect : Effect σ β} (plain : effect.Plain) {points : Records}
    {Q : Records → β → Prop} (h : ∀ m, Q points (effect.apply m).1) : effect.Leads points Q := by
  cases effect with
  | createGenerator | startRun | suspend | complete | takeResumePoint | pushResumePoint =>
    exact plain.elim
  | _ => exact h

namespace Action

variable {x : Action σ α} {points : Records}

theorem Leads.mono {Q Q' : Records → α → Prop} (h : x.Leads strict points Q)
    (weaker : ∀ points a, Q points a → Q' points a) : x.Leads strict points Q' := by
  induction x generalizing points with
  | pure a => exact weaker _ _ h
  | read view next ih => exact fun m hs => ih _ (h m hs) weaker
  | perform effect next ih => exact Effect.Leads.mono h fun _ b hb => ih b hb weaker
  | inScope lexical varScope body next ihBody ih => exact ihBody h fun _ b hb => ih b hb weaker
  | inFrame frame body next _ _ => exact h
  | invoke invocation next ih => exact fun r unsuspended => ih r (h r unsuspended) weaker
  | loop l next ih =>
    obtain ⟨around, well, entered, rest⟩ := h
    exact ⟨around, well, entered, fun points' r ends => ih r (rest points' r ends) weaker⟩

theorem leads_bind {f : α → Action σ β} {Q : Records → β → Prop}
    (h : x.Leads strict points fun points a => (f a).Leads strict points Q) :
    (x.bind f).Leads strict points Q := by
  induction x generalizing points with
  | pure a => exact h
  | read view next ih => exact fun m hs => ih _ (h m hs)
  | perform effect next ih => exact Effect.Leads.mono h fun _ b hb => ih b hb
  | inScope lexical varScope body next _ ih =>
    have h : body.Leads strict points _ := h
    exact h.mono fun _ b hb => ih b hb
  | inFrame frame body next _ _ => exact h
  | invoke invocation next ih => exact fun r unsuspended => ih r (h r unsuspended)
  | loop l next ih =>
    obtain ⟨around, well, entered, rest⟩ := h
    exact ⟨around, well, entered, fun points' r ends => ih r (rest points' r ends)⟩

theorem Plain.leads {received : Option Fault} {ok : α → Option Fault → Prop}
    (plain : x.Plain received ok)
    (unsuspended : points ≠ none → ∀ v, received ≠ some (.suspended v)) :
    x.Leads strict points fun points' a => points' = points ∧
      ∃ received, (points ≠ none → ∀ v, received ≠ some (.suspended v)) ∧ ok a received := by
  induction x generalizing received with
  | pure a => exact ⟨rfl, received, unsuspended, plain⟩
  | read view next ih => exact fun m _ => ih _ (plain.2 m) nofun
  | perform effect next ih => exact plain.2.1.leads fun m => ih _ (plain.2.2 m) nofun
  | inScope lexical varScope body next ihBody ih =>
    refine (ihBody plain unsuspended).mono fun points' b post => ?_
    obtain ⟨rfl, received₁, unsuspended₁, rest⟩ := post
    exact ih b rest unsuspended₁
  | inFrame frame body next _ _ => exact plain.elim
  | invoke invocation next ih =>
    intro r hr
    refine ih r (plain.2 r) fun some => ?_
    cases r with
    | ok v => nofun
    | error fault => simpa [Except.fault?] using unsuspended_error.1 (hr some)
  | loop l next ih => exact plain.elim

end Action

namespace Eval

/-- Entered with records in `E` or with none, leaves records in `F` when it suspends and none when it
ends, with a value that satisfies `T`. -/
def Heeds (strict : Bool) (E F : List ResumePoint → Prop) (T : α → Prop)
    (x : Eval σ α) : Prop :=
  ∀ points : Records, points.Enters E → x.run.Leads strict points fun points' r =>
    points'.Ends F T r

variable {E F : List ResumePoint → Prop} {T : α → Prop} {x : Eval σ α} {f : α → Eval σ β}
  {U : β → Prop}

theorem Heeds.mono {E' F' : List ResumePoint → Prop} (h : Heeds strict E F T x)
    (entry : ∀ left, E' left → E left) (exit : ∀ left, F left → F' left) : Heeds strict E' F' T x :=
  fun points entered => (h points (entered.imp id fun ⟨left, found, he⟩ =>
    ⟨left, found, entry left he⟩)).mono fun _ _ post => post.mono exit fun _ value => value

theorem Heeds.entered {E' : List ResumePoint → Prop} (h : Heeds strict E F T x)
    (entry : ∀ left, E' left → E left) : Heeds strict E' F T x := h.mono entry fun _ left => left

theorem Heeds.fresh (h : Heeds strict E F T x) :
    Heeds strict (fun _ => False) F T x := h.entered nofun

theorem heeds_pure {a : α} (h : T a) :
    Heeds strict (fun _ => False) F T (pure a : Eval σ α) :=
  fun _ entered => ⟨Records.enters_false.1 entered, h⟩

theorem Plain.heeds (plain : Plain x) : Heeds strict (fun _ => False) F (fun _ => True) x := by
  intro points entered
  have quiet := Records.enters_false.1 entered
  refine (Action.Plain.leads plain nofun).mono fun points' r post => ?_
  obtain ⟨rfl, received, unsuspended, passes⟩ := post
  cases received with
  | some fault =>
    cases passes
    exact quiet.ends_error fun some v => by simpa using unsuspended some v
  | none => cases r with
    | ok a => exact ⟨quiet, trivial⟩
    | error fault => exact quiet.ends_error fun _ => unsuspended_error.1 passes

theorem heeds_bind (hx : Heeds strict E F T x)
    (hf : ∀ a, T a → Heeds strict (fun _ => False) F U (f a)) : Heeds strict E F U (x >>= f) := by
  intro points entered
  refine Action.leads_bind ((hx points entered).mono fun points₁ r post => ?_)
  cases r with
  | ok a => exact hf a post.2 points₁ (.inl post.1)
  | error fault => exact post.error

theorem Plain.before (plain : Plain x) (hf : ∀ a, Heeds strict (fun _ => False) F U (f a)) :
    Heeds strict (fun _ => False) F U (x >>= f) := heeds_bind plain.heeds fun a _ => hf a

theorem heeds_ask {view : Machine σ → α}
    (h : ∀ m, m.strict = strict → Heeds strict E F U (f (view m))) :
    Heeds strict E F U (ask view >>= f) :=
  fun points entered m hs => h m hs points entered

theorem heeds_within (h : Heeds strict E F T x) (scope : EnvironmentId) :
    Heeds strict E F T (within scope x) := h

def readRecord (reading : ResumePoint → Option α) : Option ResumePoint → Eval σ (Option α)
  | none => pure none
  | some point => match reading point with
    | some a => pure (some a)
    | none => throw (.internal (.resumePoint point))

theorem heeds_take {reading : ResumePoint → Option α} {D : α → List ResumePoint → Prop}
    {next : Option α → Eval σ β}
    (entry : ∀ points, E points → ∃ point a rest, points = point :: rest ∧ reading point = some a ∧ D a rest)
    (fresh : Heeds strict (fun _ => False) F U (next none))
    (resumed : ∀ a, (∃ rest, D a rest) → Heeds strict (D a) F U (next (some a))) :
    Heeds strict E F U (takeRecord reading >>= next) := by
  intro points entered
  refine Action.leads_bind (Action.leads_bind ?_)
  change Action.Leads _ (readRecord reading (points.bind List.head?)).run _ _
  rcases entered with quiet | ⟨left, rfl, entered⟩
  · rw [quiet.head]
    exact fresh _ (.inl quiet.tail)
  · obtain ⟨point, a, rest, rfl, read, entered⟩ := entry left entered
    simp only [Option.bind_some, List.head?_cons, readRecord, read]
    exact resumed a ⟨rest, entered⟩ _ (.inr ⟨rest, rfl, entered⟩)

theorem heeds_recording {F' : List ResumePoint → Prop} (hx : Heeds strict E F T x)
    {point : ResumePoint} (around : ∀ rest, F rest → F' (point :: rest)) :
    Heeds strict E F' T (recording point x) := by
  intro points entered
  refine Action.leads_bind (Action.leads_bind ((hx points entered).mono fun points₁ r post => ?_))
  cases r with
  | ok a => exact post
  | error fault =>
    cases fault with
    | suspended v =>
      rintro _ found
      obtain ⟨rest, rfl, rfl⟩ := Option.map_eq_some_iff.1 found
      exact around rest (post rest rfl)
    | _ => exact post

theorem heeds_checkLimits {next : Unit → Eval σ α} (h : Heeds strict E F T (next ())) :
    Heeds strict E F T (attempt .checkLimits >>= next) := by
  intro points entered
  refine Action.leads_bind fun m => ?_
  cases result : (Effect.checkLimits.apply m).1 with
  | ok u => exact h points entered
  | error fault =>
    have abort := Limit.checkAll_isHostAbort result
    cases fault with
    | suspended v => cases abort
    | _ => exact .inl abort

theorem heeds_settle {around : Around} {x : Eval σ Completion}
    (hx : Heeds strict E F (·.Within around) x) (span : Span) :
    Heeds strict E F (·.Within around) (outcome x >>= settle span) := by
  intro points entered
  refine Action.leads_bind (Action.leads_bind ((hx points entered).mono fun points₁ r post => ?_))
  cases r with
  | ok completion => exact post
  | error fault =>
    by_cases passes : fault.isSuspension || fault.isHostAbort
    · change Action.Leads _ (settle span (.error fault)).run _ _
      simp only [settle, passes, if_true]
      exact post
    · change Action.Leads _ (settle span (.error fault)).run _ _
      simp only [settle, passes]
      have quiet : points₁.Quiet := by
        cases fault <;>
          simp_all [Records.Ends, Fault.isSuspension, Fault.isHostAbort]
      exact ((simple_faultValue fault).plain.before fun v => heeds_pure
        (Completion.within_throwing v _)) points₁ (.inl quiet)

theorem heeds_resumeAt (span : Span) :
    Heeds strict (· = []) F (fun _ => True) (resumeAt span : Eval σ Yielded) := by
  intro points entered
  have quiet : points.Quiet := by
    rcases entered with quiet | ⟨left, rfl, rfl⟩
    · exact quiet
    · rintro _ ⟨⟩
      rfl
  refine Action.leads_bind fun m => ?_
  rcases (Effect.takeResumption.apply m).1 with _ | v | v | v
  · exact ⟨quiet, trivial⟩
  · exact ⟨quiet, trivial⟩
  · exact .inr quiet
  · exact ⟨quiet, trivial⟩

theorem heeds_suspendAt {operand : Eval σ Value} (plain : Plain operand) (slot : Nat)
    (span : Span) :
    Heeds strict (fun _ => False) (AtYield (· = slot)) (fun _ => True)
      (suspendAt operand slot span) := by
  refine heeds_ask fun m _ => ?_
  cases m.runningGenerator? with
  | none => exact (plain_throw_syntaxError .yieldOutsideGenerator span).heeds
  | some g =>
    refine plain.before fun v points entered => ?_
    have quiet := Records.enters_false.1 entered
    rintro _ found
    obtain ⟨rest, rfl, rfl⟩ := Option.map_eq_some_iff.1 found
    exact ⟨slot, by rw [quiet rest rfl], rfl⟩

theorem heeds_yieldAt {operand : Eval σ Value} (plain : Plain operand) (slot : Nat) (span : Span)
    (resumed : Option Nat) :
    Heeds strict (fun points => points = [] ∧ resumed = some slot) (AtYield (· = slot))
      (fun _ => True) (yieldAt operand slot span resumed) := by
  unfold yieldAt
  split
  · exact (heeds_resumeAt span).entered fun _ entry => entry.1
  · rename_i other
    exact (heeds_suspendAt plain slot span).entered fun _ entry => other entry.2

end Eval

end ScriptEngine
