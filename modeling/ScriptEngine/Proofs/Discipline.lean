import ScriptEngine.Proofs.Labels.Tree

/-!
# Disciplines

A discipline judges evaluations by the records of the running generator: those that an evaluation
can be entered with and those that it leaves when it suspends. Every discipline judges statements in
the same way (`Discipline.statement`).
-/

namespace ScriptEngine

open Eval

variable {σ α β : Type}

/-! ## Records -/

def Loop.Step.Stays (around : Around) (l : Loop) : Step → Prop
  | .done c => c.Within around
  | .again next => next.body = l.body ∧ next.labels = l.labels

mutual

def Stmt.Suits (tracks strict : Bool) (around : Around) (own : List String) :
    Stmt → List ResumePoint → Prop
  | .declare declaration => AtYield (YieldsAt 0 declaration.declarators)
  | .expression e _ => e.FitsStatement
  | .return argument _ => fitsReturn argument
  | .block body _ => InScope (InList (suitsAt tracks strict around body))
  | .branch _ consequent alternate _ => InBranch fun taken =>
    if taken then consequent.Suits tracks strict around []
    else suitsOption tracks strict around alternate
  | .switch _ cases _ => InSwitch (suitsCase tracks strict around.inSwitch cases)
  | .forLoop _ _ _ body _ | .whileLoop _ body _ | .doWhile body _ _ =>
    InLoop (body.Suits tracks strict (around.inLoop own) [])
  | .tryCatch body handler finalizer _ =>
    AimsTry (InScope (InList (suitsAt tracks strict around body)))
      (suitsHandler tracks strict around handler) (suitsFinalizer tracks strict around finalizer)
      fun c => tracks = true → c.Within around
  | .withObject _ body _ => fun points =>
    strict = false ∧ InScope (body.Suits tracks strict around []) points
  | .labelled label body _ => body.Suits tracks strict (around.labelled label) (own ++ [label])
  | _ => fun _ => False

def suitsAt (tracks strict : Bool) (around : Around) : List Stmt → Nat → List ResumePoint → Prop
  | [], _ => fun _ => False
  | s :: _, 0 => s.Suits tracks strict around []
  | _ :: rest, index + 1 => suitsAt tracks strict around rest index

def suitsOption (tracks strict : Bool) (around : Around) : Option Stmt → List ResumePoint → Prop
  | none => fun _ => False
  | some s => s.Suits tracks strict around []

def suitsCase (tracks strict : Bool) (around : Around) :
    List SwitchCase → Nat → List ResumePoint → Prop
  | [], _ => fun _ => False
  | ⟨_, body⟩ :: _, 0 => InList (suitsAt tracks strict around body)
  | _ :: rest, index + 1 => suitsCase tracks strict around rest index

def suitsHandler (tracks strict : Bool) (around : Around) :
    Option CatchClause → List ResumePoint → Prop
  | none => fun _ => False
  | some ⟨_, body⟩ => InScope (InList (suitsAt tracks strict around body))

def suitsFinalizer (tracks strict : Bool) (around : Around) :
    Option (List Stmt) → List ResumePoint → Prop
  | none => fun _ => False
  | some body => InScope (InList (suitsAt tracks strict around body))

end

namespace Loop

def Leaving (tracks strict : Bool) (around : Around) (l : Loop) : List ResumePoint → Prop :=
  InLoop (l.body.Suits tracks strict (around.inLoop l.labels) [])

def Suits (tracks strict : Bool) (around : Around) (l : Loop) (points : List ResumePoint) : Prop :=
  l.resumable = true ∧ l.body.Suits tracks strict (around.inLoop l.labels) [] points

end Loop

/-! Where values are not tracked the completions in the records do not matter. -/

section

variable (strict : Bool)

mutual

theorem Stmt.suits_eq (s : Stmt) (around : Around) (own : List String) :
    s.Suits true strict around own = s.Aims strict around own ∧
      s.Suits false strict around own = s.Fits strict := by
  cases s with
  | block body => simp only [Stmt.Suits, Stmt.Aims, Stmt.Fits, suitsAt_eq body, and_self]
  | branch test consequent alternate =>
    have other : suitsOption true strict around alternate = aimsOption strict around alternate ∧
        suitsOption false strict around alternate = fitsOption strict alternate := by
      cases alternate with
      | none => exact ⟨rfl, rfl⟩
      | some s => exact Stmt.suits_eq s around []
    simp only [Stmt.Suits, Stmt.Aims, Stmt.Fits, Stmt.suits_eq consequent, other, and_self]
  | switch discriminant cases =>
    simp only [Stmt.Suits, Stmt.Aims, Stmt.Fits, suitsCase_eq cases, and_self]
  | forLoop init test update body | whileLoop test body | doWhile body | withObject e body
  | labelled label body =>
    simp only [Stmt.Suits, Stmt.Aims, Stmt.Fits, Stmt.suits_eq body, and_self]
  | tryCatch body handler finalizer =>
    have handled : suitsHandler true strict around handler = aimsHandler strict around handler ∧
        suitsHandler false strict around handler = fitsHandler strict handler := by
      cases handler with
      | none => exact ⟨rfl, rfl⟩
      | some handler =>
        obtain ⟨_, body⟩ := handler
        simp only [suitsHandler, aimsHandler, fitsHandler, suitsAt_eq body, and_self]
    have final : suitsFinalizer true strict around finalizer =
          aimsFinalizer strict around finalizer ∧
        suitsFinalizer false strict around finalizer = fitsFinalizer strict finalizer := by
      cases finalizer with
      | none => exact ⟨rfl, rfl⟩
      | some body =>
        simp only [suitsFinalizer, aimsFinalizer, fitsFinalizer, suitsAt_eq body, and_self]
    have untracked (block handler finalizer : List ResumePoint → Prop) :
        AimsTry block handler finalizer (fun c => false = true → c.Within around) =
          InTry block handler finalizer := by
      funext points
      simp [AimsTry, InTry]
    simp only [Stmt.Suits, Stmt.Aims, Stmt.Fits, suitsAt_eq body, handled, final, forall_const,
      untracked, and_self]
  | _ => simp only [Stmt.Suits, Stmt.Aims, Stmt.Fits, and_self]

theorem suitsAt_eq (body : List Stmt) (around : Around) :
    suitsAt true strict around body = aimsAt strict around body ∧
      suitsAt false strict around body = fitsAt strict body := by
  have each (index : Nat) : suitsAt true strict around body index = aimsAt strict around body index ∧
      suitsAt false strict around body index = fitsAt strict body index := by
    match body, index with
    | [], _ => exact ⟨rfl, rfl⟩
    | s :: _, 0 => exact Stmt.suits_eq s around []
    | _ :: rest, index + 1 => exact (suitsAt_eq rest around).imp (congrFun · index) (congrFun · index)
  exact ⟨funext fun index => (each index).1, funext fun index => (each index).2⟩

theorem suitsCase_eq (cases : List SwitchCase) (around : Around) :
    suitsCase true strict around cases = aimsCase strict around cases ∧
      suitsCase false strict around cases = fitsCase strict cases := by
  have each (index : Nat) :
      suitsCase true strict around cases index = aimsCase strict around cases index ∧
        suitsCase false strict around cases index = fitsCase strict cases index := by
    match cases, index with
    | [], _ => exact ⟨rfl, rfl⟩
    | ⟨_, body⟩ :: _, 0 => exact (suitsAt_eq body around).imp (congrArg InList) (congrArg InList)
    | ⟨_, _⟩ :: rest, index + 1 =>
      exact (suitsCase_eq rest around).imp (congrFun · index) (congrFun · index)
  exact ⟨funext fun index => (each index).1, funext fun index => (each index).2⟩

end

end

theorem Stmt.Suits.not_known {tracks strict : Bool} {around : Around} {own : List String} {s : Stmt}
    {points : List ResumePoint} (h : s.Suits tracks strict around own points) (shortcuts : Bool) :
    s.knownCompletion? shortcuts = none := by
  unfold Stmt.knownCompletion?
  fun_cases Stmt.shortcut? s <;> simp_all [Stmt.Suits, Expr.FitsStatement, fitsReturn]

/-! ## Rules -/

/-- A judgement of evaluations in code of the given strictness, with its rules. An evaluation is
entered with records in `E` or with none, leaves records in `F` when it suspends and none when it
ends, and its value satisfies `T` if values are tracked. -/
structure Discipline (σ : Type) (strict : Bool) where
  tracks : Bool
  Judges : {α : Type} → (E F : List ResumePoint → Prop) → (T : α → Prop) → Eval σ α → Prop
  mono : ∀ {α : Type} {E E' F F' : List ResumePoint → Prop} {T : α → Prop} {x : Eval σ α},
    Judges E F T x → (∀ points, E' points → E points) → (∀ points, F points → F' points) →
      Judges E' F' T x
  done : ∀ {α : Type} {F : List ResumePoint → Prop} {T : α → Prop} {a : α},
    (tracks = true → T a) → Judges (fun _ => False) F T (pure a)
  plain : ∀ {α : Type} {F : List ResumePoint → Prop} {x : Eval σ α}, Plain x →
    Judges (fun _ => False) F (fun _ => True) x
  chain : ∀ {α β : Type} {E F : List ResumePoint → Prop} {T : α → Prop} {U : β → Prop}
    {x : Eval σ α} {f : α → Eval σ β}, Judges E F T x →
    (∀ a, (tracks = true → T a) → Judges (fun _ => False) F U (f a)) → Judges E F U (x >>= f)
  ask : ∀ {α β : Type} {E F : List ResumePoint → Prop} {U : β → Prop} {view : Machine σ → α}
    {f : α → Eval σ β}, (∀ m, m.strict = strict → Judges E F U (f (view m))) →
    Judges E F U (ask view >>= f)
  within : ∀ {α : Type} {E F : List ResumePoint → Prop} {T : α → Prop} {x : Eval σ α},
    Judges E F T x → ∀ scope, Judges E F T (within scope x)
  take : ∀ {α β : Type} {E F : List ResumePoint → Prop} {U : β → Prop}
    {reading : ResumePoint → Option α} {D : α → List ResumePoint → Prop}
    {next : Option α → Eval σ β},
    (∀ points, E points → ∃ point a rest, points = point :: rest ∧ reading point = some a ∧
      D a rest) → Judges (fun _ => False) F U (next none) →
    (∀ a, (∃ rest, D a rest) → Judges (D a) F U (next (some a))) →
    Judges E F U (takeRecord reading >>= next)
  record : ∀ {α : Type} {E F F' : List ResumePoint → Prop} {T : α → Prop} {x : Eval σ α}
    {point : ResumePoint}, Judges E F T x → (∀ rest, F rest → F' (point :: rest)) →
    Judges E F' T (recording point x)
  check : ∀ {α : Type} {E F : List ResumePoint → Prop} {T : α → Prop} {next : Unit → Eval σ α},
    Judges E F T (next ()) → Judges E F T (attempt .checkLimits >>= next)
  settles : ∀ {E F : List ResumePoint → Prop} {around : Around} {x : Eval σ Completion},
    Judges E F (·.Within around) x → ∀ span,
      Judges E F (·.Within around) (outcome x >>= settle span)
  yields : ∀ {operand : Eval σ Value}, Plain operand → ∀ slot span resumed,
    Judges (fun points => points = [] ∧ resumed = some slot) (AtYield (· = slot)) (fun _ => True)
      (yieldAt operand slot span resumed)
  loops : ∀ {l : Loop} {around : Around}, (tracks = true → l.wellLabelled around = true) →
    Judges (l.Suits tracks strict around) (l.Leaving tracks strict around) (·.Within around)
      (loop l)

namespace Discipline

variable {strict : Bool} (D : Discipline σ strict) {E F : List ResumePoint → Prop} {T : α → Prop}
  {U : β → Prop} {x : Eval σ α} {f : α → Eval σ β} {around : Around}

theorem entered {E' : List ResumePoint → Prop} (h : D.Judges E F T x)
    (entry : ∀ points, E' points → E points) : D.Judges E' F T x := D.mono h entry fun _ left => left

theorem fresh (h : D.Judges E F T x) : D.Judges (fun _ => False) F T x := D.entered h nofun

theorem before (plain : Plain x) (hf : ∀ a, D.Judges (fun _ => False) F U (f a)) :
    D.Judges (fun _ => False) F U (x >>= f) := D.chain (D.plain plain) fun a _ => hf a

theorem refuses {fault : Fault} (h : ∀ v, fault ≠ .suspended v) :
    D.Judges (fun _ => False) F T (throw fault : Eval σ α) :=
  D.chain (x := (throw fault : Eval σ Empty)) (f := nofun) (D.plain (plain_throw h)) nofun

theorem withinSome (h : D.Judges E F T x) (scope : Option EnvironmentId) :
    D.Judges E F T (withinSome scope x) := by
  cases scope with
  | none => exact h
  | some e => exact D.within h e

/-! ## Constructs -/

theorem singleYield (operand : Option Expr) (span : Span) :
    D.Judges (AtYield (· = 0)) (AtYield (· = 0)) (fun _ => True) (singleYield operand span) := by
  have yields := D.yields (simple_yieldOperand (σ := σ) operand).plain 0 span
  refine D.take ?_ (D.fresh (yields none)) fun slot _ => yields (some slot)
  rintro _ ⟨_, rfl, rfl⟩
  exact ⟨.yield 0, 0, [], rfl, rfl, rfl, rfl⟩

theorem expressionStatement (e : Expr) :
    D.Judges e.FitsStatement e.FitsStatement (·.Within around) (expressionStatement e) := by
  fun_cases Eval.expressionStatement e with
  | case1 operand span =>
    refine D.chain (D.singleYield operand span) fun y _ => ?_
    cases y <;> exact D.done fun _ => trivial
  | case2 target operand span _ =>
    refine D.chain (D.singleYield operand span) fun y _ => ?_
    cases y with
    | value v => exact D.before (simple_assignTo target v).plain fun _ => D.done fun _ => trivial
    | «return» v => exact D.done fun _ => trivial
  | case3 e notYield notAssigned =>
    refine D.entered (D.before (Expr.plain e none) fun v => D.done fun _ => trivial) ?_
    intro points fits
    unfold Expr.FitsStatement at fits
    split at fits
    · exact notYield _ _ rfl
    · exact notAssigned _ _ _ _ rfl
    · exact fits

theorem returnStatement (argument : Option Expr) :
    D.Judges (fitsReturn argument) (fitsReturn argument) (·.Within around)
      (returnStatement argument) := by
  fun_cases Eval.returnStatement argument with
  | case1 => exact D.done fun _ => trivial
  | case2 operand span =>
    refine D.chain (D.singleYield operand span) fun y _ => ?_
    cases y <;> exact D.done fun _ => trivial
  | case3 e notYield =>
    refine D.entered (D.before (Expr.plain e none) fun v => D.done fun _ => trivial) ?_
    intro points fits
    cases e with
    | yield operand span => exact notYield operand span rfl
    | _ => exact fits

theorem declarators (around : Around) (kind : VariableKind) (resumed : Option Nat) (first : Nat)
    (ds : List Declarator) :
    D.Judges (fun points => points = [] ∧ ∃ slot, resumed = some slot ∧ YieldsAt first ds slot)
      (AtYield (YieldsAt first ds)) (·.Within around)
      (declarators kind true resumed first ds) := by
  induction ds generalizing first with
  | nil =>
    exact D.entered (D.done fun _ => trivial) fun _ ⟨_, _, _, yields⟩ => yields
  | cons d rest ih =>
    obtain ⟨name, init⟩ := d
    have ih : D.Judges _ (AtYield (YieldsAt first (⟨name, init⟩ :: rest))) _ _ :=
      D.mono (ih (first + 1)) (fun _ entry => entry)
        fun points ⟨slot, left, yields⟩ => ⟨slot, left, .inr yields⟩
    have store (v : Option Value) : D.Judges _ _ _ (do
        storeDeclared kind name v
        Eval.declarators kind true resumed (first + 1) rest) :=
      D.before (simple_storeDeclared kind name v).plain fun _ => D.fresh ih
    unfold Eval.declarators
    by_cases skip : resumed.any (first < ·)
    · rw [if_pos skip]
      refine D.entered ih ?_
      rintro points ⟨rfl, slot, rfl, ⟨rfl, _⟩ | yields⟩
      · simp at skip
      · exact ⟨rfl, slot, rfl, yields⟩
    · -- the resumed slot, if it is still to come, is this one
      have here : ∀ {slot}, resumed = some slot → YieldsAt first (⟨name, init⟩ :: rest) slot →
          slot = first ∧ Declarator.yields ⟨name, init⟩ = true := by
        rintro slot rfl (here | later)
        · exact here
        · exact absurd (Nat.lt_of_succ_le later.le) (by simpa using skip)
      rw [if_neg skip]
      split
      · rename_i operand span _
        refine D.chain (D.mono (D.yields (simple_yieldOperand operand).plain first span resumed)
          ?_ ?_) fun y _ => ?_
        · rintro points ⟨rfl, slot, resumed, yields⟩
          exact ⟨rfl, (here resumed yields).1 ▸ resumed⟩
        · rintro points ⟨slot, left, rfl⟩
          exact ⟨slot, left, .inl ⟨rfl, rfl⟩⟩
        · cases y with
          | value v => exact store (some v)
          | «return» v => exact D.done fun _ => trivial
      · rename_i e notYield
        refine D.entered (D.before (Expr.plain e (some name)) fun v => store (some v)) ?_
        rintro points ⟨rfl, slot, resumed, yields⟩
        have yields := (here resumed yields).2
        unfold Declarator.yields at yields
        split at yields
        · rename_i found
          cases found
          exact notYield _ _ rfl rfl
        · cases yields
      · refine D.entered (store none) ?_
        rintro points ⟨rfl, slot, resumed, yields⟩
        cases (here resumed yields).2

theorem declare (declaration : Declaration) :
    D.Judges (AtYield (YieldsAt 0 declaration.declarators))
      (AtYield (YieldsAt 0 declaration.declarators)) (·.Within around)
      (declare declaration true) := by
  have all (resumed : Option Nat) := D.declarators around declaration.kind resumed 0
    declaration.declarators
  unfold Eval.declare
  by_cases any : declaration.declarators.any Declarator.yields
  · simp only [any, Bool.and_self, if_true]
    refine D.take ?_ (D.fresh (all none)) fun slot _ => all (some slot)
    rintro _ ⟨slot, rfl, yields⟩
    exact ⟨.yield slot, slot, [], rfl, rfl, rfl, slot, rfl, yields⟩
  · simp only [any, Bool.and_false, Bool.false_eq_true, if_false]
    exact D.entered (all none) fun _ ⟨_, _, yields⟩ => absurd yields.any any

theorem recordScope (h : D.Judges E F T x) (scope : Option EnvironmentId) :
    D.Judges E (InScope F) T (recording (.scope scope) (Eval.withinSome scope x)) :=
  D.record (D.withinSome h scope) fun rest left => ⟨scope, rest, rfl, left⟩

theorem block (scope : BlockScope) {T : Completion → Prop} {body : Eval σ Completion}
    (h : D.Judges E F T body) : D.Judges (InScope E) (InScope F) T (block scope body) := by
  refine D.take ?_ ?_ fun scope _ => D.recordScope h scope
  · rintro _ ⟨scope, rest, rfl, entry⟩
    exact ⟨.scope scope, scope, rest, rfl, rfl, entry⟩
  · exact D.ask fun m _ => D.before (simple_openBlock _ _).plain fun scope =>
      D.fresh (D.recordScope h scope)

theorem withStatement {object : Eval σ Value} (plain : Plain object) {T : Completion → Prop}
    {body : Eval σ Completion} (h : D.Judges E F T body) (span : Span) :
    D.Judges (fun points => strict = false ∧ InScope E points)
      (fun points => strict = false ∧ InScope F points) T (withStatement object body span) := by
  refine D.ask fun m hs => ?_
  rw [hs]
  cases strict with
  | true => exact D.entered (D.refuses nofun) fun _ entry => nomatch entry.1
  | false =>
    have recorded (scope : Option EnvironmentId) :
        D.Judges E (fun points => false = false ∧ InScope F points) T _ :=
      D.mono (D.recordScope h scope) (fun _ entry => entry) fun _ left => ⟨rfl, left⟩
    refine D.take ?_ ?_ fun scope _ => recorded scope
    · rintro _ ⟨_, scope, rest, rfl, entry⟩
      exact ⟨.scope scope, scope, rest, rfl, rfl, entry⟩
    · exact D.before plain fun v => D.before (simple_toObject v).plain fun o => D.ask fun m _ =>
        D.before (plain_perform (Effect.plain_enclose _)) fun e => D.fresh (recorded (some e))

theorem branch {test : Eval σ Value} (plain : Plain test) {consequent : Eval σ Completion}
    {alternate : Option (Eval σ Completion)} {E : Bool → List ResumePoint → Prop}
    (hc : D.Judges (E true) (E true) (·.Within around) consequent)
    (ha : ∀ x, alternate = some x → D.Judges (E false) (E false) (·.Within around) x)
    (noAlternate : alternate = none → ∀ points, ¬E false points) :
    D.Judges (InBranch E) (InBranch E) (·.Within around) (branch test consequent alternate) := by
  have chosen (taken : Bool) : D.Judges (E taken) (InBranch E) (·.Within around)
      (takenBranch taken consequent alternate) := by
    have recorded {x : Eval σ Completion} (hx : D.Judges (E taken) (E taken) (·.Within around) x) :
        D.Judges (E taken) (InBranch E) (·.Within around) (recording (.branch taken) x) :=
      D.record hx fun rest left => ⟨taken, rest, rfl, left⟩
    cases taken with
    | true => exact recorded hc
    | false => cases alternate with
      | none => exact D.entered (D.done fun _ => trivial) (noAlternate rfl)
      | some x => exact recorded (ha x rfl)
  refine D.take ?_ ?_ fun taken _ => chosen taken
  · rintro _ ⟨taken, rest, rfl, entry⟩
    exact ⟨.branch taken, taken, rest, rfl, rfl, entry⟩
  · exact D.before plain fun v => D.fresh (chosen v.toBoolean)

theorem switch {discriminant : Eval σ Value} (plain : Plain discriminant)
    (cases : List SwitchCase)
    {run : (start : Nat) → (value : Value) → (scope : Option EnvironmentId) → Eval σ Completion}
    {E : Nat → List ResumePoint → Prop}
    (h : ∀ start value scope, D.Judges (E start) F (·.Within around) (run start value scope)) :
    D.Judges (InSwitch E) F (·.Within around) (switch discriminant cases run) := by
  refine D.take (D := fun a => E a.1) ?_ ?_ fun a _ => D.withinSome (h a.1 a.2.1 a.2.2) a.2.2
  · rintro _ ⟨start, value, scope, rest, rfl, entry⟩
    exact ⟨.switch start value scope, (start, value, scope), rest, rfl, rfl, entry⟩
  · refine D.before plain fun v => D.ask fun m _ => D.before (simple_openBlock _ _).plain fun scope =>
      D.withinSome ?_ scope
    refine D.before (simple_selectCase v cases).plain fun start => ?_
    cases start with
    | none => exact D.done fun _ => trivial
    | some start => exact D.fresh (h start .undefined scope)

section

variable {body : Stmt} {own : List String}
  (well : D.tracks = true → body.wellLabelled (around.inLoop own) [] = true)

include well

theorem whileStatement (test : Expr) :
    D.Judges (InLoop (body.Suits D.tracks strict (around.inLoop own) []))
      (InLoop (body.Suits D.tracks strict (around.inLoop own) [])) (·.Within around)
      (whileStatement test body own) := by
  have round (value : Value) (resuming : Bool) :=
    D.loops (l := .whileLoop test body own value resuming) well
  refine D.take ?_ (D.fresh (round _ false)) fun a _ => round a.1 true
  rintro _ ⟨value, environment, rest, rfl, entry⟩
  exact ⟨.loop value environment, (value, environment), rest, rfl, rfl, rfl, entry⟩

theorem doWhileStatement (test : Expr) :
    D.Judges (InLoop (body.Suits D.tracks strict (around.inLoop own) []))
      (InLoop (body.Suits D.tracks strict (around.inLoop own) [])) (·.Within around)
      (doWhileStatement body test own) := by
  have round (value : Value) := D.loops (l := .doWhile body test own value) well
  refine D.take ?_ (D.fresh (round _)) fun a _ => round a.1
  rintro _ ⟨value, environment, rest, rfl, entry⟩
  exact ⟨.loop value environment, (value, environment), rest, rfl, rfl, rfl, entry⟩

theorem forStatement (init : ForInit) (test update : Option Expr) :
    D.Judges (InLoop (body.Suits D.tracks strict (around.inLoop own) []))
      (InLoop (body.Suits D.tracks strict (around.inLoop own) [])) (·.Within around)
      (forStatement init test update body own) := by
  have round (r : ForRound) (same : r.body = body) (labels : r.labels = own) :
      D.Judges (Loop.Suits D.tracks strict around (.forLoop r))
        (InLoop (body.Suits D.tracks strict (around.inLoop own) [])) (·.Within around)
        (loop (.forLoop r)) := by
    subst same labels
    exact D.loops well
  refine D.ask fun m _ => D.take ?_ ?_ fun a _ => round _ rfl rfl
  · rintro _ ⟨value, environment, rest, rfl, entry⟩
    exact ⟨.loop value environment, (value, environment), rest, rfl, rfl, rfl, entry⟩
  · exact D.before (simple_forInit init _).plain fun head =>
      D.before (simple_copyBindings head _).plain fun environment => D.fresh (round _ rfl rfl)

end

section

variable {body : Eval σ Completion} {handler : Option (Handler σ)}
  {finalizer : Option (Eval σ Completion)} {B H L : List ResumePoint → Prop}

theorem runFinalizer
    (hf : ∀ x, finalizer = some x → D.Judges L L (·.Within around) x)
    (noFinalizer : finalizer = none → ∀ points, ¬L points) {pending : Completion}
    (waits : D.tracks = true → pending.Within around) :
    D.Judges L (AimsTry B H L fun c => D.tracks = true → c.Within around) (·.Within around)
      (runFinalizer finalizer pending) := by
  cases finalizer with
  | none => exact D.entered (D.done waits) (noFinalizer rfl)
  | some x =>
    refine D.chain (D.record (hf x rfl) fun rest left => ?_) fun result stays => ?_
    · exact ⟨_, rest, rfl, left, fun c same => by cases same; exact waits⟩
    · refine D.done fun tracked => ?_
      split
      · exact waits tracked
      · exact stays tracked

theorem runHandler {handler : Handler σ} (hh : D.Judges H H (·.Within around) handler.body)
    (environment : Option EnvironmentId) :
    D.Judges H (AimsTry B H L fun c => D.tracks = true → c.Within around) (·.Within around)
      (runHandler handler environment) :=
  D.record (D.withinSome hh environment) fun rest left => ⟨_, rest, rfl, left, nofun⟩

theorem runGuarded (hb : D.Judges B B (·.Within around) body)
    (hh : ∀ h, handler = some h → D.Judges H H (·.Within around) h.body) :
    D.Judges B (AimsTry B H L fun c => D.tracks = true → c.Within around) (·.Within around)
      (runGuarded body handler) := by
  refine D.chain (D.record hb fun rest left => ⟨_, rest, rfl, left, nofun⟩) fun completion stays => ?_
  split
  · rename_i h _
    exact D.before (simple_openHandler _ _).plain fun e => D.fresh (D.runHandler (hh h rfl) (some e))
  · exact D.done stays

theorem tryStatement (hb : D.Judges B B (·.Within around) body)
    (hh : ∀ h, handler = some h → D.Judges H H (·.Within around) h.body)
    (noHandler : handler = none → ∀ points, ¬H points)
    (hf : ∀ x, finalizer = some x → D.Judges L L (·.Within around) x)
    (noFinalizer : finalizer = none → ∀ points, ¬L points) :
    D.Judges (AimsTry B H L fun c => D.tracks = true → c.Within around)
      (AimsTry B H L fun c => D.tracks = true → c.Within around) (·.Within around)
      (tryStatement body handler finalizer) := by
  have final {pending : Completion} (waits : D.tracks = true → pending.Within around) :=
    D.runFinalizer (B := B) (H := H) hf noFinalizer waits
  have guarded : D.Judges B (AimsTry B H L fun c => D.tracks = true → c.Within around)
      (·.Within around) (do Eval.runFinalizer finalizer (← Eval.runGuarded body handler)) :=
    D.chain (D.runGuarded hb hh) fun _ stays => D.fresh (final stays)
  refine D.take (D := fun phase rest => TryPart B H L phase rest ∧
    ∀ c, phase = .finalizer c → D.tracks = true → c.Within around) ?_ (D.fresh guarded)
    fun phase ⟨rest, entry⟩ => ?_
  · rintro _ ⟨phase, rest, rfl, entry⟩
    exact ⟨.tryCatch phase, phase, rest, rfl, rfl, entry⟩
  · cases phase with
    | block => exact D.entered guarded fun _ entry => entry.1
    | finalizer pending => exact D.entered (final (entry.2 pending rfl)) fun _ entry => entry.1
    | handler environment => cases handler with
      | none => exact absurd entry.1 (noHandler rfl rest)
      | some h =>
        exact D.entered (D.chain (D.runHandler (hh h rfl) environment) fun _ stays =>
          D.fresh (final stays)) fun _ entry => entry.1

end

theorem list {run : (start : Nat) → (last : Option Value) → Eval σ Completion}
    {E : Nat → List ResumePoint → Prop}
    (h : ∀ start last, D.Judges (E start) F (·.Within around) (run start last)) :
    D.Judges (InList E) F (·.Within around) (list run) := by
  refine D.take (D := fun a => E a.1) ?_ (D.fresh (h 0 none)) fun a _ => h a.1 a.2
  rintro _ ⟨index, last, rest, rfl, entry⟩
  exact ⟨.list index last, (index, last), rest, rfl, rfl, entry⟩

theorem listed (around : Around) {statement : Eval σ Completion}
    (h : D.Judges E E (·.Within around) statement) (index : Nat) (last : Option Value) (span : Span)
    (outer : ∀ rest, E rest → F (.list index last :: rest)) :
    D.Judges E F (·.Within around) (listed index last span statement) :=
  D.check (D.settles (D.record h outer) span)

/-! ## Statements -/

variable (shortcuts : Bool)

theorem statements {shortcuts : Bool} {body : List Stmt}
    (h : ∀ index start last, D.Judges (suitsAt D.tracks strict around body start)
      (fun points => ∃ i last rest, points = .list (index + i) last :: rest ∧
        suitsAt D.tracks strict around body i rest)
      (·.Within around) (evalFrom shortcuts body index start last)) :
    D.Judges (InList (suitsAt D.tracks strict around body))
      (InList (suitsAt D.tracks strict around body)) (·.Within around)
      (Eval.list (evalFrom shortcuts body 0)) :=
  D.list fun start last => D.mono (h 0 start last) (fun _ entry => entry)
    fun points ⟨i, last, rest, left, suits⟩ => ⟨i, last, rest, by rw [left, Nat.zero_add], suits⟩

mutual

theorem statement (s : Stmt) (around : Around) (own : List String)
    (well : D.tracks = true → s.wellLabelled around own = true) :
    D.Judges (s.Suits D.tracks strict around own) (s.Suits D.tracks strict around own)
      (·.Within around) (s.eval shortcuts own) := by
  cases s with simp only [Stmt.eval, Stmt.Suits]
  | declare declaration =>
    exact D.declare declaration
  | expression e span =>
    exact D.expressionStatement e
  | «return» argument span =>
    exact D.returnStatement argument
  | block body span =>
    exact D.block _ (D.statements (statementsFrom body around well))
  | branch test consequent alternate span =>
    simp only [Stmt.wellLabelled, Bool.and_eq_true] at well
    refine D.branch (Expr.plain test none)
      (statement consequent around [] fun tracked => (well tracked).1) ?_ ?_
    · intro x hx
      cases alternate with
      | none => cases hx
      | some s =>
        cases hx
        exact statement s around [] fun tracked => (well tracked).2
    · intro none points suits
      cases alternate with
      | none => exact suits
      | some s => cases none
  | switch discriminant cases span =>
    exact D.switch (Expr.plain discriminant none) cases fun start value scope =>
      D.mono (casesFrom cases around well 0 start value scope) (fun _ entry => entry)
        fun points ⟨i, value, rest, left, suits⟩ =>
          ⟨i, value, scope, rest, by rw [left, Nat.zero_add], suits⟩
  | forLoop init test update body span =>
    exact D.forStatement well init test update
  | whileLoop test body span =>
    exact D.whileStatement well test
  | doWhile body test span =>
    exact D.doWhileStatement well test
  | tryCatch body handler finalizer span =>
    simp only [Stmt.wellLabelled, Bool.and_eq_true] at well
    refine D.tryStatement (D.block _ (D.statements
      (statementsFrom body around fun tracked => (well tracked).1.1))) ?_ ?_ ?_ ?_
    · intro h hh
      cases handler with
      | none => cases hh
      | some handler =>
        obtain ⟨parameter, body⟩ := handler
        cases hh
        exact D.block _ (D.statements
          (statementsFrom body around fun tracked => (well tracked).1.2))
    · intro none points suits
      cases handler with
      | none => exact suits
      | some handler =>
        obtain ⟨parameter, body⟩ := handler
        cases none
    · intro x hx
      cases finalizer with
      | none => cases hx
      | some body =>
        cases hx
        exact D.block _ (D.statements
          (statementsFrom body around fun tracked => (well tracked).2))
    · intro none points suits
      cases finalizer with
      | none => exact suits
      | some body => cases none
  | withObject e body span =>
    exact D.withStatement (Expr.plain e none) (statement body around [] well) span
  | labelled label body span =>
    exact D.chain (statement body (around.labelled label) _ well) fun completion stays =>
      D.done fun tracked => (stays tracked).exitLabel
  | classDecl node =>
    refine D.before (ClassNode.simple node none).plain fun constructor => ?_
    cases node.name with
    | none => exact D.done fun _ => trivial
    | some name =>
      exact D.before (simple_initLexical name false constructor).plain fun _ =>
        D.done fun _ => trivial
  | throw argument span =>
    exact D.before (Expr.plain argument none) fun v => D.done fun _ => trivial
  | «break» label span | «continue» label span =>
    refine D.done fun tracked => ?_
    cases label with
    | none => exact well tracked
    | some label => exact List.contains_iff_mem.1 (well tracked)
  | functionDecl | empty | debugger =>
    exact D.done fun _ => trivial

theorem statementsFrom (body : List Stmt) (around : Around)
    (well : D.tracks = true → wellLabelledList around body = true) (index skip : Nat)
    (last : Option Value) :
    D.Judges (suitsAt D.tracks strict around body skip)
      (fun points => ∃ i last rest, points = .list (index + i) last :: rest ∧
        suitsAt D.tracks strict around body i rest)
      (·.Within around) (evalFrom shortcuts body index skip last) := by
  match body, skip with
  | [], _ =>
    unfold evalFrom
    exact D.done fun _ => trivial
  | s :: rest, skip + 1 =>
    simp only [wellLabelledList, Bool.and_eq_true] at well
    unfold evalFrom
    refine D.mono (statementsFrom rest around (fun tracked => (well tracked).2) (index + 1) skip
      last) (fun _ entry => entry) ?_
    rintro points ⟨i, last, rest, left, suits⟩
    exact ⟨i + 1, last, rest, by rw [left, Nat.add_right_comm, Nat.add_assoc], suits⟩
  | s :: rest, 0 =>
    simp only [wellLabelledList, Bool.and_eq_true] at well
    unfold evalFrom
    refine D.chain (D.listed around (E := s.Suits D.tracks strict around []) ?_ index
      last s.span fun points suits => ⟨0, last, points, rfl, suits⟩) fun completion stays => ?_
    · cases known : s.knownCompletion? shortcuts with
      | none => exact statement s around [] fun tracked => (well tracked).1
      | some completion =>
        exact D.entered (D.done fun _ => Stmt.knownCompletion?_within known around)
          fun _ suits => by simp [suits.not_known] at known
    · unfold andThen
      split
      · exact D.done fun tracked => (stays tracked).updateEmpty last
      · refine D.mono (D.fresh (statementsFrom rest around (fun tracked => (well tracked).2)
          (index + 1) 0 _)) (fun _ entry => entry) ?_
        rintro points ⟨i, last, rest, left, suits⟩
        exact ⟨i + 1, last, rest, by rw [left, Nat.add_right_comm, Nat.add_assoc], suits⟩

theorem casesFrom (cases : List SwitchCase) (around : Around)
    (well : D.tracks = true → wellLabelledCases around.inSwitch cases = true) (index skip : Nat)
    (value : Value) (scope : Option EnvironmentId) :
    D.Judges (suitsCase D.tracks strict around.inSwitch cases skip)
      (LeavesCase (suitsCase D.tracks strict around.inSwitch cases) index scope) (·.Within around)
      (evalCases shortcuts cases index skip value scope) := by
  match cases, skip with
  | [], _ =>
    unfold evalCases
    exact D.done fun _ => trivial
  | ⟨_, _⟩ :: rest, skip + 1 =>
    simp only [wellLabelledCases, Bool.and_eq_true] at well
    unfold evalCases
    refine D.mono (casesFrom rest around (fun tracked => (well tracked).2) (index + 1) skip value
      scope) (fun _ entry => entry) ?_
    rintro points ⟨i, value, rest, left, suits⟩
    exact ⟨i + 1, value, rest, by rw [left, Nat.add_right_comm, Nat.add_assoc], suits⟩
  | ⟨test, body⟩ :: rest, 0 =>
    simp only [wellLabelledCases, Bool.and_eq_true] at well
    unfold evalCases
    refine D.chain (D.record (D.statements
      (statementsFrom body around.inSwitch fun tracked => (well tracked).1))
      fun points suits => ⟨0, value, points, rfl, suits⟩) fun completion stays => ?_
    dsimp only
    split
    · exact D.done fun tracked => ((stays tracked).updateEmpty _).exitSwitch
    · refine D.mono (D.fresh (casesFrom rest around (fun tracked => (well tracked).2) (index + 1) 0
        _ scope)) (fun _ entry => entry) ?_
      rintro points ⟨i, value, rest, left, suits⟩
      exact ⟨i + 1, value, rest, by rw [left, Nat.add_right_comm, Nat.add_assoc], suits⟩

end

/-! ## Rounds and bodies -/

theorem afterBody {l : Loop} {completion : Completion}
    (stays : D.tracks = true → completion.Within (around.inLoop l.labels)) (value : Value)
    {next : Value → Eval σ Loop.Step}
    (goesOn : ∀ value, D.Judges (fun _ => False) F (Loop.Step.Stays around l) (next value)) :
    D.Judges (fun _ => False) F (Loop.Step.Stays around l)
      (Loop.afterBody completion l.labels value next) := by
  unfold Loop.afterBody
  split
  · exact goesOn _
  · rename_i ends
    exact D.done fun tracked =>
      ((stays tracked).updateEmpty _).exitLoop (Bool.eq_false_iff.2 ends)

theorem round (l : Loop) (around : Around) (well : D.tracks = true → l.wellLabelled around = true) :
    D.Judges (l.Suits D.tracks strict around) (l.Leaving D.tracks strict around)
      (Loop.Step.Stays around l) (l.round shortcuts) := by
  have inner := D.statement shortcuts l.body (around.inLoop l.labels) [] well
  have again {F : List ResumePoint → Prop} {next : Loop} (same : next.body = l.body)
      (labels : next.labels = l.labels) :
      D.Judges (fun _ => False) F (Loop.Step.Stays around l) (pure (.again next)) :=
    D.done fun _ => ⟨same, labels⟩
  have stop {F : List ResumePoint → Prop} (value : Value) :
      D.Judges (fun _ => False) F (Loop.Step.Stays around l)
        (pure (.done (.normal (some value)))) := D.done fun _ => trivial
  cases l with
  | whileLoop test body labels value resuming =>
    have inside : D.Judges _ (InLoop (body.Suits D.tracks strict (around.inLoop labels) [])) _ (do
        let completion ← recording (.loop value none) (body.eval shortcuts [])
        Loop.afterBody completion labels value fun value =>
          pure (.again (.whileLoop test body labels value false))) :=
      D.chain (D.record inner fun rest suits => ⟨value, none, rest, rfl, suits⟩)
        fun completion stays => D.afterBody stays value fun _ => again rfl rfl
    cases resuming with
    | true => exact D.entered inside fun _ suits => suits.2
    | false =>
      refine D.entered (D.before (simple_holds (some test)).plain fun enter => ?_)
        fun _ suits => nomatch suits.1
      cases enter with
      | true => exact D.fresh inside
      | false => exact stop value
  | doWhile body test labels value =>
    refine D.chain (D.record (D.entered inner fun _ suits => suits.2)
      fun rest suits => ⟨value, none, rest, rfl, suits⟩) fun completion stays =>
        D.afterBody stays value fun value => ?_
    refine D.before (simple_holds (some test)).plain fun enter => ?_
    cases enter with
    | true => exact again rfl rfl
    | false => exact stop value
  | forLoop r =>
    have inside : D.Judges (r.body.Suits D.tracks strict (around.inLoop r.labels) [])
        (Loop.Leaving D.tracks strict around (.forLoop r))
        (Loop.Step.Stays around (.forLoop r)) (r.iteration shortcuts >>= fun completion =>
          Loop.afterBody completion r.labels r.value r.advance) := by
      refine D.chain (D.record (D.within inner r.environment)
        fun rest suits => ⟨_, _, rest, rfl, suits⟩) fun completion stays =>
          D.afterBody stays r.value fun value => ?_
      refine D.before (simple_copyBindings r.environment r.copied).plain fun environment => ?_
      cases r.update with
      | none => exact again rfl rfl
      | some update =>
        exact D.before (plain_within environment (Expr.plain update none)) fun _ =>
          again rfl rfl
    obtain ⟨test, update, body, copied, labels, outer, environment, value, resuming⟩ := r
    cases resuming with
    | true => exact D.entered inside fun _ suits => suits.2
    | false =>
      refine D.entered (D.before (plain_within environment (simple_holds test).plain)
        fun enter => ?_) fun _ suits => nomatch suits.1
      cases enter with
      | true => exact D.fresh inside
      | false => exact stop value

end Discipline

end ScriptEngine
