import Mathlib
import ScriptEngine.Script

/-!
# The records of a suspended statement

`Stmt.Fits` describes the records that a statement leaves when a suspension passes through it, the
outermost construct first. They are also those from which it can be resumed.
-/

namespace ScriptEngine

variable {points : List ResumePoint}

/-! ## Constructs by their parts -/

def InScope (E : List ResumePoint → Prop) (points : List ResumePoint) : Prop :=
  ∃ scope rest, points = .scope scope :: rest ∧ E rest

def InList (E : Nat → List ResumePoint → Prop) (points : List ResumePoint) : Prop :=
  ∃ index last rest, points = .list index last :: rest ∧ E index rest

/-- The rest of an `if` statement, once the branch is known. -/
def Eval.takenBranch {σ : Type} (taken : Bool) (consequent : Eval σ Completion)
    (alternate : Option (Eval σ Completion)) : Eval σ Completion :=
  match if taken then some consequent else alternate with
  | none => pure (.normal (some .undefined))
  | some body => recording (.branch taken) body

def InBranch (E : Bool → List ResumePoint → Prop) (points : List ResumePoint) : Prop :=
  ∃ taken rest, points = .branch taken :: rest ∧ E taken rest

def InSwitch (E : Nat → List ResumePoint → Prop) (points : List ResumePoint) : Prop :=
  ∃ start value scope rest, points = .switch start value scope :: rest ∧ E start rest

def LeavesCase (E : Nat → List ResumePoint → Prop) (index : Nat) (scope : Option EnvironmentId)
    (points : List ResumePoint) : Prop :=
  ∃ i value rest, points = .switch (index + i) value scope :: rest ∧ E i rest

def InLoop (E : List ResumePoint → Prop) (points : List ResumePoint) : Prop :=
  ∃ value environment rest, points = .loop value environment :: rest ∧ E rest

def TryPart (block handler finalizer : List ResumePoint → Prop) : TryPhase → List ResumePoint → Prop
  | .block => block
  | .handler _ => handler
  | .finalizer _ => finalizer

def InTry (block handler finalizer : List ResumePoint → Prop) (points : List ResumePoint) : Prop :=
  ∃ phase rest, points = .tryCatch phase :: rest ∧ TryPart block handler finalizer phase rest

def AtYield (slots : Nat → Prop) (points : List ResumePoint) : Prop :=
  ∃ slot, points = [.yield slot] ∧ slots slot

def YieldsAt : (first : Nat) → List Declarator → (slot : Nat) → Prop
  | _, [], _ => False
  | first, d :: rest, slot => slot = first ∧ d.yields = true ∨ YieldsAt (first + 1) rest slot

def Expr.FitsStatement : Expr → List ResumePoint → Prop
  | .yield .. | .assign .plain _ (.yield ..) _ => AtYield (· = 0)
  | _ => fun _ => False

def fitsReturn : Option Expr → List ResumePoint → Prop
  | some (.yield ..) => AtYield (· = 0)
  | _ => fun _ => False

mutual

def Stmt.Fits (strict : Bool) : Stmt → List ResumePoint → Prop
  | .declare declaration => AtYield (YieldsAt 0 declaration.declarators)
  | .expression e _ => e.FitsStatement
  | .return argument _ => fitsReturn argument
  | .block body _ => InScope (InList (fitsAt strict body))
  | .branch _ consequent alternate _ =>
    InBranch fun taken => if taken then consequent.Fits strict else fitsOption strict alternate
  | .switch _ cases _ => InSwitch (fitsCase strict cases)
  | .forLoop _ _ _ body _ | .whileLoop _ body _ | .doWhile body _ _ => InLoop (body.Fits strict)
  | .tryCatch body handler finalizer _ =>
    InTry (InScope (InList (fitsAt strict body))) (fitsHandler strict handler)
      (fitsFinalizer strict finalizer)
  | .withObject _ body _ => fun points => strict = false ∧ InScope (body.Fits strict) points
  | .labelled _ body _ => body.Fits strict
  | _ => fun _ => False

def fitsAt (strict : Bool) : List Stmt → Nat → List ResumePoint → Prop
  | [], _ => fun _ => False
  | s :: _, 0 => s.Fits strict
  | _ :: rest, index + 1 => fitsAt strict rest index

def fitsOption (strict : Bool) : Option Stmt → List ResumePoint → Prop
  | none => fun _ => False
  | some s => s.Fits strict

def fitsCase (strict : Bool) : List SwitchCase → Nat → List ResumePoint → Prop
  | [], _ => fun _ => False
  | ⟨_, body⟩ :: _, 0 => InList (fitsAt strict body)
  | _ :: rest, index + 1 => fitsCase strict rest index

def fitsHandler (strict : Bool) : Option CatchClause → List ResumePoint → Prop
  | none => fun _ => False
  | some ⟨_, body⟩ => InScope (InList (fitsAt strict body))

def fitsFinalizer (strict : Bool) : Option (List Stmt) → List ResumePoint → Prop
  | none => fun _ => False
  | some body => InScope (InList (fitsAt strict body))

end

def Body.Fits (strict : Bool) : Body → List ResumePoint → Prop
  | .block statements => InList (fitsAt strict statements)
  | .concise _ => fun _ => False

/-! ## What the records say -/

theorem YieldsAt.le {slot first : Nat} {ds : List Declarator} (h : YieldsAt first ds slot) :
    first ≤ slot := by
  induction ds generalizing first with
  | nil => exact h.elim
  | cons d rest ih =>
    rcases h with ⟨rfl, _⟩ | h
    · exact Nat.le_refl slot
    · exact Nat.le_of_succ_le (ih h)

theorem YieldsAt.any {slot first : Nat} {ds : List Declarator} (h : YieldsAt first ds slot) :
    ds.any Declarator.yields = true := by
  induction ds generalizing first with
  | nil => exact h.elim
  | cons d rest ih =>
    rcases h with ⟨_, yields⟩ | h
    · simp [yields]
    · simp [ih h]

theorem Stmt.Fits.not_known {strict : Bool} {s : Stmt} (h : s.Fits strict points) (shortcuts : Bool) :
    s.knownCompletion? shortcuts = none := by
  unfold Stmt.knownCompletion?
  fun_cases Stmt.shortcut? s <;> simp_all [Stmt.Fits, Expr.FitsStatement, fitsReturn]

def EndsInYield (points : List ResumePoint) : Prop := ∃ slot, points.getLast? = some (.yield slot)

theorem EndsInYield.cons (h : EndsInYield points) (point : ResumePoint) :
    EndsInYield (point :: points) := by
  obtain ⟨slot, last⟩ := h
  exact ⟨slot, by simp [List.getLast?_cons, last]⟩

theorem AtYield.ends {slots : Nat → Prop} (h : AtYield slots points) : EndsInYield points := by
  obtain ⟨slot, rfl, _⟩ := h
  exact ⟨slot, rfl⟩

theorem InScope.ends {E : List ResumePoint → Prop} (inner : ∀ points, E points → EndsInYield points)
    (h : InScope E points) : EndsInYield points := by
  obtain ⟨scope, rest, rfl, h⟩ := h
  exact (inner rest h).cons _

theorem InList.ends {E : Nat → List ResumePoint → Prop}
    (inner : ∀ index points, E index points → EndsInYield points) (h : InList E points) :
    EndsInYield points := by
  obtain ⟨index, last, rest, rfl, h⟩ := h
  exact (inner index rest h).cons _

mutual

theorem Stmt.Fits.ends {strict : Bool} (s : Stmt) (points : List ResumePoint)
    (h : s.Fits strict points) : EndsInYield points := by
  cases s with simp only [Stmt.Fits] at h
  | declare declaration =>
    exact h.ends
  | expression e span =>
    unfold Expr.FitsStatement at h
    split at h
    · exact h.ends
    · exact h.ends
    · exact h.elim
  | «return» argument span =>
    unfold fitsReturn at h
    split at h
    · exact h.ends
    · exact h.elim
  | block body span =>
    exact h.ends fun _ => InList.ends (fitsAt_ends body)
  | branch test consequent alternate span =>
    obtain ⟨taken, rest, rfl, h⟩ := h
    cases taken with
    | true => exact (Stmt.Fits.ends consequent rest h).cons _
    | false => cases alternate with
      | none => exact h.elim
      | some s => exact (Stmt.Fits.ends s rest h).cons _
  | switch discriminant cases span =>
    obtain ⟨start, value, scope, rest, rfl, h⟩ := h
    exact (fitsCase_ends cases start rest h).cons _
  | forLoop init test update body span | whileLoop test body span | doWhile body test span =>
    obtain ⟨value, environment, rest, rfl, h⟩ := h
    exact (Stmt.Fits.ends body rest h).cons _
  | tryCatch body handler finalizer span =>
    obtain ⟨phase, rest, rfl, h⟩ := h
    refine EndsInYield.cons ?_ _
    cases phase with
    | block => exact InScope.ends (fun _ => InList.ends (fitsAt_ends body)) h
    | handler environment => cases handler with
      | none => exact h.elim
      | some handler =>
        obtain ⟨parameter, body⟩ := handler
        exact InScope.ends (fun _ => InList.ends (fitsAt_ends body)) h
    | finalizer pending => cases finalizer with
      | none => exact h.elim
      | some finalizer => exact InScope.ends (fun _ => InList.ends (fitsAt_ends finalizer)) h
  | withObject e body span =>
    exact h.2.ends (Stmt.Fits.ends body)
  | labelled label body span =>
    exact Stmt.Fits.ends body points h

theorem fitsAt_ends {strict : Bool} (body : List Stmt) (index : Nat) (points : List ResumePoint)
    (h : fitsAt strict body index points) : EndsInYield points := by
  match body, index with
  | [], _ => exact h.elim
  | s :: _, 0 => exact Stmt.Fits.ends s points h
  | _ :: rest, index + 1 => exact fitsAt_ends rest index points h

theorem fitsCase_ends {strict : Bool} (cases : List SwitchCase) (start : Nat)
    (points : List ResumePoint) (h : fitsCase strict cases start points) : EndsInYield points := by
  match cases, start with
  | [], _ => exact h.elim
  | ⟨_, body⟩ :: _, 0 => exact InList.ends (fitsAt_ends body) h
  | ⟨_, _⟩ :: rest, start + 1 => exact fitsCase_ends rest start points h

end

theorem Body.Fits.ends {strict : Bool} {body : Body} (h : body.Fits strict points) :
    EndsInYield points := by
  cases body with
  | concise e => exact h.elim
  | block statements => exact InList.ends (fitsAt_ends statements) h

end ScriptEngine
