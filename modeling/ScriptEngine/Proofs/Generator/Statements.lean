import ScriptEngine.Proofs.Discipline
import ScriptEngine.Proofs.Generator.Resuming

/-!
# Statements resume where they were suspended

Each statement can be entered with the records that fit it and leaves such records when it suspends
(`Stmt.resumes`).
-/

namespace ScriptEngine

variable {σ α : Type}

def Loop.entered (resuming : Bool) (value : Value) (environment : EnvironmentId) : Loop → Loop
  | .whileLoop test body labels _ _ => .whileLoop test body labels value resuming
  | .doWhile body test labels _ => .doWhile body test labels value
  | .forLoop r => .forLoop { r with environment, value, resuming }

@[simp] theorem Loop.entered_body (resuming : Bool) (value : Value) (environment : EnvironmentId)
    (l : Loop) : (l.entered resuming value environment).body = l.body := by
  cases l <;> rfl

@[simp] theorem Loop.entered_entered (resuming resuming' : Bool) (value value' : Value)
    (environment environment' : EnvironmentId) (l : Loop) :
    (l.entered resuming value environment).entered resuming' value' environment' =
      l.entered resuming' value' environment' := by
  cases l <;> rfl

def Loop.Fits (strict : Bool) : Loop → List ResumePoint → Prop
  | .whileLoop _ body _ _ resuming, points => resuming = true ∧ body.Fits strict points
  | .doWhile body _ _ _, points => body.Fits strict points
  | .forLoop r, points => r.resuming = true ∧ r.body.Fits strict points

def Loop.Leaves (strict : Bool) (l : Loop) (points : List ResumePoint) : Prop :=
  ∃ value environment rest, points = .loop value environment :: rest ∧ l.body.Fits strict rest

@[simp] theorem Loop.entered_leaves (resuming strict : Bool) (value : Value)
    (environment : EnvironmentId) (l : Loop) :
    (l.entered resuming value environment).Leaves strict = l.Leaves strict := by
  funext points
  simp only [Loop.Leaves, entered_body]

open Eval

structure Promises.Kept (P : Promises σ) (A : Answers σ) : Prop where
  faithful : P.Faithful A
  calls : P.Orderly
  loops : ∀ strict l, Resumes P strict (l.Fits strict) (l.Leaves strict) (Eval.loop l)

namespace Loop

variable (strict : Bool) (l : Loop) (around : Around)

theorem suits_untracked : l.Suits false strict around = l.Fits strict := by
  cases l <;> funext points <;> simp [Suits, Fits, Stmt.suits_eq, resumable, body]

theorem leaving_untracked : l.Leaving false strict around = l.Leaves strict := by
  rw [Leaving, (Stmt.suits_eq strict l.body _ _).2]
  rfl

end Loop

variable {P : Promises σ} [P.Lawful] {A : Answers σ} (kept : P.Kept A)

include kept

theorem Eval.Plain.starts {strict : Bool} {F : List ResumePoint → Prop} {x : Eval σ α}
    (h : Plain x) : Starts P strict F x := (h.ordinary kept.calls).starts

def Promises.Kept.discipline (kept : P.Kept A) (strict : Bool) : Discipline σ strict where
  tracks := false
  Judges E F _ x := Resumes P strict E F x
  mono h entry exit := h.mono entry exit
  done _ := starts_pure _
  plain h := h.starts kept
  chain hx hf := hx.bind fun a => hf a nofun
  ask h := .ask h
  within h scope := resumes_within h scope
  take := Resumes.take
  record h outer := resumes_recording h outer
  check h := h.checkLimits
  settles h span := resumes_settle kept.calls h span
  yields plain slot span resumed := resumes_yieldAt (plain.ordinary kept.calls) slot span resumed
  loops {l around} _ := by
    rw [l.suits_untracked, l.leaving_untracked]
    exact kept.loops strict l

variable (strict shortcuts : Bool)

theorem Stmt.resumes (s : Stmt) (labels : List String) :
    Resumes P strict (s.Fits strict) (s.Fits strict) (s.eval shortcuts labels) := by
  have judged := (kept.discipline strict).statement shortcuts s {} labels nofun
  rwa [show (kept.discipline strict).tracks = false from rfl, (s.suits_eq ..).2] at judged

theorem evalFrom_resumes (body : List Stmt) (index skip : Nat) (last : Option Value) :
    Resumes P strict (fitsAt strict body skip)
      (fun points => ∃ i last rest, points = .list (index + i) last :: rest ∧
        fitsAt strict body i rest)
      (evalFrom shortcuts body index skip last) := by
  have judged := (kept.discipline strict).statementsFrom shortcuts body {} nofun index skip last
  rwa [show (kept.discipline strict).tracks = false from rfl, (suitsAt_eq ..).2] at judged

theorem resumes_statements (body : List Stmt) :
    Resumes P strict (InList (fitsAt strict body)) (InList (fitsAt strict body))
      (list (evalFrom shortcuts body 0)) := by
  have each := (kept.discipline strict).statementsFrom shortcuts body {} nofun
  have judged := (kept.discipline strict).statements each
  rwa [show (kept.discipline strict).tracks = false from rfl, (suitsAt_eq ..).2] at judged

theorem evalCases_resumes (cases : List SwitchCase) (index skip : Nat) (value : Value)
    (scope : Option EnvironmentId) :
    Resumes P strict (fitsCase strict cases skip) (LeavesCase (fitsCase strict cases) index scope)
      (evalCases shortcuts cases index skip value scope) := by
  have judged := (kept.discipline strict).casesFrom shortcuts cases {} nofun index skip value scope
  rwa [show (kept.discipline strict).tracks = false from rfl, (suitsCase_eq ..).2] at judged

theorem Loop.round_resumes (l : Loop) :
    Resumes P strict (l.Fits strict) (l.Leaves strict) (l.round shortcuts) := by
  have judged := (kept.discipline strict).round shortcuts l {} nofun
  rwa [show (kept.discipline strict).tracks = false from rfl, l.suits_untracked,
    l.leaving_untracked] at judged

end ScriptEngine
