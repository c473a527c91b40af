import ScriptEngine.Proofs.Composed.Statement
import ScriptEngine.Proofs.Generator.Records

/-!
# Jumps and their targets

A tree is well labelled if each `break` and `continue` in it finds its target in what is `Around`
it, and a completion is `Within` if it jumps to no other place.
-/

namespace ScriptEngine

structure Around where
  breakable : Bool := false
  loop : Bool := false
  labels : List String := []
  loops : List String := []

namespace Around

def inSwitch (around : Around) : Around := { around with breakable := true }

def inLoop (around : Around) (own : List String) : Around :=
  { around with breakable := true, loop := true, loops := own ++ around.loops }

def labelled (around : Around) (label : String) : Around :=
  { around with labels := label :: around.labels }

end Around

/-! ## Completions -/

def Completion.Within (around : Around) (c : Completion) : Prop :=
  match c.kind, c.label with
  | .break, none => around.breakable = true
  | .break, some label => label ∈ around.labels
  | .continue, none => around.loop = true
  | .continue, some label => label ∈ around.loops
  | _, _ => True

def Completion.Jumpless (c : Completion) : Prop := c.kind ≠ .break ∧ c.kind ≠ .continue

namespace Completion

variable {around : Around} {c : Completion}

@[simp] theorem within_normal (value : Option Value) : (normal value).Within around := trivial

@[simp] theorem within_empty : empty.Within around := trivial

@[simp] theorem within_returning (value : Value) : (returning value).Within around := trivial

@[simp] theorem within_throwing (value : Value) (location : Span) :
    (throwing value location).Within around := trivial

theorem Within.updateEmpty (h : c.Within around) (value : Option Value) :
    (c.updateEmpty value).Within around := h

theorem Within.jumpless (h : c.Within {}) : c.Jumpless := by
  obtain ⟨kind, value, label, location⟩ := c
  cases kind <;> cases label <;> simp_all [Within, Jumpless]

theorem Within.exitSwitch (h : c.Within around.inSwitch) : c.exitBreakable.Within around := by
  obtain ⟨kind, value, label, location⟩ := c
  cases kind <;> cases label <;>
    simp_all [Within, exitBreakable, isPlainBreak, Around.inSwitch, normal]

theorem Within.exitLoop {own : List String} (h : c.Within (around.inLoop own))
    (ends : c.continuesLoop own = false) : c.exitBreakable.Within around := by
  obtain ⟨kind, value, label, location⟩ := c
  cases kind <;> cases label <;>
    simp_all [Within, exitBreakable, isPlainBreak, continuesLoop, Around.inLoop, normal]

theorem Within.exitLabel {label : String} (h : c.Within (around.labelled label)) :
    (c.exitLabel label).Within around := by
  obtain ⟨kind, value, target, location⟩ := c
  unfold Completion.exitLabel
  split
  · trivial
  · cases kind <;> cases target <;> simp_all [Within, Around.labelled]

end Completion

/-! ## Well-labelled trees -/

mutual

def Stmt.wellLabelled (around : Around) (own : List String) : Stmt → Bool
  | .break none _ => around.breakable
  | .break (some label) _ => around.labels.contains label
  | .continue none _ => around.loop
  | .continue (some label) _ => around.loops.contains label
  | .block body _ => wellLabelledList around body
  | .branch _ consequent alternate _ =>
    consequent.wellLabelled around [] && wellLabelledStmt? around alternate
  | .switch _ cases _ => wellLabelledCases around.inSwitch cases
  | .forLoop _ _ _ body _ | .whileLoop _ body _ | .doWhile body _ _ =>
    body.wellLabelled (around.inLoop own) []
  | .tryCatch body handler finalizer _ =>
    wellLabelledList around body && wellLabelledHandler around handler &&
      wellLabelledFinalizer around finalizer
  | .withObject _ body _ => body.wellLabelled around []
  | .labelled label body _ => body.wellLabelled (around.labelled label) (own ++ [label])
  | _ => true

def wellLabelledList (around : Around) : List Stmt → Bool
  | [] => true
  | s :: rest => s.wellLabelled around [] && wellLabelledList around rest

def wellLabelledStmt? (around : Around) : Option Stmt → Bool
  | none => true
  | some s => s.wellLabelled around []

def wellLabelledCases (around : Around) : List SwitchCase → Bool
  | [] => true
  | ⟨_, body⟩ :: rest => wellLabelledList around body && wellLabelledCases around rest

def wellLabelledHandler (around : Around) : Option CatchClause → Bool
  | none => true
  | some ⟨_, body⟩ => wellLabelledList around body

def wellLabelledFinalizer (around : Around) : Option (List Stmt) → Bool
  | none => true
  | some body => wellLabelledList around body

end

def FunctionNode.wellLabelled (node : FunctionNode) : Bool :=
  match node.body with
  | .block statements => wellLabelledList {} statements
  | .concise _ => true

def Program.wellLabelled (program : Program) : Bool := wellLabelledList {} program.body

/-! ## Records -/

def AimsTry (block handler finalizer : List ResumePoint → Prop) (pending : Completion → Prop)
    (points : List ResumePoint) : Prop :=
  ∃ phase rest, points = .tryCatch phase :: rest ∧ TryPart block handler finalizer phase rest ∧
    ∀ c, phase = .finalizer c → pending c

mutual

def Stmt.Aims (strict : Bool) (around : Around) (own : List String) :
    Stmt → List ResumePoint → Prop
  | .declare declaration => AtYield (YieldsAt 0 declaration.declarators)
  | .expression e _ => e.FitsStatement
  | .return argument _ => fitsReturn argument
  | .block body _ => InScope (InList (aimsAt strict around body))
  | .branch _ consequent alternate _ => InBranch fun taken =>
    if taken then consequent.Aims strict around [] else aimsOption strict around alternate
  | .switch _ cases _ => InSwitch (aimsCase strict around.inSwitch cases)
  | .forLoop _ _ _ body _ | .whileLoop _ body _ | .doWhile body _ _ =>
    InLoop (body.Aims strict (around.inLoop own) [])
  | .tryCatch body handler finalizer _ =>
    AimsTry (InScope (InList (aimsAt strict around body))) (aimsHandler strict around handler)
      (aimsFinalizer strict around finalizer) (·.Within around)
  | .withObject _ body _ => fun points =>
    strict = false ∧ InScope (body.Aims strict around []) points
  | .labelled label body _ => body.Aims strict (around.labelled label) (own ++ [label])
  | _ => fun _ => False

def aimsAt (strict : Bool) (around : Around) : List Stmt → Nat → List ResumePoint → Prop
  | [], _ => fun _ => False
  | s :: _, 0 => s.Aims strict around []
  | _ :: rest, index + 1 => aimsAt strict around rest index

def aimsOption (strict : Bool) (around : Around) : Option Stmt → List ResumePoint → Prop
  | none => fun _ => False
  | some s => s.Aims strict around []

def aimsCase (strict : Bool) (around : Around) :
    List SwitchCase → Nat → List ResumePoint → Prop
  | [], _ => fun _ => False
  | ⟨_, body⟩ :: _, 0 => InList (aimsAt strict around body)
  | _ :: rest, index + 1 => aimsCase strict around rest index

def aimsHandler (strict : Bool) (around : Around) : Option CatchClause → List ResumePoint → Prop
  | none => fun _ => False
  | some ⟨_, body⟩ => InScope (InList (aimsAt strict around body))

def aimsFinalizer (strict : Bool) (around : Around) :
    Option (List Stmt) → List ResumePoint → Prop
  | none => fun _ => False
  | some body => InScope (InList (aimsAt strict around body))

end

def Body.Aims (strict : Bool) : Body → List ResumePoint → Prop
  | .block statements => InList (aimsAt strict {} statements)
  | .concise _ => fun _ => False

namespace Loop

def labels : Loop → List String
  | .whileLoop _ _ labels _ _ | .doWhile _ _ labels _ => labels
  | .forLoop r => r.labels

def resumable : Loop → Bool
  | .whileLoop _ _ _ _ resuming => resuming
  | .doWhile .. => true
  | .forLoop r => r.resuming

def wellLabelled (around : Around) (l : Loop) : Bool :=
  l.body.wellLabelled (around.inLoop l.labels) []

def BodyAims (strict : Bool) (around : Around) (l : Loop) : List ResumePoint → Prop :=
  l.body.Aims strict (around.inLoop l.labels) []

def Aims (strict : Bool) (around : Around) (l : Loop) (points : List ResumePoint) : Prop :=
  l.resumable = true ∧ l.BodyAims strict around points

end Loop

theorem Stmt.knownCompletion?_within {shortcuts : Bool} {s : Stmt} {c : Completion}
    (known : s.knownCompletion? shortcuts = some c) (around : Around) : c.Within around := by
  unfold Stmt.knownCompletion? at known
  split at known
  · obtain ⟨shortcut, -, rfl⟩ := Option.map_eq_some_iff.1 known
    cases shortcut <;> trivial
  · cases known

section

variable {strict strict' : Bool} {points : List ResumePoint}

theorem InScope.both {E E' E₁ : List ResumePoint → Prop} (h : InScope E points)
    (h' : InScope E' points) (inner : ∀ points, E points → E' points → E₁ points) :
    InScope E₁ points := by
  obtain ⟨scope, rest, rfl, h⟩ := h
  obtain ⟨_, _, ⟨⟩, h'⟩ := h'
  exact ⟨scope, rest, rfl, inner rest h h'⟩

theorem InList.both {E E' E₁ : Nat → List ResumePoint → Prop} (h : InList E points)
    (h' : InList E' points)
    (inner : ∀ index points, E index points → E' index points → E₁ index points) :
    InList E₁ points := by
  obtain ⟨index, last, rest, rfl, h⟩ := h
  obtain ⟨_, _, _, ⟨⟩, h'⟩ := h'
  exact ⟨index, last, rest, rfl, inner index rest h h'⟩

mutual

theorem Stmt.Aims.of_fits (s : Stmt) {around : Around} {own : List String}
    (points : List ResumePoint) (aims : s.Aims strict' around own points)
    (fits : s.Fits strict points) : s.Aims strict around own points := by
  cases s with simp only [Stmt.Aims, Stmt.Fits] at aims fits ⊢
  | declare | expression | «return» => exact aims
  | block body span =>
    exact aims.both fits fun _ inner inner' => inner.both inner' (aimsAt_of_fits body)
  | branch test consequent alternate span =>
    obtain ⟨taken, rest, rfl, aims⟩ := aims
    obtain ⟨_, _, ⟨⟩, fits⟩ := fits
    refine ⟨taken, rest, rfl, ?_⟩
    cases taken with
    | true => exact Stmt.Aims.of_fits consequent rest aims fits
    | false => cases alternate with
      | none => exact aims
      | some s => exact Stmt.Aims.of_fits s rest aims fits
  | switch discriminant cases span =>
    obtain ⟨start, value, scope, rest, rfl, aims⟩ := aims
    obtain ⟨_, _, _, _, ⟨⟩, fits⟩ := fits
    exact ⟨start, value, scope, rest, rfl, aimsCase_of_fits cases start rest aims fits⟩
  | forLoop init test update body span | whileLoop test body span | doWhile body test span =>
    obtain ⟨value, environment, rest, rfl, aims⟩ := aims
    obtain ⟨_, _, _, ⟨⟩, fits⟩ := fits
    exact ⟨value, environment, rest, rfl, Stmt.Aims.of_fits body rest aims fits⟩
  | tryCatch body handler finalizer span =>
    obtain ⟨phase, rest, rfl, aims, waits⟩ := aims
    obtain ⟨_, _, ⟨⟩, fits⟩ := fits
    refine ⟨phase, rest, rfl, ?_, waits⟩
    cases phase with
    | block =>
      exact InScope.both aims fits fun _ inner inner' =>
        inner.both inner' (aimsAt_of_fits body)
    | handler environment => cases handler with
      | none => exact aims
      | some handler =>
        obtain ⟨parameter, body⟩ := handler
        exact InScope.both aims fits fun _ inner inner' =>
          inner.both inner' (aimsAt_of_fits body)
    | finalizer pending => cases finalizer with
      | none => exact aims
      | some finalizer =>
        exact InScope.both aims fits fun _ inner inner' =>
          inner.both inner' (aimsAt_of_fits finalizer)
  | withObject e body span =>
    exact ⟨fits.1, aims.2.both fits.2 (Stmt.Aims.of_fits body)⟩
  | labelled label body span =>
    exact Stmt.Aims.of_fits body points aims fits

theorem aimsAt_of_fits (body : List Stmt) {around : Around} (index : Nat)
    (points : List ResumePoint) (aims : aimsAt strict' around body index points)
    (fits : fitsAt strict body index points) : aimsAt strict around body index points := by
  match body, index with
  | [], _ => exact aims
  | s :: _, 0 => exact Stmt.Aims.of_fits s points aims fits
  | _ :: rest, index + 1 => exact aimsAt_of_fits rest index points aims fits

theorem aimsCase_of_fits (cases : List SwitchCase) {around : Around} (start : Nat)
    (points : List ResumePoint) (aims : aimsCase strict' around cases start points)
    (fits : fitsCase strict cases start points) : aimsCase strict around cases start points := by
  match cases, start with
  | [], _ => exact aims
  | ⟨_, body⟩ :: _, 0 => exact InList.both aims fits (aimsAt_of_fits body)
  | ⟨_, _⟩ :: rest, start + 1 => exact aimsCase_of_fits rest start points aims fits

end

theorem Body.Aims.of_fits {body : Body} (aims : body.Aims strict' points)
    (fits : body.Fits strict points) : body.Aims strict points := by
  cases body with
  | concise e => exact aims
  | block statements => exact InList.both aims fits (aimsAt_of_fits statements)

end

end ScriptEngine
