import ScriptEngine.Action

/-!
Suspending and resuming constructs. A construct that may hold a `yield` takes its record when it is
entered, which tells it where to go on, and leaves a record when a suspension passes through it.
-/

namespace ScriptEngine.Eval

variable {σ α : Type}

/-- Takes the record of the construct being entered and reads it. A record of another construct is
a breach of the replay. -/
def takeRecord (reading : ResumePoint → Option α) : Eval σ (Option α) := do
  match ← perform .takeResumePoint with
  | none => pure none
  | some point => match reading point with
    | some a => pure (some a)
    | none => throw (.internal (.resumePoint point))

def takeList : Eval σ (Option (Nat × Option Value)) :=
  takeRecord fun
    | .list index last => some (index, last)
    | _ => none

def takeScope : Eval σ (Option (Option EnvironmentId)) :=
  takeRecord fun
    | .scope environment => some environment
    | _ => none

def takeBranch : Eval σ (Option Bool) :=
  takeRecord fun
    | .branch consequent => some consequent
    | _ => none

def takeLoop : Eval σ (Option (Value × Option EnvironmentId)) :=
  takeRecord fun
    | .loop value environment => some (value, environment)
    | _ => none

def takeSwitch : Eval σ (Option (Nat × Value × Option EnvironmentId)) :=
  takeRecord fun
    | .switch index value environment => some (index, value, environment)
    | _ => none

def takeTry : Eval σ (Option TryPhase) :=
  takeRecord fun
    | .tryCatch phase => some phase
    | _ => none

def takeYield : Eval σ (Option Nat) :=
  takeRecord fun
    | .yield slot => some slot
    | _ => none

def recording (point : ResumePoint) (x : Eval σ α) : Eval σ α := do
  match ← outcome x with
  | .ok a => pure a
  | .error fault => do
    if fault.isSuspension then perform (.pushResumePoint point)
    throw fault

/-! ## Yielding -/

inductive Yielded where
  | value (v : Value)
  | return (v : Value)

def suspendAt (operand : Eval σ Value) (slot : Nat) (span : Span) : Eval σ Yielded := do
  match ← ask (·.runningGenerator?) with
  | none => throw (.syntaxError .yieldOutsideGenerator span)
  | some _ => do
    let v ← operand
    perform (.pushResumePoint (.yield slot))
    throw (.suspended v)

def resumeAt (span : Span) : Eval σ Yielded := do
  match ← perform .takeResumption with
  | none => pure (.value .undefined)
  | some (.next v) => pure (.value v)
  | some (.return v) => pure (.return v)
  | some (.throw v) => throw (.thrown v span)

/-- A `yield` in a slot: resumed when the record names that slot, and suspended otherwise. -/
def yieldAt (operand : Eval σ Value) (slot : Nat) (span : Span) (resumed : Option Nat) :
    Eval σ Yielded :=
  if resumed = some slot then resumeAt span else suspendAt operand slot span

end ScriptEngine.Eval
