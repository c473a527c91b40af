import ScriptEngine.CallStack
import ScriptEngine.Completion
import ScriptEngine.Object

/-!
Generators. A generator suspends by unwinding its body: every construct that is left on the way
records where it was, innermost first. Resuming enters the body again from the top, and each
construct takes its own record and goes on from there.
-/

namespace ScriptEngine

inductive TryPhase where
  | block
  | handler (environment : Option EnvironmentId)
  | finalizer (pending : Completion)

inductive ResumePoint where
  | list (index : Nat) (last : Option Value)
  | scope (environment : Option EnvironmentId)
  | branch (consequent : Bool)
  | loop (value : Value) (environment : Option EnvironmentId)
  | switch (index : Nat) (value : Value) (environment : Option EnvironmentId)
  | tryCatch (phase : TryPhase)
  | yield (slot : Nat)

def ResumePoint.name : ResumePoint → String
  | .list .. => "list"
  | .scope .. => "scope"
  | .branch .. => "branch"
  | .loop .. => "loop"
  | .switch .. => "switch"
  | .tryCatch .. => "try"
  | .yield .. => "yield"

inductive Resumption where
  | next (value : Value)
  | throw (value : Value)
  | return (value : Value)

inductive GeneratorState where
  | suspendedStart
  | suspendedYield
  | executing
  | completed
deriving DecidableEq

structure Generator where
  state : GeneratorState := .suspendedStart
  frame : Option Frame
  brand : Option String := none
  function : ObjectId
  closure : Closure
  resumePoints : List ResumePoint := []
  resumption : Option Resumption := none

namespace Generator

def complete (g : Generator) : Generator :=
  { g with state := .completed, frame := none, resumePoints := [], resumption := none }

def run (g : Generator) (resumption : Option Resumption) : Generator :=
  { g with state := .executing, frame := none, resumption }

def suspend (g : Generator) (frame : Frame) : Generator :=
  { g with state := .suspendedYield, frame := some frame }

end Generator

end ScriptEngine
