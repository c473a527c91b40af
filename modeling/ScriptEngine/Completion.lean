import ScriptEngine.Value

/-!
Completions: how the evaluation of a statement ended, and with which value.
-/

namespace ScriptEngine

inductive CompletionKind where
  | normal
  | break
  | continue
  | return
  | throw
deriving DecidableEq

/-- The outcome of a statement. An absent value is the empty value, which a statement list replaces
by the last value it saw. -/
structure Completion where
  kind : CompletionKind
  value : Option Value := none
  label : Option String := none
  location : Span := {}

namespace Completion

def normal (value : Option Value) : Completion := { kind := .normal, value }

def empty : Completion := normal none

def returning (value : Value) : Completion := { kind := .return, value := some value }

def throwing (value : Value) (location : Span) : Completion :=
  { kind := .throw, value := some value, location }

def breaking (label : Option String) (location : Span) : Completion :=
  { kind := .break, label, location }

def continuing (label : Option String) (location : Span) : Completion :=
  { kind := .continue, label, location }

def isAbrupt (c : Completion) : Bool := c.kind ≠ .normal

def valueOrUndefined (c : Completion) : Value := c.value.getD .undefined

def updateEmpty (c : Completion) (value : Option Value) : Completion :=
  { c with value := c.value <|> value }

def continuesLoop (c : Completion) (labels : List String) : Bool :=
  match c.kind with
  | .normal => true
  | .continue => match c.label with
    | none => true
    | some label => labels.contains label
  | _ => false

def isPlainBreak (c : Completion) : Bool := c.kind = .break && c.label.isNone

def exitBreakable (c : Completion) : Completion := if c.isPlainBreak then normal c.value else c

def exitLabel (c : Completion) (label : String) : Completion :=
  if c.kind = .break && c.label = some label then normal c.value else c

end Completion

end ScriptEngine
