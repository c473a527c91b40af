import ScriptEngine.Value

/-!
The stack of running calls. Each script, call, construction and generator run has one frame, and a
suspended generator keeps its frame aside.
-/

namespace ScriptEngine

structure Frame where
  lexical : EnvironmentId
  varScope : EnvironmentId
  generator : Option GeneratorId := none
  strict : Bool
  name : Option String := none
deriving Inhabited

def Frame.trace (name : Option String) : String := "    at " ++ name.getD "<anonymous>"

structure CallStack where
  frames : List Frame := []
deriving Inhabited

namespace CallStack

def depth (s : CallStack) : Nat := s.frames.length

def push (s : CallStack) (frame : Frame) : CallStack := ⟨frame :: s.frames⟩

def pop (s : CallStack) : CallStack := ⟨s.frames.tail⟩

def running? (s : CallStack) : Option Frame := s.frames.head?

def setScope (s : CallStack) (lexical varScope : EnvironmentId) : CallStack :=
  match s.frames with
  | [] => s
  | frame :: rest => ⟨{ frame with lexical, varScope } :: rest⟩

def names (s : CallStack) : List (Option String) := s.frames.map (·.name)

end CallStack

end ScriptEngine
