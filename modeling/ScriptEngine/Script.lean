import ScriptEngine.Statement

/-!
Evaluation of whole scripts. The names that a script declares are created in the global scope before
its first statement runs.
-/

namespace ScriptEngine

variable {σ : Type}

namespace Eval

def refuseDeclared (conflicts : Machine σ → String → Bool) : List String → Eval σ Unit
  | [] => pure ()
  | name :: rest => do
    if ← ask fun m => conflicts m name then throw (.syntaxError (.alreadyDeclared name))
    refuseDeclared conflicts rest

def declareGlobalFunctions (scope : EnvironmentId) : List FunctionNode → Eval σ Unit
  | [] => pure ()
  | f :: rest => do
    if let some name := f.name then
      let function ← createFunction f scope
      attempt (.declareFunction scope name (.object function) false)
    declareGlobalFunctions scope rest

def declareGlobalVars (scope : EnvironmentId) : List String → Eval σ Unit
  | [] => pure ()
  | name :: rest => do
    attempt (.declareVar scope name false)
    declareGlobalVars scope rest

/-- Declares the names of a script. All conflicts with earlier scripts are looked for first. -/
def declareGlobals (scope : EnvironmentId) (declared : BodyScope) : Eval σ Unit := do
  refuseDeclared (fun m name => m.store.hasVar scope name || m.store.hasLexical scope name ||
    m.store.hasRestricted scope name) (declared.lexical.map (·.name))
  refuseDeclared (fun m name => m.store.hasLexical scope name)
    (declared.varNames ++ declared.functions.filterMap (·.name))
  declareGlobalFunctions scope declared.functions
  declareGlobalVars scope declared.varNames
  createLexicals scope declared.lexical

end Eval

open Eval

namespace Program

def runBody (shortcuts : Bool) (program : Program) (scope : EnvironmentId) :
    Eval σ Completion := do
  let result ← outcome do
    declareGlobals scope program.scope
    evalStatements shortcuts program.body
  match result with
  | .ok completion => pure completion
  | .error fault =>
    if fault.isHostAbort then throw fault
    else do
      let v ← faultValue fault
      pure (.throwing v (fault.location.getD program.span))

def run (shortcuts : Bool) (program : Program) : Eval σ Completion := do
  perform .resetLimits
  let scope ← ask (·.realm.globalEnvironment)
  let strict ← ask (·.options.strict)
  inFrame { lexical := scope, varScope := scope, strict := program.strict || strict }
    (program.runBody shortcuts scope)

def eval (shortcuts : Bool) (program : Program) : Eval σ Value := do
  let completion ← program.run shortcuts
  match completion.kind with
  | .throw => throw (.thrown completion.valueOrUndefined completion.location)
  | _ => pure completion.valueOrUndefined

end Program

end ScriptEngine
