import ScriptEngine.Completion

/-!
Declarations of a piece of code. `var` names and the functions at the top of a body belong to the
whole body; other names belong to the innermost statement list.
-/

namespace ScriptEngine

structure LexicalName where
  name : String
  constant : Bool
deriving DecidableEq

inductive Shortcut where
  | empty
  | value (v : Value)
  | return (v : Value)

def Shortcut.completion : Shortcut → Completion
  | .empty => .empty
  | .value v => .normal v
  | .return v => .returning v

def Stmt.shortcut? : Stmt → Option Shortcut
  | .empty _ | .debugger _ | .functionDecl _ => some .empty
  | .expression (.literal l _) _ => some (.value l.value)
  | .return none _ => some (.return .undefined)
  | .return (some (.literal l _)) _ => some (.return l.value)
  | _ => none

/-! ## Statement lists -/

def Stmt.lexicalNames : Stmt → List LexicalName
  | .declare ⟨.var, _, _⟩ => []
  | .declare ⟨.let, declarators, _⟩ => declarators.map fun d => ⟨d.name, false⟩
  | .declare ⟨.const, declarators, _⟩ => declarators.map fun d => ⟨d.name, true⟩
  | .classDecl node => (node.name.map fun name => ⟨name, false⟩).toList
  | _ => []

def lexicalNames (statements : List Stmt) : List LexicalName :=
  statements.flatMap Stmt.lexicalNames

def declaredFunctions (statements : List Stmt) : List FunctionNode :=
  statements.filterMap fun
    | .functionDecl node => some node
    | _ => none

structure BlockScope where
  lexical : List LexicalName
  functions : List FunctionNode

def blockScope (statements : List Stmt) : BlockScope :=
  ⟨lexicalNames statements, declaredFunctions statements⟩

def switchScope (cases : List SwitchCase) : BlockScope :=
  blockScope (cases.flatMap (·.body))

/-! ## Bodies -/

def Declaration.varNames : Declaration → List String
  | ⟨.var, declarators, _⟩ => declarators.map (·.name)
  | _ => []

def ForInit.varNames : ForInit → List String
  | .declaration d => d.varNames
  | _ => []

mutual

/-- The `var` names declared in a statement, nested statements included but not nested functions, in
order and with repetitions. -/
def Stmt.varNames : Stmt → List String
  | .declare declaration => declaration.varNames
  | .block body _ => varNamesOf body
  | .branch _ consequent alternate _ => consequent.varNames ++ varNamesOfOption alternate
  | .forLoop init _ _ body _ => init.varNames ++ body.varNames
  | .whileLoop _ body _ | .doWhile body _ _ | .withObject _ body _ | .labelled _ body _ =>
    body.varNames
  | .tryCatch block handler finalizer _ =>
    varNamesOf block ++ varNamesOfHandler handler ++ varNamesOfFinalizer finalizer
  | .switch _ cases _ => varNamesOfCases cases
  | _ => []

def varNamesOf : List Stmt → List String
  | [] => []
  | s :: rest => s.varNames ++ varNamesOf rest

def varNamesOfOption : Option Stmt → List String
  | none => []
  | some s => s.varNames

def varNamesOfHandler : Option CatchClause → List String
  | none => []
  | some ⟨_, body⟩ => varNamesOf body

def varNamesOfFinalizer : Option (List Stmt) → List String
  | none => []
  | some body => varNamesOf body

def varNamesOfCases : List SwitchCase → List String
  | [] => []
  | ⟨_, body⟩ :: rest => varNamesOf body ++ varNamesOfCases rest

end

def lastOfEachName : List FunctionNode → List FunctionNode
  | [] => []
  | f :: rest =>
    if f.name.isNone || rest.any (·.name == f.name) then lastOfEachName rest
    else f :: lastOfEachName rest

structure BodyScope where
  varNames : List String := []
  functions : List FunctionNode := []
  lexical : List LexicalName := []

def bodyScope (statements : List Stmt) : BodyScope :=
  { varNames := (varNamesOf statements).eraseDups
    functions := lastOfEachName (declaredFunctions statements)
    lexical := lexicalNames statements }

def Program.scope (program : Program) : BodyScope := bodyScope program.body

def FunctionNode.scope (node : FunctionNode) : BodyScope :=
  match node.body with
  | .block statements => bodyScope statements
  | .concise _ => {}

def FunctionNode.parameterNames (node : FunctionNode) : List String :=
  node.parameters.map (·.name)

def FunctionNode.hasParameterExpressions (node : FunctionNode) : Bool :=
  node.parameters.any (·.fallback.isSome)

end ScriptEngine
