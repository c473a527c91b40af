import ScriptEngine.Expression
import ScriptEngine.Resume
import ScriptEngine.Tree.Hoist

/-!
Evaluation of statements. Faults that scripts can catch become throw completions where they leave a
statement list. Each compound statement is a combinator on the evaluations of its parts, and
`Stmt.eval` ties them to the tree.
-/

namespace ScriptEngine

variable {σ : Type}

def Declarator.yields (d : Declarator) : Bool :=
  match d.init with
  | some (.yield ..) => true
  | _ => false

namespace Eval

/-! ## Simple statements -/

def yieldOperand : Option Expr → Eval σ Value
  | none => pure .undefined
  | some e => e.eval none

def assignTo (target : Target) (v : Value) : Eval σ Unit :=
  match target with
  | .identifier name => do
    let r ← ask (·.reference name)
    putReference r v
  | .member object key => do
    let base ← object.eval none
    let key ← key.eval
    setMember base key v

def singleYield (operand : Option Expr) (span : Span) : Eval σ Yielded := do
  let resumed ← takeYield
  yieldAt (yieldOperand operand) 0 span resumed

def expressionStatement : Expr → Eval σ Completion
  | .yield operand span => do
    match ← singleYield operand span with
    | .value v => pure (.normal (some v))
    | .return v => pure (.returning v)
  | .assign .plain target (.yield operand span) _ => do
    match ← singleYield operand span with
    | .value v => do
      assignTo target v
      pure (.normal (some v))
    | .return v => pure (.returning v)
  | e => do
    let v ← e.eval none
    pure (.normal (some v))

def returnStatement : Option Expr → Eval σ Completion
  | none => pure (.returning .undefined)
  | some (.yield operand span) => do
    match ← singleYield operand span with
    | .value v | .return v => pure (.returning v)
  | some e => do
    let v ← e.eval none
    pure (.returning v)

/-! ## Declarations -/

def createLexical (scope : EnvironmentId) (name : String) (constant : Bool) : Eval σ Unit :=
  attempt (if constant then .createImmutable scope name true else .createMutable scope name false)

def initLexical (name : String) (constant : Bool) (v : Value) : Eval σ Unit := do
  let scope ← ask (·.lexical)
  if !(← ask fun m => m.store.hasBinding scope name) then createLexical scope name constant
  attempt (.initBinding scope name v)

def storeDeclared (kind : VariableKind) (name : String) (v : Option Value) : Eval σ Unit :=
  match kind, v with
  | .var, none => pure ()
  | .var, some v => do
    let r ← ask (·.reference name)
    putReference r v
  | .let, v => initLexical name false (v.getD .undefined)
  | .const, v => initLexical name true (v.getD .undefined)

/-- Runs declarators from `slot` on; those before the resumed slot are done already. -/
def declarators (kind : VariableKind) (allowYield : Bool) (resumed : Option Nat) :
    (slot : Nat) → List Declarator → Eval σ Completion
  | _, [] => pure .empty
  | slot, ⟨name, init⟩ :: rest =>
    if resumed.any (slot < ·) then declarators kind allowYield resumed (slot + 1) rest
    else do
      match init, allowYield with
      | some (.yield operand span), true => do
        match ← yieldAt (yieldOperand operand) slot span resumed with
        | .return v => pure (.returning v)
        | .value v => do
          storeDeclared kind name (some v)
          declarators kind allowYield resumed (slot + 1) rest
      | some e, _ => do
        let v ← e.eval (some name)
        storeDeclared kind name (some v)
        declarators kind allowYield resumed (slot + 1) rest
      | none, _ => do
        storeDeclared kind name none
        declarators kind allowYield resumed (slot + 1) rest

def declare (declaration : Declaration) (allowYield : Bool) : Eval σ Completion := do
  let resumed ←
    if allowYield && declaration.declarators.any Declarator.yields then takeYield else pure none
  declarators declaration.kind allowYield resumed 0 declaration.declarators

def classDeclaration (node : ClassNode) : Eval σ Completion := do
  let constructor ← node.eval none
  if let some name := node.name then initLexical name false constructor
  pure .empty

/-! ## Scopes -/

def createLexicals (scope : EnvironmentId) : List LexicalName → Eval σ Unit
  | [] => pure ()
  | x :: rest => do
    createLexical scope x.name x.constant
    createLexicals scope rest

def createFunctionNames (scope : EnvironmentId) : List FunctionNode → Eval σ Unit
  | [] => pure ()
  | f :: rest => do
    if let some name := f.name then
      if !(← ask fun m => m.store.hasBinding scope name) then
        attempt (.createMutable scope name false)
    createFunctionNames scope rest

def createFunctions (scope : EnvironmentId) : List FunctionNode → Eval σ Unit
  | [] => pure ()
  | f :: rest => do
    if let some name := f.name then
      let function ← createFunction f scope
      attempt (.initBinding scope name (.object function))
    createFunctions scope rest

def openBlock (scope : BlockScope) (outer : EnvironmentId) : Eval σ (Option EnvironmentId) := do
  if scope.lexical.isEmpty && scope.functions.isEmpty then pure none
  else
    let e ← perform (.enclose (.block outer))
    createLexicals e scope.lexical
    createFunctionNames e scope.functions
    createFunctions e scope.functions
    pure (some e)

def withinSome (scope : Option EnvironmentId) (x : Eval σ α) : Eval σ α :=
  match scope with
  | some e => within e x
  | none => x

def block (scope : BlockScope) (body : Eval σ Completion) : Eval σ Completion := do
  let environment ← match ← takeScope with
    | some environment => pure environment
    | none => do
      let outer ← ask (·.lexical)
      openBlock scope outer
  recording (.scope environment) (withinSome environment body)

def withStatement (object : Eval σ Value) (body : Eval σ Completion) (span : Span) :
    Eval σ Completion := do
  if ← ask (·.strict) then throw (.syntaxError .strictWith span)
  let environment ← match ← takeScope with
    | some environment => pure environment
    | none => do
      let v ← object
      let o ← toObject v
      let outer ← ask (·.lexical)
      let e ← perform (.enclose { outer := some outer, record := .object o true })
      pure (some e)
  recording (.scope environment) (withinSome environment body)

/-! ## Choice -/

def branch (test : Eval σ Value) (consequent : Eval σ Completion)
    (alternate : Option (Eval σ Completion)) : Eval σ Completion := do
  let taken ← match ← takeBranch with
    | some taken => pure taken
    | none => do
      let v ← test
      pure v.toBoolean
  let chosen := if taken then some consequent else alternate
  match chosen with
  | none => pure (.normal (some .undefined))
  | some body => recording (.branch taken) body

def matchingCase (discriminant : Value) : (index : Nat) → List SwitchCase → Eval σ (Option Nat)
  | _, [] => pure none
  | index, ⟨none, _⟩ :: rest => matchingCase discriminant (index + 1) rest
  | index, ⟨some test, _⟩ :: rest => do
    let v ← test.eval none
    if v.strictEquals discriminant then pure (some index)
    else matchingCase discriminant (index + 1) rest

def selectCase (discriminant : Value) (cases : List SwitchCase) : Eval σ (Option Nat) := do
  match ← matchingCase discriminant 0 cases with
  | some index => pure (some index)
  | none => pure (cases.findIdx? (·.test.isNone))

def switch (discriminant : Eval σ Value) (cases : List SwitchCase)
    (run : (start : Nat) → (value : Value) → (scope : Option EnvironmentId) → Eval σ Completion) :
    Eval σ Completion := do
  match ← takeSwitch with
  | some (start, value, environment) => withinSome environment (run start value environment)
  | none => do
    let v ← discriminant
    let outer ← ask (·.lexical)
    let environment ← openBlock (switchScope cases) outer
    withinSome environment do
      match ← selectCase v cases with
      | none => pure (.normal (some .undefined))
      | some start => run start .undefined environment

/-! ## Loops -/

def copyBindings (last : EnvironmentId) (names : List String) : Eval σ EnvironmentId :=
  if names.isEmpty then pure last
  else do
    let outer ← ask fun m => (m.store.environment last).outer
    let e ← perform (.enclose (.block outer))
    copyInto e names
    pure e
where
  copyInto (e : EnvironmentId) : List String → Eval σ Unit
    | [] => pure ()
    | name :: rest => do
      let v ← askFor fun m => m.store.getBinding last name true
      attempt (.createMutable e name false)
      attempt (.initBinding e name v)
      copyInto e rest

def forInit (init : ForInit) (outer : EnvironmentId) : Eval σ EnvironmentId :=
  match init with
  | .none => pure outer
  | .expression e => do
    let _ ← e.eval none
    pure outer
  | .declaration declaration =>
    if declaration.kind = .var then do
      let _ ← declare declaration false
      pure outer
    else do
      let e ← perform (.enclose (.block outer))
      createLexicals e (declaration.declarators.map fun d => ⟨d.name, declaration.kind = .const⟩)
      let _ ← within e (declare declaration false)
      pure e

def copiedNames : ForInit → List String
  | .declaration ⟨.let, declarators, _⟩ => declarators.map (·.name)
  | _ => []

def forStatement (init : ForInit) (test update : Option Expr) (body : Stmt) (labels : List String) :
    Eval σ Completion := do
  let outer ← ask (·.lexical)
  let copied := copiedNames init
  match ← takeLoop with
  | some (value, environment) =>
    loop (.forLoop { test, update, body, copied, labels, outer, value, resuming := true,
                     environment := environment.getD outer })
  | none => do
    let head ← forInit init outer
    let environment ← copyBindings head copied
    loop (.forLoop { test, update, body, copied, labels, outer, value := .undefined,
                     resuming := false, environment })

def whileStatement (test : Expr) (body : Stmt) (labels : List String) : Eval σ Completion := do
  match ← takeLoop with
  | some (value, _) => loop (.whileLoop test body labels value true)
  | none => loop (.whileLoop test body labels .undefined false)

def doWhileStatement (body : Stmt) (test : Expr) (labels : List String) : Eval σ Completion := do
  match ← takeLoop with
  | some (value, _) => loop (.doWhile body test labels value)
  | none => loop (.doWhile body test labels .undefined)

/-! ## Exceptions -/

structure Handler (σ : Type) where
  parameter : Option String
  body : Eval σ Completion

def openHandler (parameter : Option String) (thrown : Value) : Eval σ EnvironmentId := do
  let outer ← ask (·.lexical)
  let e ← perform (.enclose (.block outer))
  if let some name := parameter then
    attempt (.createMutable e name false)
    attempt (.initBinding e name thrown)
  pure e

def runHandler (handler : Handler σ) (environment : Option EnvironmentId) : Eval σ Completion :=
  recording (.tryCatch (.handler environment)) (withinSome environment handler.body)

def runFinalizer (finalizer : Option (Eval σ Completion)) (pending : Completion) :
    Eval σ Completion :=
  match finalizer with
  | none => pure pending
  | some body => do
    let result ← recording (.tryCatch (.finalizer pending)) body
    pure (if result.kind = .normal then pending else result)

def runGuarded (body : Eval σ Completion) (handler : Option (Handler σ)) : Eval σ Completion := do
  let completion ← recording (.tryCatch .block) body
  match completion.kind, handler with
  | .throw, some handler => do
    let environment ← openHandler handler.parameter completion.valueOrUndefined
    runHandler handler (some environment)
  | _, _ => pure completion

def tryStatement (body : Eval σ Completion) (handler : Option (Handler σ))
    (finalizer : Option (Eval σ Completion)) : Eval σ Completion := do
  match ← takeTry with
  | some (.finalizer pending) => runFinalizer finalizer pending
  | some (.handler environment) => match handler with
    | none => throw (.internal .noHandler)
    | some handler => do
      let completion ← runHandler handler environment
      runFinalizer finalizer completion
  | some .block | none => do
    let completion ← runGuarded body handler
    runFinalizer finalizer completion

/-! ## Lists -/

def list (run : (start : Nat) → (last : Option Value) → Eval σ Completion) : Eval σ Completion := do
  match ← takeList with
  | some (start, last) => run start last
  | none => run 0 none

def listed (index : Nat) (last : Option Value) (span : Span) (statement : Eval σ Completion) :
    Eval σ Completion := do
  attempt .checkLimits
  let result ← outcome (recording (.list index last) statement)
  settle span result

def andThen (last : Option Value) (completion : Completion)
    (rest : (last : Option Value) → Eval σ Completion) : Eval σ Completion :=
  if completion.isAbrupt then pure (completion.updateEmpty last)
  else rest (completion.value <|> last)

end Eval

open Eval

/-- The completion of a statement that need not be evaluated, if `shortcuts` are taken at all. -/
def Stmt.knownCompletion? (shortcuts : Bool) (s : Stmt) : Option Completion :=
  if shortcuts then s.shortcut?.map Shortcut.completion else none

/-! ## Statements -/

mutual

def Stmt.eval (shortcuts : Bool) (labels : List String) : Stmt → Eval σ Completion
  | .declare declaration => Eval.declare declaration true
  | .functionDecl _ | .empty _ | .debugger _ => pure .empty
  | .classDecl node => classDeclaration node
  | .block body _ => Eval.block (blockScope body) (list (evalFrom shortcuts body 0))
  | .branch test consequent alternate _ =>
    Eval.branch (test.eval none) (consequent.eval shortcuts []) (evalOption shortcuts alternate)
  | .switch discriminant cases _ =>
    Eval.switch (discriminant.eval none) cases (evalCases shortcuts cases 0)
  | .forLoop init test update body _ => forStatement init test update body labels
  | .whileLoop test body _ => whileStatement test body labels
  | .doWhile body test _ => doWhileStatement body test labels
  | .tryCatch body handler finalizer _ =>
    tryStatement (Eval.block (blockScope body) (list (evalFrom shortcuts body 0)))
      (evalHandler shortcuts handler) (evalFinalizer shortcuts finalizer)
  | .withObject e body span => withStatement (e.eval none) (body.eval shortcuts []) span
  | .return argument _ => returnStatement argument
  | .break label span => pure (.breaking label span)
  | .continue label span => pure (.continuing label span)
  | .throw argument span => do
    let v ← argument.eval none
    pure (.throwing v span)
  | .expression e _ => expressionStatement e
  | .labelled label body _ => do
    let completion ← body.eval shortcuts (labels ++ [label])
    pure (completion.exitLabel label)

/-- Evaluates a list whose first statement has the given index, skipping the first `skip` of its
statements. -/
def evalFrom (shortcuts : Bool) :
    List Stmt → (index skip : Nat) → (last : Option Value) → Eval σ Completion
  | [], _, _, last => pure (.normal last)
  | _ :: rest, index, skip + 1, last => evalFrom shortcuts rest (index + 1) skip last
  | s :: rest, index, 0, last => do
    let completion ← listed index last s.span (match s.knownCompletion? shortcuts with
      | some completion => pure completion
      | none => s.eval shortcuts [])
    andThen last completion (evalFrom shortcuts rest (index + 1) 0)

def evalOption (shortcuts : Bool) : Option Stmt → Option (Eval σ Completion)
  | none => none
  | some s => some (s.eval shortcuts [])

def evalHandler (shortcuts : Bool) : Option CatchClause → Option (Handler σ)
  | none => none
  | some ⟨parameter, body⟩ =>
    some ⟨parameter, Eval.block (blockScope body) (list (evalFrom shortcuts body 0))⟩

def evalFinalizer (shortcuts : Bool) : Option (List Stmt) → Option (Eval σ Completion)
  | none => none
  | some body => some (Eval.block (blockScope body) (list (evalFrom shortcuts body 0)))

/-- Runs the clauses of a switch, the first of which has the given index, skipping the first `skip`
of them. A clause that does not break falls through to the next. -/
def evalCases (shortcuts : Bool) :
    List SwitchCase → (index skip : Nat) → (value : Value) → (scope : Option EnvironmentId) →
      Eval σ Completion
  | [], _, _, value, _ => pure (.normal (some value))
  | _ :: rest, index, skip + 1, value, scope =>
    evalCases shortcuts rest (index + 1) skip value scope
  | ⟨_, body⟩ :: rest, index, 0, value, scope => do
    let completion ← recording (.switch index value scope) (list (evalFrom shortcuts body 0))
    let value := completion.value.getD value
    if completion.isAbrupt then pure (completion.updateEmpty (some value)).exitBreakable
    else evalCases shortcuts rest (index + 1) 0 value scope

end

def evalStatements (shortcuts : Bool) (statements : List Stmt) : Eval σ Completion :=
  list (evalFrom shortcuts statements 0)

/-! ## Rounds of loops -/

namespace Loop

inductive Step where
  | done (completion : Completion)
  | again (next : Loop)

def afterBody (completion : Completion) (labels : List String) (value : Value)
    (next : Value → Eval σ Step) : Eval σ Step :=
  if completion.continuesLoop labels then next (completion.value.getD value)
  else pure (.done (completion.updateEmpty (some value)).exitBreakable)

def holds : Option Expr → Eval σ Bool
  | none => pure true
  | some test => do
    let v ← test.eval none
    pure v.toBoolean

def round (shortcuts : Bool) : Loop → Eval σ Step
  | .whileLoop test body labels value resuming => do
    let enter ← if resuming then pure true else holds (some test)
    if !enter then pure (.done (.normal (some value)))
    else
      let completion ← recording (.loop value none) (body.eval shortcuts [])
      afterBody completion labels value fun value =>
        pure (.again (.whileLoop test body labels value false))
  | .doWhile body test labels value => do
    let completion ← recording (.loop value none) (body.eval shortcuts [])
    afterBody completion labels value fun value => do
      if ← holds (some test) then pure (.again (.doWhile body test labels value))
      else pure (.done (.normal (some value)))
  | .forLoop r => do
    let enter ← if r.resuming then pure true else within r.environment (holds r.test)
    if !enter then pure (.done (.normal (some r.value)))
    else
      let record := if r.environment = r.outer then none else some r.environment
      let completion ← recording (.loop r.value record) <|
        within r.environment (r.body.eval shortcuts [])
      afterBody completion r.labels r.value fun value => do
        let environment ← copyBindings r.environment r.copied
        if let some update := r.update then
          let _ ← within environment (update.eval none)
        pure (.again (.forLoop { r with environment, value, resuming := false }))

end Loop

end ScriptEngine
