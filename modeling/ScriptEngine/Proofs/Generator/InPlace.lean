import ScriptEngine.Proofs.Interpretation

/-!
# Generator bodies run in place

An evaluator of generator bodies that knows nothing of records: at a `yield` the operand is
evaluated, the object for the driver is allocated, and the body goes on at that point with the next
resumption (`Dialogue.yield`).
-/

namespace ScriptEngine

variable {σ α β : Type}

/-! ## Dialogues -/

structure Talk where
  resumptions : List Resumption
  answers : List Value := []

inductive Exchange (σ α : Type) where
  | finished (a : α) (talk : Talk) (m : Machine σ)
  | waiting (answers : List Value) (m : Machine σ)
  | exhausted

namespace Exchange

def andThen (x : Exchange σ α) (next : α → Talk → Machine σ → Exchange σ β) : Exchange σ β :=
  match x with
  | .finished a talk m => next a talk m
  | .waiting answers m => .waiting answers m
  | .exhausted => .exhausted

def mapMachine (x : Exchange σ α) (change : Machine σ → Machine σ) : Exchange σ α :=
  match x with
  | .finished a talk m => .finished a talk (change m)
  | .waiting answers m => .waiting answers (change m)
  | .exhausted => .exhausted

end Exchange

def Outcome.exchange (o : Outcome σ α) (talk : Talk) : Exchange σ α :=
  match o with
  | .finished a m => .finished a talk m
  | .exhausted => .exhausted

def Dialogue (σ α : Type) := (fuel : Nat) → Talk → Machine σ → Exchange σ (Except Fault α)

namespace Dialogue

def handle (x : Dialogue σ α) (next : Except Fault α → Dialogue σ β) : Dialogue σ β :=
  fun fuel talk m => (x fuel talk m).andThen fun r => next r fuel

def ofExcept (r : Except Fault α) : Dialogue σ α := fun _ talk m => .finished r talk m

instance : Monad (Dialogue σ) where
  pure a := ofExcept (.ok a)
  bind x f := x.handle fun
    | .ok a => f a
    | .error fault => ofExcept (.error fault)

def silent (engine : Engine σ) (x : Eval σ α) : Dialogue σ α :=
  fun fuel talk m => (engine.run fuel x m).exchange talk

def within (lexical : EnvironmentId) (x : Dialogue σ α) : Dialogue σ α := fun fuel talk m =>
  (x fuel talk (m.setScope lexical m.varScope)).mapMachine (·.setScope m.lexical m.varScope)

def withinSome (scope : Option EnvironmentId) (x : Dialogue σ α) : Dialogue σ α :=
  match scope with
  | some e => within e x
  | none => x

def tell (answer : Value) : Dialogue σ Resumption := fun _ talk m =>
  match talk.resumptions with
  | [] => .waiting (talk.answers ++ [answer]) m
  | resumption :: rest => .finished (.ok resumption) ⟨rest, talk.answers ++ [answer]⟩ m

def deliver (span : Span) : Resumption → Except Fault Eval.Yielded
  | .next v => .ok (.value v)
  | .return v => .ok (.return v)
  | .throw v => .error (.thrown v span)

variable (engine : Engine σ)

def yield (operand : Option Expr) (span : Span) : Dialogue σ Eval.Yielded := do
  let v ← silent engine (Eval.yieldOperand operand)
  let answer ← silent engine (Eval.iterationResult v false)
  let resumption ← tell answer
  ofExcept (deliver span resumption)

/-! ## Statements by their parts -/

def expressionStatement : Expr → Dialogue σ Completion
  | .yield operand span => do
    match ← yield engine operand span with
    | .value v => pure (.normal (some v))
    | .return v => pure (.returning v)
  | .assign .plain target (.yield operand span) _ => do
    match ← yield engine operand span with
    | .value v => do
      silent engine (Eval.assignTo target v)
      pure (.normal (some v))
    | .return v => pure (.returning v)
  | e => do
    let v ← silent engine (e.eval none)
    pure (.normal (some v))

def returnStatement : Option Expr → Dialogue σ Completion
  | none => pure (.returning .undefined)
  | some (.yield operand span) => do
    match ← yield engine operand span with
    | .value v | .return v => pure (.returning v)
  | some e => do
    let v ← silent engine (e.eval none)
    pure (.returning v)

def declarators (kind : VariableKind) : List Declarator → Dialogue σ Completion
  | [] => pure .empty
  | ⟨name, init⟩ :: rest => do
    match init with
    | some (.yield operand span) => do
      match ← yield engine operand span with
      | .return v => pure (.returning v)
      | .value v => do
        silent engine (Eval.storeDeclared kind name (some v))
        declarators kind rest
    | some e => do
      let v ← silent engine (e.eval (some name))
      silent engine (Eval.storeDeclared kind name (some v))
      declarators kind rest
    | none => do
      silent engine (Eval.storeDeclared kind name none)
      declarators kind rest

def block (scope : BlockScope) (body : Dialogue σ Completion) : Dialogue σ Completion := do
  let outer ← silent engine (Eval.ask (·.lexical))
  let environment ← silent engine (Eval.openBlock scope outer)
  withinSome environment body

def withStatement (object : Expr) (body : Dialogue σ Completion) (span : Span) :
    Dialogue σ Completion := do
  if ← silent engine (Eval.ask (·.strict)) then
    ofExcept (.error (.syntaxError .strictWith span))
  else
    let v ← silent engine (object.eval none)
    let o ← silent engine (Eval.toObject v)
    let outer ← silent engine (Eval.ask (·.lexical))
    let e ← silent engine
      (Eval.perform (.enclose { outer := some outer, record := .object o true }))
    within e body

def branch (test : Expr) (consequent : Dialogue σ Completion)
    (alternate : Option (Dialogue σ Completion)) : Dialogue σ Completion := do
  let v ← silent engine (test.eval none)
  if v.toBoolean then consequent
  else alternate.getD (pure (.normal (some .undefined)))

def switch (discriminant : Expr) (cases : List SwitchCase)
    (run : (start : Nat) → Dialogue σ Completion) : Dialogue σ Completion := do
  let v ← silent engine (discriminant.eval none)
  let outer ← silent engine (Eval.ask (·.lexical))
  let environment ← silent engine (Eval.openBlock (switchScope cases) outer)
  withinSome environment do
    match ← silent engine (Eval.selectCase v cases) with
    | none => pure (.normal (some .undefined))
    | some start => run start

def catching (handler : Option (Option String × Dialogue σ Completion)) (completion : Completion) :
    Dialogue σ Completion :=
  match completion.kind, handler with
  | .throw, some (parameter, body) => do
    let e ← silent engine (Eval.openHandler parameter completion.valueOrUndefined)
    within e body
  | _, _ => pure completion

def finalizing (finalizer : Option (Dialogue σ Completion)) (pending : Completion) :
    Dialogue σ Completion :=
  match finalizer with
  | none => pure pending
  | some body => do
    let result ← body
    pure (if result.kind = .normal then pending else result)

def tryStatement (body : Dialogue σ Completion)
    (handler : Option (Option String × Dialogue σ Completion))
    (finalizer : Option (Dialogue σ Completion)) : Dialogue σ Completion := do
  let completion ← body
  let completion ← catching engine handler completion
  finalizing finalizer completion

def afterBody (completion : Completion) (labels : List String) (value : Value)
    (next : Value → Dialogue σ Loop.Step) : Dialogue σ Loop.Step :=
  if completion.continuesLoop labels then next (completion.value.getD value)
  else pure (.done (completion.updateEmpty (some value)).exitBreakable)

def round (body : Dialogue σ Completion) : Loop → Dialogue σ Loop.Step
  | .whileLoop test statement labels value _ => do
    if ← silent engine (Loop.holds (some test)) then
      let completion ← body
      afterBody completion labels value fun value =>
        pure (.again (.whileLoop test statement labels value false))
    else pure (.done (.normal (some value)))
  | .doWhile statement test labels value => do
    let completion ← body
    afterBody completion labels value fun value => do
      if ← silent engine (Loop.holds (some test)) then
        pure (.again (.doWhile statement test labels value))
      else pure (.done (.normal (some value)))
  | .forLoop r => do
    if ← silent engine (Eval.within r.environment (Loop.holds r.test)) then
      let completion ← within r.environment body
      afterBody completion r.labels r.value fun value => do
        let environment ← silent engine (Eval.copyBindings r.environment r.copied)
        if let some update := r.update then
          let _ ← silent engine (Eval.within environment (update.eval none))
        pure (.again (.forLoop { r with environment, value, resuming := false }))
    else pure (.done (.normal (some r.value)))

def rounds (round : Loop → Dialogue σ Loop.Step) : Loop → Dialogue σ Completion
  | _, 0, _, _ => .exhausted
  | l, fuel + 1, talk, m => (round l fuel talk m).andThen fun r talk m => match r with
    | .ok (.done completion) => .finished (.ok completion) talk m
    | .ok (.again next) => rounds round next fuel talk m
    | .error fault => .finished (.error fault) talk m

def forStatement (init : ForInit) (test update : Option Expr) (body : Stmt) (labels : List String)
    (repeated : Loop → Dialogue σ Completion) : Dialogue σ Completion := do
  let outer ← silent engine (Eval.ask (·.lexical))
  let head ← silent engine (Eval.forInit init outer)
  let environment ← silent engine (Eval.copyBindings head (Eval.copiedNames init))
  repeated (.forLoop { test, update, body, copied := Eval.copiedNames init, labels, outer
                       environment, value := .undefined, resuming := false })

def settled (span : Span) (x : Dialogue σ Completion) : Dialogue σ Completion :=
  x.handle fun r => silent engine (Eval.settle span r)

end Dialogue

open Dialogue

mutual

def Stmt.inPlace (engine : Engine σ) (labels : List String) : Stmt → Dialogue σ Completion
  | .declare declaration => declarators engine declaration.kind declaration.declarators
  | .functionDecl _ | .empty _ | .debugger _ => pure .empty
  | .classDecl node => silent engine (Eval.classDeclaration node)
  | .block body _ => block engine (blockScope body) (inPlaceFrom engine body none)
  | .branch test consequent alternate _ =>
    branch engine test (consequent.inPlace engine []) (inPlaceOption engine alternate)
  | .switch discriminant cases _ =>
    switch engine discriminant cases fun start => inPlaceCases engine cases start .undefined
  | .forLoop init test update body _ =>
    forStatement engine init test update body labels (rounds (round engine (body.inPlace engine [])))
  | .whileLoop test body _ =>
    rounds (round engine (body.inPlace engine [])) (.whileLoop test body labels .undefined false)
  | .doWhile body test _ =>
    rounds (round engine (body.inPlace engine [])) (.doWhile body test labels .undefined)
  | .tryCatch body handler finalizer _ =>
    tryStatement engine (block engine (blockScope body) (inPlaceFrom engine body none))
      (inPlaceHandler engine handler) (inPlaceFinalizer engine finalizer)
  | .withObject e body span => withStatement engine e (body.inPlace engine []) span
  | .return argument _ => returnStatement engine argument
  | .break label span => pure (.breaking label span)
  | .continue label span => pure (.continuing label span)
  | .throw argument span => do
    let v ← silent engine (argument.eval none)
    pure (.throwing v span)
  | .expression e _ => expressionStatement engine e
  | .labelled label body _ => do
    let completion ← body.inPlace engine (labels ++ [label])
    pure (completion.exitLabel label)

def inPlaceFrom (engine : Engine σ) : List Stmt → (last : Option Value) → Dialogue σ Completion
  | [], last => pure (.normal last)
  | s :: rest, last => do
    let completion ← settled engine s.span (s.inPlace engine [])
    if completion.isAbrupt then pure (completion.updateEmpty last)
    else inPlaceFrom engine rest (completion.value <|> last)

def inPlaceOption (engine : Engine σ) : Option Stmt → Option (Dialogue σ Completion)
  | none => none
  | some s => some (s.inPlace engine [])

def inPlaceHandler (engine : Engine σ) :
    Option CatchClause → Option (Option String × Dialogue σ Completion)
  | none => none
  | some ⟨parameter, body⟩ =>
    some (parameter, block engine (blockScope body) (inPlaceFrom engine body none))

def inPlaceFinalizer (engine : Engine σ) : Option (List Stmt) → Option (Dialogue σ Completion)
  | none => none
  | some body => some (block engine (blockScope body) (inPlaceFrom engine body none))

def inPlaceCases (engine : Engine σ) :
    List SwitchCase → (skip : Nat) → (value : Value) → Dialogue σ Completion
  | [], _, value => pure (.normal (some value))
  | _ :: rest, skip + 1, value => inPlaceCases engine rest skip value
  | ⟨_, body⟩ :: rest, 0, value => do
    let completion ← inPlaceFrom engine body none
    let value := completion.value.getD value
    if completion.isAbrupt then pure (completion.updateEmpty (some value)).exitBreakable
    else inPlaceCases engine rest 0 value

end

def FunctionNode.inPlace (engine : Engine σ) (node : FunctionNode) : Dialogue σ Completion :=
  match node.body with
  | .block statements => inPlaceFrom engine statements none
  | .concise e => settled engine e.span do
    let v ← silent engine (e.eval none)
    pure (.returning v)

def Eval.concludeRun (g : GeneratorId) (result : Except Fault Completion) : Eval σ Value := do
  perform (.complete g)
  let completion ← Eval.ofExcept result
  let v ← Eval.ofExcept completion.result
  iterationResult v true

/-- Ends a run in place whose dialogue has come to something: the generator is completed, or parked
if the driver has nothing more to say. -/
def Answers.conclude (A : Answers σ) (g : GeneratorId) (frame : Frame) :
    Exchange σ (Except Fault Completion) → Outcome σ (List (Except Fault Value))
  | .finished r talk m =>
    (A.eval (Eval.concludeRun g r) m.pop).andThen fun result m =>
      .finished (talk.answers.map .ok ++ [result]) m
  | .waiting answers m => .finished (answers.map .ok) (m.pop.modifyGenerator g (·.suspend frame))
  | .exhausted => .exhausted

/-- Runs the body of a generator in place, from its start to its end or until its driver has nothing
more to say, and answers with what the driver is told. -/
def Engine.runInPlace (engine : Engine σ) (fuel : Nat) (g : GeneratorId)
    (resumptions : List Resumption) (m : Machine σ) : Outcome σ (List (Except Fault Value)) :=
  match (Effect.startRun g none).apply m with
  | (.error fault, m) => .finished [.error fault] m
  | (.ok (frame, closure), m) => (engine.answers fuel).conclude g frame
      (closure.node.inPlace engine fuel ⟨resumptions, []⟩ (m.push frame))

end ScriptEngine
