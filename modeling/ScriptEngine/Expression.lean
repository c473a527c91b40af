import ScriptEngine.ErrorObject
import ScriptEngine.Function
import ScriptEngine.Member

/-!
Evaluation of expressions. Operands are evaluated from left to right. A `hint` is the name that an
anonymous function or class takes from the place it is assigned to.
-/

namespace ScriptEngine

variable {σ : Type}

/-! ## Operators -/

def Expr.calleeText : Expr → String
  | .identifier name _ => name
  | .member base (.name key) _ => base.calleeText ++ "." ++ key
  | .member base (.computed _) _ => base.calleeText ++ "[...]"
  | .thisValue _ => "this"
  | _ => "expression"

def AssignOp.combine (op : AssignOp) (h : Heap) (current operand : Value) : Value :=
  match op with
  | .plain => operand
  | .add => h.add current operand
  | .sub => .number (h.toNumber current - h.toNumber operand)
  | .mul => .number (h.toNumber current * h.toNumber operand)

def UpdateOp.step (op : UpdateOp) (x : Float) : Float :=
  match op with
  | .increment => x + 1.0
  | .decrement => x + (-1.0)

def BinaryOp.compute (op : BinaryOp) (h : Heap) (a b : Value) : Value :=
  match op with
  | .add => h.add a b
  | .sub => .number (h.toNumber a - h.toNumber b)
  | .mul => .number (h.toNumber a * h.toNumber b)
  | .div => .number (h.toNumber a / h.toNumber b)
  | .mod => .number (Number.remainder (h.toNumber a) (h.toNumber b))
  | .lt => .boolean (h.compare (fun s t => s < t) (fun x y => x < y) a b)
  | .le => .boolean (h.compare (fun s t => s ≤ t) (fun x y => x ≤ y) a b)
  | .gt => .boolean (h.compare (fun s t => s > t) (fun x y => x > y) a b)
  | .ge => .boolean (h.compare (fun s t => s ≥ t) (fun x y => x ≥ y) a b)
  | .eq => .boolean (h.looseEquals a b)
  | .ne => .boolean (!h.looseEquals a b)
  | .strictEq => .boolean (a.strictEquals b)
  | .strictNe => .boolean (!a.strictEquals b)
  | .instanceOf | .inside => .undefined

def LogicalOp.decidedBy (op : LogicalOp) (left : Value) : Bool :=
  match op with
  | .and => !left.toBoolean
  | .or => left.toBoolean
  | .coalesce => !left.isNullish

namespace Eval

def binary (op : BinaryOp) (a b : Value) : Eval σ Value :=
  match op with
  | .instanceOf => do
    let made ← instanceOf a b
    pure (.boolean made)
  | .inside => match b with
    | .object o => ask fun m => .boolean (m.heap.hasProperty o (m.heap.toText a))
    | _ => do
      let (key, text) ← ask fun m => (m.heap.toText a, m.heap.toText b)
      typeError (.searchInPrimitive key text)
  | _ => ask fun m => op.compute m.heap a b

/-! ## Calls -/

def callNamed (callee this : Value) (arguments : List Value) (text : String) (span : Span) :
    Eval σ Value := do
  if ← ask fun m => m.heap.isCallable callee then call callee this arguments
  else throw (.typeError (.notFunction text) span)

def constructNamed (callee : Value) (arguments : List Value) (text : String) (span : Span) :
    Eval σ Value := do
  if ← ask fun m => m.heap.isConstructor callee then construct callee arguments none
  else throw (.typeError (.notConstructor text) span)

/-- The parent constructor that a super call from the running function uses, with the scope whose
`this` it binds and the target of the construction. -/
def superConstructor : Eval σ (EnvironmentId × Value × Value) := do
  let scope ← ask (·.thisScope)
  match ← ask fun m => (m.store.environment scope).functionRecord? with
  | none => throw (.syntaxError .unexpectedSuper)
  | some record => do
    let prototype ← ask fun m => (m.heap.get record.function).prototype
    let parent := match prototype with
      | some o => Value.object o
      | none => .undefined
    if ← ask fun m => m.heap.isConstructor parent then pure (scope, parent, record.newTarget)
    else typeError .superNotConstructor

def superCall (scope : EnvironmentId) (parent newTarget : Value) (arguments : List Value) :
    Eval σ Value := do
  if newTarget.isUndefined then throw (.syntaxError .unexpectedSuper)
  let result ← construct parent arguments (some newTarget)
  attempt (.bindThis scope result)
  pure result

/-! ## Classes -/

def classParents (parent : Value) : Eval σ (Option ObjectId × ObjectId) := do
  match parent with
  | .null => do
    let realm ← ask (·.realm)
    pure (none, realm.functionPrototype)
  | _ =>
    match parent.asObject?, ← ask fun m => m.heap.isConstructor parent with
    | some constructor, true => do
      match ← getMember parent "prototype" with
      | .object prototype => pure (some prototype, constructor)
      | .null => pure (none, constructor)
      | _ => typeError .parentPrototype
    | _, _ => do
      let text ← ask fun m => m.heap.toText parent
      typeError (.parentNotConstructor text)

def defaultConstructor (span : Span) : FunctionNode :=
  { name := none, parameters := [], body := .block [], arrow := false, generator := false,
    strict := false, span }

def defineMethods (scope : EnvironmentId) (constructor prototype : ObjectId) :
    List MethodNode → Eval σ Unit
  | [] => pure ()
  | method :: rest => do
    let home := if method.isStatic then constructor else prototype
    let function ← createFunction method.function scope
      { name := some method.key, homeObject := some home, method := true, strict := true }
    perform (.define home method.key (.hidden (.object function)))
    defineMethods scope constructor prototype rest

def buildClass (node : ClassNode) (hint : Option String) (scope : EnvironmentId)
    (parents : Option ObjectId × ObjectId) : Eval σ ObjectId := do
  let prototype ← perform (.allocate { prototype := parents.1 })
  let constructor ← createFunction (node.constructor.getD (defaultConstructor node.span)) scope
    { name := some ((node.name <|> hint).getD "")
      homeObject := some prototype
      isClass := true
      derived := node.parent.isSome
      isDefault := node.constructor.isNone
      prototype := some parents.2
      strict := true }
  perform (.define constructor "prototype" (.locked (.object prototype)))
  perform (.define prototype "constructor" (.hidden (.object constructor)))
  defineMethods scope constructor prototype node.methods
  pure constructor

/-- Evaluates a class around the evaluation of its parent. Its name is bound inside it, read-only,
and has no value before the class is complete. -/
def defineClass (node : ClassNode) (hint : Option String)
    (parents : Eval σ (Option ObjectId × ObjectId)) : Eval σ Value := do
  let outer ← ask (·.lexical)
  let scope ← perform (.enclose (.block outer))
  if let some name := node.name then attempt (.createImmutable scope name true)
  let constructor ← within scope do
    let parents ← parents
    buildClass node hint scope parents
  if let some name := node.name then attempt (.initBinding scope name (.object constructor))
  pure (.object constructor)

def literalMethod (object : ObjectId) (key : String) (node : FunctionNode) : Eval σ Value := do
  let scope ← ask (·.lexical)
  let function ← createFunction node scope
    { name := some key, homeObject := some object, method := true }
  pure (.object function)

def defineData (object : ObjectId) (key : String) (value : Value) : Eval σ Unit :=
  perform (.define object key (.data value))

end Eval

/-! ## Expressions -/

open Eval

mutual

def Expr.eval (hint : Option String) : Expr → Eval σ Value
  | .literal l _ => pure l.value
  | .identifier name _ => do
    let r ← ask (·.reference name)
    askFor (·.getReference r)
  | .thisValue _ => askFor (·.getThis)
  | .object properties _ => do
    let prototype ← ask (·.realm.objectPrototype)
    let object ← perform (.allocate { prototype := some prototype })
    evalProperties object properties
    pure (.object object)
  | .function node => functionExpression node hint
  | .classDef ⟨name, parent, constructor, methods, span⟩ =>
    defineClass ⟨name, parent, constructor, methods, span⟩ hint (evalParents parent)
  | .unary .typeof (.identifier name _) _ => do
    let r ← ask (·.reference name)
    match r.base with
    | none => pure (.string "undefined")
    | some _ => do
      let v ← askFor (·.getReference r)
      ask fun m => .string (m.heap.typeOf v)
  | .unary .typeof argument _ => do
    let v ← argument.eval none
    ask fun m => .string (m.heap.typeOf v)
  | .unary .delete (.member base key _) _ => do
    let target ← base.eval none
    let key ← key.eval
    deleteMember target key
  | .unary .delete (.identifier name _) _ => deleteName name
  | .unary .delete argument _ => do
    let _ ← argument.eval none
    pure (.boolean true)
  | .unary .not argument _ => do
    let v ← argument.eval none
    pure (.boolean (!v.toBoolean))
  | .unary .minus argument _ => do
    let v ← argument.eval none
    ask fun m => .number (-m.heap.toNumber v)
  | .unary .plus argument _ => do
    let v ← argument.eval none
    ask fun m => .number (m.heap.toNumber v)
  | .unary .void argument _ => do
    let _ ← argument.eval none
    pure .undefined
  | .binary op left right _ => do
    let a ← left.eval none
    let b ← right.eval none
    binary op a b
  | .logical op left right _ => do
    let a ← left.eval none
    if op.decidedBy a then pure a else right.eval none
  | .conditional test consequent alternate _ => do
    let v ← test.eval none
    if v.toBoolean then consequent.eval none else alternate.eval none
  | .assign .plain (.identifier name) value _ => do
    let r ← ask (·.reference name)
    let v ← value.eval (some name)
    putReference r v
    pure v
  | .assign op (.identifier name) value _ => do
    let r ← ask (·.reference name)
    let current ← askFor (·.getReference r)
    let operand ← value.eval none
    let v ← ask fun m => op.combine m.heap current operand
    putReference r v
    pure v
  | .assign .plain (.member base key) value _ => do
    let target ← base.eval none
    let key ← key.eval
    let v ← value.eval none
    setMember target key v
    pure v
  | .assign op (.member base key) value _ => do
    let target ← base.eval none
    let key ← key.eval
    let current ← getMember target key
    let operand ← value.eval none
    let v ← ask fun m => op.combine m.heap current operand
    setMember target key v
    pure v
  | .update op prefixed (.identifier name) _ => do
    let r ← ask (·.reference name)
    let current ← askFor (·.getReference r)
    let old ← ask fun m => m.heap.toNumber current
    putReference r (.number (op.step old))
    pure (.number (if prefixed then op.step old else old))
  | .update op prefixed (.member base key) _ => do
    let target ← base.eval none
    let key ← key.eval
    let current ← getMember target key
    let old ← ask fun m => m.heap.toNumber current
    setMember target key (.number (op.step old))
    pure (.number (if prefixed then op.step old else old))
  | .sequence expressions _ => evalSequence .undefined expressions
  | .member base key _ => do
    let target ← base.eval none
    let key ← key.eval
    getMember target key
  | .call (.member base key _) arguments span => do
    let target ← base.eval none
    let text := (Expr.member base key span).calleeText
    let key ← key.eval
    let callee ← getMember target key
    let arguments ← evalList arguments
    callNamed callee target arguments text span
  | .call (.superMember key _) arguments span => do
    let (base, this) ← superBase
    let key ← key.eval
    let callee ← getMember base key
    let arguments ← evalList arguments
    callNamed callee this arguments "expression" span
  | .call (.identifier name _) arguments span => do
    let r ← ask (·.reference name)
    let callee ← askFor (·.getReference r)
    let receiver ← ask fun m => r.base.bind fun e => (m.store.environment e).withObject?
    let this := match receiver with
      | some o => Value.object o
      | none => .undefined
    let arguments ← evalList arguments
    callNamed callee this arguments name span
  | .call callee arguments span => do
    let function ← callee.eval none
    let arguments ← evalList arguments
    callNamed function .undefined arguments callee.calleeText span
  | .construct callee arguments span => do
    let function ← callee.eval none
    let arguments ← evalList arguments
    constructNamed function arguments callee.calleeText span
  | .superCall arguments _ => do
    let (scope, parent, newTarget) ← superConstructor
    let arguments ← evalList arguments
    superCall scope parent newTarget arguments
  | .superMember key _ => do
    let (base, _) ← superBase
    let key ← key.eval
    getMember base key
  | .yield _ span => throw (.syntaxError .yieldPosition span)

def Key.eval : Key → Eval σ String
  | .name text => pure text
  | .computed expression => do
    let v ← expression.eval none
    ask fun m => m.heap.toText v

def evalList : List Expr → Eval σ (List Value)
  | [] => pure []
  | e :: rest => do
    let v ← e.eval none
    let vs ← evalList rest
    pure (v :: vs)

def evalSequence (last : Value) : List Expr → Eval σ Value
  | [] => pure last
  | e :: rest => do
    let v ← e.eval none
    evalSequence v rest

def evalProperties (object : ObjectId) : List PropertyNode → Eval σ Unit
  | [] => pure ()
  | ⟨key, .function node, true⟩ :: rest => do
    let key ← key.eval
    let v ← literalMethod object key node
    defineData object key v
    evalProperties object rest
  | ⟨key, value, _⟩ :: rest => do
    let key ← key.eval
    let v ← value.eval (some key)
    defineData object key v
    evalProperties object rest

def evalParents : Option Expr → Eval σ (Option ObjectId × ObjectId)
  | none => ask fun m => (some m.realm.objectPrototype, m.realm.functionPrototype)
  | some parent => do
    let v ← parent.eval none
    classParents v

end

def ClassNode.eval (node : ClassNode) (hint : Option String) : Eval σ Value :=
  defineClass node hint (evalParents node.parent)

end ScriptEngine
