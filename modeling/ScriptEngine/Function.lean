import ScriptEngine.Action

/-!
Making function objects from function nodes.
-/

namespace ScriptEngine

structure FunctionUse where
  name : Option String := none
  homeObject : Option ObjectId := none
  method : Bool := false
  isClass : Bool := false
  derived : Bool := false
  isDefault : Bool := false
  prototype : Option ObjectId := none
  strict : Bool := false

def FunctionUse.closure (use : FunctionUse) (node : FunctionNode) (environment : EnvironmentId)
    (strictCode : Bool) : Closure :=
  let strict := use.strict || node.strict || strictCode
  { name := node.name <|> use.name
    node
    environment
    thisMode := if node.arrow then .lexical else if strict then .strict else .global
    constructorKind := if use.derived then .derived else .base
    homeObject := use.homeObject
    isClass := use.isClass
    constructable := use.isClass || !(node.arrow || node.generator || use.method)
    isDefault := use.isDefault
    strict }

namespace Eval

variable {σ : Type}

/-- Makes a function object with its length, its name and, where it needs one, the object that will
be the prototype of what it makes. -/
def createFunction (node : FunctionNode) (environment : EnvironmentId) (use : FunctionUse := {}) :
    Eval σ ObjectId := do
  let strictCode ← ask (·.strict)
  let realm ← ask (·.realm)
  let closure := use.closure node environment strictCode
  let properties := Table.empty
    |>.insert "length" (.readonlyHidden (.number (Float.ofNat node.expectedArguments)))
    |>.insert "name" (.readonlyHidden (.string (closure.name.getD "")))
  let function ← perform (.allocate
    { prototype := some (use.prototype.getD realm.functionPrototype)
      properties
      kind := .function (if node.generator then .generator closure else .script closure) })
  if node.generator then
    let prototype ← perform (.allocate { prototype := some realm.generatorPrototype })
    perform (.define function "prototype" ⟨.object prototype, true, false, false⟩)
  else if closure.constructable && !use.isClass then
    let prototype ← perform (.allocate
      { prototype := some realm.objectPrototype
        properties := Table.empty.insert "constructor" (.hidden (.object function)) })
    perform (.define function "prototype" ⟨.object prototype, true, false, false⟩)
  pure function

def functionExpression (node : FunctionNode) (hint : Option String) : Eval σ Value := do
  let scope ← ask (·.lexical)
  match node.name with
  | some name =>
    if node.arrow then
      let function ← createFunction node scope
      pure (.object function)
    else
      let own ← perform (.enclose (.block scope))
      attempt (.createImmutable own name false)
      let function ← createFunction node own
      attempt (.initBinding own name (.object function))
      pure (.object function)
  | none => do
    let function ← createFunction node scope { name := hint }
    pure (.object function)

end Eval

end ScriptEngine
