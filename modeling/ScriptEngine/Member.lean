import ScriptEngine.Action

/-!
Names and properties as the code uses them: reading and writing references and members.
-/

namespace ScriptEngine.Eval

variable {σ : Type}

def toObject (v : Value) : Eval σ ObjectId :=
  match v with
  | .undefined | .null => typeError .nullishToObject
  | .object o => pure o
  | primitive => do
    let prototype ← ask (·.realm.objectPrototype)
    perform (.allocate { prototype := some prototype, kind := .wrapper primitive })

def putReference (r : Reference) (value : Value) : Eval σ Unit :=
  match r.base with
  | some e => attempt (.assign e r.name value r.strict)
  | none =>
    if r.strict then throw (.referenceError (.notDefined r.name))
    else do
      let global ← ask (·.realm.global)
      let _ ← perform (.write global r.name value)
      pure ()

def getMember (base : Value) (key : String) : Eval σ Value :=
  match base with
  | .undefined | .null => do
    let text ← ask fun m => m.heap.toText base
    typeError (.readOfNullish text key)
  | .object o => ask fun m => m.heap.getProperty o key
  | _ => ask fun m => m.heap.getProperty m.realm.objectPrototype key

def setMember (base : Value) (key : String) (value : Value) : Eval σ Unit :=
  match base with
  | .undefined | .null => do
    let text ← ask fun m => m.heap.toText base
    typeError (.writeToNullish text key)
  | .object o => do
    let allowed ← perform (.write o key value)
    let strict ← ask (·.strict)
    if !allowed && strict then typeError (.readOnly key)
  | primitive => do
    let strict ← ask (·.strict)
    if strict then
      let (type, text) ← ask fun m => (m.heap.typeOf primitive, m.heap.toText primitive)
      typeError (.writeToPrimitive key type text)

def deleteMember (base : Value) (key : String) : Eval σ Value := do
  let object ← toObject base
  let removed ← perform (.remove object key)
  let strict ← ask (·.strict)
  if !removed && strict then typeError (.undeletable key)
  pure (.boolean removed)

def deleteName (name : String) : Eval σ Value := do
  if ← ask (·.strict) then throw (.syntaxError .strictDelete)
  let r ← ask (·.reference name)
  match r.base with
  | none => pure (.boolean true)
  | some e => do
    let removed ← perform (.deleteBinding e name)
    pure (.boolean removed)

def superBase : Eval σ (Value × Value) := do
  let scope ← ask fun m => m.store.environment m.thisScope
  match scope.functionRecord?.bind (·.homeObject) with
  | none => throw (.syntaxError .unexpectedSuper)
  | some home => do
    let this ← ofExcept scope.getThis
    let prototype ← ask fun m => (m.heap.get home).prototype
    pure (.ofObject? prototype, this)

/-- Whether a value was made by a constructor, following bound functions to their target for at most
`n` steps. A primitive was made by none. -/
def instanceWithin (h : Heap) (value : Value) : Nat → ObjectId → Except Fault Bool
  | 0, _ => .ok false
  | n + 1, target =>
    match (h.get target).callable? with
    | none => .error (.typeError .instanceOfTarget)
    | some (.bound f) => instanceWithin h value n f.target
    | some _ => match value with
      | .object o => match h.getProperty? target "prototype" with
        | some (.object prototype) => .ok (h.inherits o prototype)
        | _ => .error (.typeError .instanceOfPrototype)
      | _ => .ok false

def instanceOf (value target : Value) : Eval σ Bool :=
  askFor fun m => match target with
    | .object o => instanceWithin m.heap value m.heap.bound o
    | _ => .error (.typeError .instanceOfTarget)

end ScriptEngine.Eval
