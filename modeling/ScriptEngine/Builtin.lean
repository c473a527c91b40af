import ScriptEngine.Generator.Drive

/-!
The functions that every realm provides.
-/

namespace ScriptEngine

variable {σ : Type}

namespace Eval

def newObject : Eval σ ObjectId := do
  let prototype ← ask (·.realm.objectPrototype)
  perform (.allocate { prototype := some prototype })

def objectOf (v : Value) : Eval σ Value := do
  let o ← if v.isNullish then newObject else toObject v
  pure (.object o)

def listLength (h : Heap) (list : ObjectId) : Nat :=
  match h.getProperty? list "length" with
  | none => 0
  | some v =>
    let length := h.toNumber v
    if length.isFinite && length > 0 then length.toUInt64.toNat else 0

def spreadList (list : Value) : Eval σ (List Value) :=
  match list with
  | .undefined | .null => pure []
  | .object o => ask fun m =>
    (List.range (listLength m.heap o)).map fun index => m.heap.getProperty o (toString index)
  | _ => typeError .argumentList

def bindFunction (target : Value) (thisArgument : Value) (arguments : List Value) :
    Eval σ Value := do
  match target with
  | .object o => do
    let h ← ask (·.heap)
    if !h.isCallable target then typeError .bindReceiver
    let name := match h.getProperty? o "name" with
      | some (.string name) => name
      | _ => ""
    let length := match h.getProperty? o "length" with
      | some (.number length) => length
      | _ => 0
    let rest := length - Float.ofNat arguments.length
    let properties := Table.empty
      |>.insert "name" (.readonlyHidden (.string ("bound " ++ name)))
      |>.insert "length" (.readonlyHidden (.number (if rest > 0 then rest else 0)))
    let bound ← perform (.allocate
      { prototype := (h.get o).prototype
        properties
        kind := .function (.bound { target := o, thisArgument, arguments }) })
    pure (.object bound)
  | _ => typeError .bindReceiver

def constructError (prototype : ObjectId) (message : Value) : Eval σ Value := do
  let text ← ask fun m => if message.isUndefined then none else some (m.heap.toText message)
  let error ← newError prototype text 1
  pure (.object error)

def errorText (h : Heap) (error : ObjectId) : String :=
  let part (key absent : String) := match h.getProperty error key with
    | .undefined => absent
    | v => h.toText v
  let name := part "name" "Error"
  let message := part "message" ""
  if message = "" then name else if name = "" then message else name ++ ": " ++ message

end Eval

open Eval

def Builtin.call (shortcuts : Bool) (builtin : Builtin) (this : Value) (arguments : List Value) :
    Eval σ Value :=
  let first := arguments.headD .undefined
  match builtin with
  | .hasOwnProperty => do
    let key ← ask fun m => m.heap.toText first
    let o ← toObject this
    let has ← ask fun m => m.heap.hasOwn o key
    pure (.boolean has)
  | .isPrototypeOf => match first, this with
    | .object o, .object prototype => do
      let found ← ask fun m => m.heap.inherits o prototype
      pure (.boolean found)
    | _, _ => pure (.boolean false)
  | .object => objectOf first
  | .getPrototypeOf => do
    let o ← toObject first
    ask fun m => .ofObject? (m.heap.get o).prototype
  | .functionCall => Eval.call this first arguments.tail
  | .functionApply => do
    let arguments ← spreadList (arguments.tail.headD .undefined)
    Eval.call this first arguments
  | .functionBind => bindFunction this first arguments.tail
  | .generatorNext => drive shortcuts this (.next first)
  | .generatorReturn => drive shortcuts this (.return first)
  | .generatorThrow => drive shortcuts this (.throw first)
  | .error kind => do
    let prototype ← ask fun m => m.realm.errorPrototype kind
    constructError prototype first
  | .errorToString => match this with
    | .object o => ask fun m => .string (errorText m.heap o)
    | _ => typeError .errorReceiver

def Builtin.construct? (builtin : Builtin) (arguments : List Value) (newTarget : ObjectId) :
    Option (Eval σ Value) :=
  let first := arguments.headD .undefined
  match builtin with
  | .object => some do
    let own ← ask (·.getGlobal? "Object")
    if own.bind Value.asObject? = some newTarget then objectOf first
    else
      let fallback ← ask (·.realm.objectPrototype)
      let prototype ← instancePrototype newTarget fallback
      let o ← perform (.allocate { prototype := some prototype })
      pure (.object o)
  | .error kind => some do
    let fallback ← ask fun m => m.realm.errorPrototype kind
    let prototype ← instancePrototype newTarget fallback
    constructError prototype first
  | _ => none

end ScriptEngine
