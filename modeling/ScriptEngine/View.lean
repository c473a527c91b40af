import ScriptEngine.Machine

/-!
Finite views of values, for hosts that show them. A view ends at functions, at the objects of the
realm that have a name, at objects it is already inside of, and a few levels down.
-/

namespace ScriptEngine

inductive View where
  | primitive (value : Value)
  | wellKnown (name : String)
  | enclosing (number : Nat)
  | object (number : Nat) (object : Object) (prototype : Option View)
      (properties : List (String × Property × View))

structure Gallery where
  shown : Array ObjectId := #[]
  wellKnown : List (ObjectId × String) := []

namespace Gallery

def number (o : ObjectId) : StateM Gallery Nat := do
  let gallery ← get
  match gallery.shown.findIdx? (· = o) with
  | some index => pure index
  | none =>
    set { gallery with shown := gallery.shown.push o }
    pure gallery.shown.size

def wellKnown? (gallery : Gallery) (o : ObjectId) : Option String :=
  (gallery.wellKnown.find? (·.1 = o)).map (·.2)

def ofMachine {σ : Type} (m : Machine σ) : Gallery :=
  let prototypes := ErrorClass.all.map fun kind =>
    (m.realm.errorPrototype kind, kind.name ++ ".prototype")
  let constructors := ("Object" :: ErrorClass.all.map ErrorClass.name).filterMap fun name =>
    ((m.getGlobal? name).bind Value.asObject?).map fun o => (o, name)
  { wellKnown := [(m.realm.global, "globalThis"), (m.realm.objectPrototype, "Object.prototype"),
      (m.realm.functionPrototype, "Function.prototype"),
      (m.realm.generatorPrototype, "Generator.prototype")] ++ prototypes ++ constructors }

def viewProperties (view : Value → StateM Gallery View) :
    List (String × Property) → StateM Gallery (List (String × Property × View))
  | [] => pure []
  | (key, property) :: rest => do
    let v ← view property.value
    let vs ← viewProperties view rest
    pure ((key, property, v) :: vs)

def view (h : Heap) : (levels : Nat) → (inside : List ObjectId) → Value → StateM Gallery View
  | levels, inside, .object o => do
    match (← get).wellKnown? o with
    | some name => pure (.wellKnown name)
    | none =>
      let number ← number o
      if inside.contains o then pure (.enclosing number)
      else
        let object := h.get o
        if object.callable?.isSome then pure (.object number object none [])
        else match levels with
          | 0 => pure (.object number object none [])
          | levels + 1 => do
            let prototype ← view h levels (o :: inside) (.ofObject? object.prototype)
            let properties ← viewProperties (view h levels (o :: inside)) object.properties.entries
            pure (.object number object (some prototype) properties)
  | _, _, v => pure (.primitive v)

/-- A closer look at one object: it is expanded whatever it is, and so are the objects that a
function holds. -/
structure Inspection where
  number : Nat
  object : Object
  home : View
  bound : List View
  prototype : View
  properties : List (String × Property × View)

def boundValues (object : Object) : List Value :=
  match object.callable? with
  | some (.bound f) => .object f.target :: f.thisArgument :: f.arguments
  | _ => []

def homeOf (object : Object) : Option ObjectId :=
  match object.callable? with
  | some (.script closure) | some (.generator closure) => closure.homeObject
  | _ => none

def inspect (h : Heap) (o : ObjectId) : StateM Gallery Inspection := do
  let number ← number o
  let object := h.get o
  let home ← view h 0 [o] (.ofObject? (homeOf object))
  let bound ← (boundValues object).mapM (view h 1 [o])
  let prototype ← view h 1 [o] (.ofObject? object.prototype)
  let properties ← viewProperties (view h 1 [o]) object.properties.entries
  pure { number, object, home, bound, prototype, properties }

end Gallery

end ScriptEngine
