/-!
Tables with names as keys that remember the order in which their keys were created. Overwriting a
key keeps its place, erasing one keeps the order of the others, and a key that is created again
goes to the end.
-/

namespace ScriptEngine

structure Table (α : Type) where
  entries : List (String × α)
deriving Inhabited

namespace Table

variable {α : Type}

def empty : Table α := ⟨[]⟩

def keys (t : Table α) : List String := t.entries.map (·.1)

def findIn (key : String) : List (String × α) → Option α
  | [] => none
  | (k, a) :: rest => if k = key then some a else findIn key rest

/-- Writes an entry: in place when the name has one, at the end otherwise. -/
def insertIn (key : String) (a : α) : List (String × α) → List (String × α)
  | [] => [(key, a)]
  | (k, b) :: rest => if k = key then (key, a) :: rest else (k, b) :: insertIn key a rest

def eraseIn (key : String) : List (String × α) → List (String × α)
  | [] => []
  | (k, b) :: rest => if k = key then rest else (k, b) :: eraseIn key rest

def find? (t : Table α) (key : String) : Option α := findIn key t.entries

def contains (t : Table α) (key : String) : Bool := (t.find? key).isSome

def insert (t : Table α) (key : String) (a : α) : Table α := ⟨insertIn key a t.entries⟩

def erase (t : Table α) (key : String) : Table α := ⟨eraseIn key t.entries⟩

end Table

end ScriptEngine
