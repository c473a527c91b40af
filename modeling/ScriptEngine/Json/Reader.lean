import ScriptEngine.Json
import ScriptEngine.Json.Scanner

/-!
Documents read from text. Of fields with one name the last counts, and a number that is too large
for a double is refused.
-/

namespace ScriptEngine.Json

def precede (key : String) (item : Document) (rest : List (String × Document)) :
    List (String × Document) :=
  if rest.any (·.1 = key) then rest else (key, item) :: rest

mutual

def valueWithin : Nat → Scanner Document
  | 0, _ => none
  | n + 1, cs =>
    match skipSpace cs with
    | '"' :: rest => (stringWithin n rest).map fun (s, rest) => (.string (String.ofList s), rest)
    | '[' :: rest => match skipSpace rest with
      | ']' :: rest => some (.array [], rest)
      | rest => (itemsWithin n rest).map fun (items, rest) => (.array items, rest)
    | '\x7b' :: rest => match skipSpace rest with
      | '\x7d' :: rest => some (.object [], rest)
      | rest => (fieldsWithin n rest).map fun (fields, rest) => (.object fields, rest)
    | 't' :: rest => (expect? "rue".toList rest).map (.bool true, ·)
    | 'f' :: rest => (expect? "alse".toList rest).map (.bool false, ·)
    | 'n' :: rest => (expect? "ull".toList rest).map (.null, ·)
    | rest => do
      let (x, rest) ← numeral rest
      if x.toFloat.isFinite then some (.number x, rest) else none

def itemsWithin : Nat → Scanner (List Document)
  | 0, _ => none
  | n + 1, cs => do
    let (item, rest) ← valueWithin n cs
    match skipSpace rest with
    | ',' :: rest => do
      let (items, rest) ← itemsWithin n rest
      some (item :: items, rest)
    | ']' :: rest => some ([item], rest)
    | _ => none

def fieldsWithin : Nat → Scanner (List (String × Document))
  | 0, _ => none
  | n + 1, cs =>
    match skipSpace cs with
    | '"' :: rest => do
      let (key, rest) ← stringWithin n rest
      let key := String.ofList key
      match skipSpace rest with
      | ':' :: rest => do
        let (item, rest) ← valueWithin n rest
        match skipSpace rest with
        | ',' :: rest => do
          let (fields, rest) ← fieldsWithin n rest
          some (precede key item fields, rest)
        | '\x7d' :: rest => some ([(key, item)], rest)
        | _ => none
      | _ => none
    | _ => none

end

/-- The document that a text holds; white space around it is allowed and nothing else. At least one
of any two steps takes a character, so twice the length is enough. -/
def ofText? (text : String) : Option Document := do
  let cs := text.toList
  let (j, rest) ← valueWithin (2 * cs.length + 2) cs
  if (skipSpace rest).isEmpty then some j else none

end ScriptEngine.Json
