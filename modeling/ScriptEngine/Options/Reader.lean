import ScriptEngine.Json.Scanner
import ScriptEngine.Options

/-!
Settings written as JSON: an object with the known fields, or an array of their values in order.
Fields that are not known are skipped over, and a known field may stand only once.
-/

namespace ScriptEngine.Options.Reader

open Json (Scanner skipSpace expect? codeUnit simpleEscape? stringWithin numeral)

def fieldName : Scanner String
  | '"' :: rest =>
    (stringWithin (rest.length + 1) rest).map fun (cs, rest) => (String.ofList cs, rest)
  | _ => none

/-! ## Values of unknown fields -/

def skipStringWithin : Nat → List Char → Option (List Char)
  | 0, _ => none
  | _ + 1, [] => none
  | _ + 1, '"' :: rest => some rest
  | n + 1, '\\' :: 'u' :: rest => do
    let (_, rest) ← codeUnit rest
    skipStringWithin n rest
  | n + 1, '\\' :: mark :: rest => do
    let _ ← simpleEscape? mark
    skipStringWithin n rest
  | n + 1, c :: rest => if c = '\\' || c.toNat < 0x20 then none else skipStringWithin n rest

mutual

def skipValueWithin : Nat → List Char → Option (List Char)
  | 0, _ => none
  | n + 1, cs =>
    match skipSpace cs with
    | '"' :: rest => skipStringWithin (rest.length + 1) rest
    | '[' :: rest => match skipSpace rest with
      | ']' :: rest => some rest
      | rest => skipElementsWithin n rest
    | '\x7b' :: rest => match skipSpace rest with
      | '\x7d' :: rest => some rest
      | rest => skipMembersWithin n rest
    | 't' :: rest => expect? "rue".toList rest
    | 'f' :: rest => expect? "alse".toList rest
    | 'n' :: rest => expect? "ull".toList rest
    | rest => (numeral rest).map (·.2)

def skipElementsWithin : Nat → List Char → Option (List Char)
  | 0, _ => none
  | n + 1, cs => do
    let rest ← skipValueWithin n cs
    match skipSpace rest with
    | ',' :: rest => skipElementsWithin n rest
    | ']' :: rest => some rest
    | _ => none

def skipMembersWithin : Nat → List Char → Option (List Char)
  | 0, _ => none
  | n + 1, cs =>
    match skipSpace cs with
    | '"' :: rest => do
      let rest ← skipStringWithin (rest.length + 1) rest
      match skipSpace rest with
      | ':' :: rest => do
        let rest ← skipValueWithin n rest
        match skipSpace rest with
        | ',' :: rest => skipMembersWithin n rest
        | '\x7d' :: rest => some rest
        | _ => none
      | _ => none
    | _ => none

end

def skipValue? (cs : List Char) : Option (List Char) := skipValueWithin (2 * cs.length + 2) cs

/-! ## Values of known fields -/

def flag : Scanner Bool := fun cs =>
  match skipSpace cs with
  | 't' :: rest => (expect? "rue".toList rest).map (true, ·)
  | 'f' :: rest => (expect? "alse".toList rest).map (false, ·)
  | _ => none

def bound : Scanner (Option Nat) := fun cs =>
  match skipSpace cs with
  | 'n' :: rest => (expect? "ull".toList rest).map (none, ·)
  | cs => do
    let (n, rest) ← numeral cs
    let value ← n.nat?
    if value < Nat.pow 2 64 then some (some value, rest) else none

inductive Field where
  | strict
  | maxRecursionDepth
  | maxNativeStack
  | debugNames
deriving DecidableEq

def Field.all : List Field := [.strict, .maxRecursionDepth, .maxNativeStack, .debugNames]

def Field.name : Field → String
  | .strict => "strict"
  | .maxRecursionDepth => "maxRecursionDepth"
  | .maxNativeStack => "maxNativeStack"
  | .debugNames => "debugNames"

def Field.value (field : Field) (options : Options) : Scanner Options := fun cs =>
  match field with
  | .strict => (flag cs).map fun (b, rest) => ({ options with strict := b }, rest)
  | .maxRecursionDepth =>
    (bound cs).map fun (n, rest) => ({ options with maxRecursionDepth := n }, rest)
  | .maxNativeStack => (bound cs).map fun (n, rest) => ({ options with maxNativeStack := n }, rest)
  | .debugNames => (flag cs).map fun (b, rest) => ({ options with debugNames := b }, rest)

/-! ## The two forms -/

def membersWithin : Nat → Options → (remaining : List Field) → Scanner Options
  | 0, _, _, _ => none
  | n + 1, options, remaining, cs => do
    let (name, rest) ← fieldName (skipSpace cs)
    match skipSpace rest with
    | ':' :: rest => do
      let (options, remaining, rest) ←
        match Field.all.find? (·.name = name) with
        | none => (skipValue? rest).map fun rest => (options, remaining, rest)
        | some field =>
          if remaining.contains field then
            (field.value options rest).map fun (options, rest) =>
              (options, remaining.erase field, rest)
          else none
      match skipSpace rest with
      | ',' :: rest => membersWithin n options remaining rest
      | '\x7d' :: rest => some (options, rest)
      | _ => none
    | _ => none

def elements : List Field → Options → Scanner Options
  | [], _, _ => none
  | field :: remaining, options, cs => do
    let (options, rest) ← field.value options cs
    match skipSpace rest with
    | ',' :: rest => elements remaining options rest
    | ']' :: rest => some (options, rest)
    | _ => none

def document : Scanner Options := fun cs =>
  match skipSpace cs with
  | '\x7b' :: rest => match skipSpace rest with
    | '\x7d' :: rest => some ({}, rest)
    | rest => membersWithin (rest.length + 1) {} Field.all rest
  | '[' :: rest => match skipSpace rest with
    | ']' :: rest => some ({}, rest)
    | rest => elements Field.all {} rest
  | _ => none

end Reader

def ofText? (text : String) : Option Options := do
  let (options, rest) ← Reader.document text.toList
  if (Json.skipSpace rest).isEmpty then some options else none

end ScriptEngine.Options
