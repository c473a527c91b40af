import ScriptEngine.Json

/-!
Documents written as text, without white space.
-/

namespace ScriptEngine

def Numeral.text (n : Numeral) : String :=
  let point := if n.fraction.isEmpty then "" else "." ++ String.ofList n.fraction
  let exponent := match n.exponent with
    | some e => "e" ++ toString e
    | none => ""
  (if n.negative then "-" else "") ++ String.ofList n.whole ++ point ++ exponent

namespace Json

def escape (c : Char) : List Char :=
  if c = '"' || c = '\\' then ['\\', c]
  else if c.toNat < 0x20 then
    ['\\', 'u', '0', '0', Nat.digitChar (c.toNat / 16), Nat.digitChar (c.toNat % 16)]
  else [c]

def quoted (s : String) : String := "\"" ++ String.ofList (s.toList.flatMap escape) ++ "\""

mutual

def text : Document → String
  | .null => "null"
  | .bool true => "true"
  | .bool false => "false"
  | .number n => n.text
  | .string s => quoted s
  | .array items => "[" ++ ",".intercalate (itemTexts items) ++ "]"
  | .object fields => "\x7b" ++ ",".intercalate (fieldTexts fields) ++ "\x7d"

def itemTexts : List Document → List String
  | [] => []
  | item :: rest => item.text :: itemTexts rest

def fieldTexts : List (String × Document) → List String
  | [] => []
  | (key, item) :: rest => (quoted key ++ ":" ++ item.text) :: fieldTexts rest

end

end Json

end ScriptEngine
