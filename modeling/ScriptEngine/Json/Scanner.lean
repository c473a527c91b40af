import ScriptEngine.Json.Numeral

/-!
The words of JSON text: white space, strings and numbers.
-/

namespace ScriptEngine.Json

abbrev Scanner (α : Type) := List Char → Option (α × List Char)

def isSpace (c : Char) : Bool := c = ' ' || c = '\n' || c = '\t' || c = '\r'

def skipSpace (cs : List Char) : List Char := cs.dropWhile isSpace

def expect? (word : List Char) (cs : List Char) : Option (List Char) :=
  if word.isPrefixOf cs then some (cs.drop word.length) else none

/-! ## Strings -/

def hexDigit? (c : Char) : Option Nat :=
  if c.isDigit then some (c.toNat - '0'.toNat)
  else if 'a' ≤ c && c ≤ 'f' then some (c.toNat - 'a'.toNat + 10)
  else if 'A' ≤ c && c ≤ 'F' then some (c.toNat - 'A'.toNat + 10)
  else none

def codeUnit : Scanner Nat
  | a :: b :: c :: d :: rest => do
    let a ← hexDigit? a
    let b ← hexDigit? b
    let c ← hexDigit? c
    let d ← hexDigit? d
    some (((a * 16 + b) * 16 + c) * 16 + d, rest)
  | _ => none

def simpleEscape? : Char → Option Char
  | '"' => some '"'
  | '\\' => some '\\'
  | '/' => some '/'
  | 'b' => some '\x08'
  | 'f' => some '\x0c'
  | 'n' => some '\n'
  | 'r' => some '\r'
  | 't' => some '\t'
  | _ => none

def unicodeEscape : Scanner Char := fun cs => do
  let (unit, rest) ← codeUnit cs
  if 0xD800 ≤ unit && unit < 0xDC00 then
    let rest ← expect? ['\\', 'u'] rest
    let (low, rest) ← codeUnit rest
    if 0xDC00 ≤ low && low < 0xE000 then
      some (Char.ofNat (0x10000 + (unit - 0xD800) * 0x400 + (low - 0xDC00)), rest)
    else none
  else if 0xDC00 ≤ unit && unit < 0xE000 then none
  else some (Char.ofNat unit, rest)

def stringWithin : Nat → Scanner (List Char)
  | 0, _ => none
  | _ + 1, [] => none
  | _ + 1, '"' :: rest => some ([], rest)
  | n + 1, '\\' :: 'u' :: rest => do
    let (c, rest) ← unicodeEscape rest
    let (cs, rest) ← stringWithin n rest
    some (c :: cs, rest)
  | n + 1, '\\' :: mark :: rest => do
    let c ← simpleEscape? mark
    let (cs, rest) ← stringWithin n rest
    some (c :: cs, rest)
  | n + 1, c :: rest =>
    if c = '\\' || c.toNat < 0x20 then none
    else do
      let (cs, rest) ← stringWithin n rest
      some (c :: cs, rest)

/-! ## Numbers -/

def digits : Scanner (List Char) := fun cs =>
  let run := cs.takeWhile Char.isDigit
  if run.isEmpty then none else some (run, cs.dropWhile Char.isDigit)

def wholeDigits : Scanner (List Char) := fun cs => do
  let (run, rest) ← digits cs
  if run.length ≠ 1 && run.head? = some '0' then none else some (run, rest)

def fractionDigits : Scanner (List Char)
  | '.' :: rest => digits rest
  | cs => some ([], cs)

def exponentDigits (negative : Bool) : Scanner (Option Int) := fun cs => do
  let (run, rest) ← digits cs
  let size : Int := run.foldl (fun value c => 10 * value + Numeral.digit c) 0
  some (some (if negative then -size else size), rest)

def exponentPart : Scanner (Option Int)
  | 'e' :: rest | 'E' :: rest => match rest with
    | '+' :: rest => exponentDigits false rest
    | '-' :: rest => exponentDigits true rest
    | rest => exponentDigits false rest
  | cs => some (none, cs)

def numeral : Scanner Numeral := fun cs => do
  let negative := cs.head? = some '-'
  let (whole, rest) ← wholeDigits (if negative then cs.tail else cs)
  let (fraction, rest) ← fractionDigits rest
  let (exponent, rest) ← exponentPart rest
  some ({ negative, whole, fraction, exponent }, rest)

end ScriptEngine.Json
