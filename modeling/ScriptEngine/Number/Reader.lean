import ScriptEngine.Text.Blank
import ScriptEngine.Number.Binary

/-!
Reading numbers from text: an optional sign, then `inf`, `infinity` or `nan` in any letter case, or
decimal digits with an optional point and an optional exponent.
-/

namespace ScriptEngine.Number

def spanDigits (cs : List Char) : List Char × List Char :=
  (cs.takeWhile Char.isDigit, cs.dropWhile Char.isDigit)

def ofDigits (cs : List Char) : Nat := cs.foldl (fun n c => 10 * n + (c.toNat - '0'.toNat)) 0

/-- The double nearest to `digits * 10 ^ exponent`. Far outside the range of doubles the answer is
known from the magnitude alone. -/
def ofDecimal (digits : Nat) (exponent : Int) : Float :=
  let places := exponent + (Nat.toDigits 10 digits).length
  if digits = 0 then 0.0
  else if 400 < places then 1.0 / 0.0
  else if places < -400 then 0.0
  else Float.ofScientific digits (exponent < 0) exponent.natAbs

def readExponent? : List Char → Option Int
  | [] => some 0
  | mark :: rest =>
    if mark = 'e' || mark = 'E' then
      let (negative, digits) := match rest with
        | '-' :: ds => (true, ds)
        | '+' :: ds => (false, ds)
        | ds => (false, ds)
      if digits ≠ [] && digits.all Char.isDigit then
        some (if negative then -(ofDigits digits : Int) else ofDigits digits)
      else none
    else none

def readUnsigned? (cs : List Char) : Option Float :=
  let word := cs.map Char.toLower
  if word = "inf".toList || word = "infinity".toList then some (1.0 / 0.0)
  else if word = "nan".toList then some (0.0 / 0.0)
  else
    let (whole, rest) := spanDigits cs
    let (fraction, rest) := match rest with
      | '.' :: ds => spanDigits ds
      | ds => ([], ds)
    if whole = [] && fraction = [] then none
    else (readExponent? rest).map fun e =>
      ofDecimal (ofDigits (whole ++ fraction)) (e - fraction.length)

def read? (cs : List Char) : Option Float :=
  match cs with
  | '-' :: rest => (readUnsigned? rest).map fun x => -x
  | '+' :: rest => readUnsigned? rest
  | _ => readUnsigned? cs

def ofText (s : String) : Float :=
  match Text.trim s.toList with
  | [] => 0.0
  | cs => (read? cs).getD (0.0 / 0.0)

end ScriptEngine.Number
