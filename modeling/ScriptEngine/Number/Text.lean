import ScriptEngine.Number.Shortest

/-!
Numbers as text: the shortest digits that read back, always in positional notation.
-/

namespace ScriptEngine.Number

def Decimal.positional (d : Decimal) : String :=
  let digits := Nat.toDigits 10 d.digits
  let point := (-d.exponent).toNat
  String.ofList <|
    if 0 ≤ d.exponent then digits ++ List.replicate d.exponent.toNat '0'
    else if point < digits.length then
      digits.take (digits.length - point) ++ '.' :: digits.drop (digits.length - point)
    else '0' :: '.' :: (List.replicate (point - digits.length) '0' ++ digits)

structure Spelling where
  infinity : String
  signedZero : Bool

def render (spelling : Spelling) (x : Float) : String :=
  match Binary.ofFloat x with
  | .nan => "NaN"
  | .infinite negative => if negative then "-" ++ spelling.infinity else spelling.infinity
  | .finite negative mantissa exponent even =>
    if mantissa = 0 then if negative && spelling.signedZero then "-0" else "0"
    else
      let text := (Interval.of mantissa exponent even).shortest.positional
      if negative then "-" ++ text else text

def scripted : Spelling := ⟨"Infinity", false⟩

def diagnostic : Spelling := ⟨"inf", true⟩

end ScriptEngine.Number
