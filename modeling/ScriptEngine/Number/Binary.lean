/-!
Doubles as exact binary fractions: a sign and `mantissa * 2 ^ exponent`. The remainder of a division
is exact in this form, so it is computed here.
-/

namespace ScriptEngine.Number

inductive Binary where
  | nan
  | infinite (negative : Bool)
  | finite (negative : Bool) (mantissa : Nat) (exponent : Int) (even : Bool)

def Binary.ofFloat (x : Float) : Binary :=
  let bits := x.toBits.toNat
  let negative := bits / Nat.pow 2 63 = 1
  let biased : Nat := bits / Nat.pow 2 52 % Nat.pow 2 11
  let fraction := bits % Nat.pow 2 52
  if biased = 2047 then
    if fraction = 0 then .infinite negative else .nan
  else if biased = 0 then
    .finite negative fraction (-1074) true
  else
    .finite negative (fraction + Nat.pow 2 52) ((biased : Int) - 1075)
      (fraction ≠ 0 || biased = 1)

def isNegative (x : Float) : Bool := x.toBits.toNat / Nat.pow 2 63 = 1

def scale (n : Nat) (e : Int) : Float :=
  let drop := n.log2 - 52
  (Float.ofNat (n / Nat.pow 2 drop)).scaleB (e + drop)

/-- The remainder of truncated division, exact and with the sign of the dividend. There is none for
an infinite dividend or a zero divisor, and an infinite divisor leaves the dividend as it is. -/
def remainder (x y : Float) : Float :=
  match Binary.ofFloat x, Binary.ofFloat y with
  | .finite negative m e _, .finite _ n f _ =>
    if n = 0 then 0.0 / 0.0
    else
      let low := min e f
      let r := m * Nat.pow 2 (e - low).toNat % (n * Nat.pow 2 (f - low).toNat)
      let magnitude := scale r low
      if negative then -magnitude else magnitude
  | .finite .., .infinite _ => x
  | _, _ => 0.0 / 0.0

end ScriptEngine.Number
