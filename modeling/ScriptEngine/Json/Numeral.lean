/-!
Decimal numbers as JSON writes them, and the doubles they stand for.
-/

namespace ScriptEngine

structure Numeral where
  negative : Bool := false
  whole : List Char
  fraction : List Char := []
  exponent : Option Int := none
deriving Inhabited

namespace Numeral

def ofNat (n : Nat) : Numeral := { whole := Nat.toDigits 10 n }

def ofInt (n : Int) : Numeral := { ofNat n.natAbs with negative := n < 0 }

def digit (c : Char) : Nat := c.toNat - '0'.toNat

def nat? (n : Numeral) : Option Nat :=
  if n.negative || n.fraction ≠ [] || n.exponent.isSome then none
  else some (n.whole.foldl (fun value c => 10 * value + digit c) 0)

/-! ## The double of a numeral

The first digits, as many as a word of 64 bits can hold, make a whole number, which is rounded and
then multiplied or divided by a power of ten. So the result need not be the nearest double when
there are more than fifteen digits.
-/

def append : (significand : Nat) → List Char → Nat × Nat
  | significand, [] => (significand, 0)
  | significand, c :: rest =>
    let next := 10 * significand + digit c
    if next < Nat.pow 2 64 then append next rest else (significand, rest.length + 1)

def powerOfTen (n : Nat) : Float := Float.ofScientific 1 false n

/-- `x * 10 ^ exponent`. The largest power of ten that is a double has the exponent 308, so smaller
numbers are reached in two steps. -/
def scale (x : Float) (exponent : Int) : Float :=
  if x == 0.0 then x
  else if 308 < exponent then 1.0 / 0.0
  else if 0 ≤ exponent then x * powerOfTen exponent.toNat
  else if -308 ≤ exponent then x / powerOfTen (-exponent).toNat
  else if -616 ≤ exponent then x / powerOfTen 308 / powerOfTen (-exponent - 308).toNat
  else 0.0

def toFloat (n : Numeral) : Float :=
  let (significand, skipped) := append 0 n.whole
  let (significand, unread) := append significand n.fraction
  let exponent := n.exponent.getD 0 + skipped - (n.fraction.length - unread : Nat)
  let x := scale (Float.ofNat significand) exponent
  if n.negative then -x else x

end Numeral

end ScriptEngine
