import ScriptEngine.Number.Binary

/-!
The shortest decimal that reads back as a given double. Of the decimals with the fewest digits the
one nearest to the double is taken, and of two equally near ones the larger.
-/

namespace ScriptEngine.Number

structure Decimal where
  digits : Nat
  exponent : Int

/-- The reals that round to one double, as fractions with a common denominator: the double itself,
the ends of the interval, and whether the ends belong to it. -/
structure Interval where
  value : Nat
  lower : Nat
  upper : Nat
  denominator : Nat
  closed : Bool

/-- The interval of `mantissa * 2 ^ exponent`. It is closed for an even mantissa, as ties round to
even, and at a power of two its lower half is narrower. -/
def Interval.of (mantissa : Nat) (exponent : Int) (even : Bool) : Interval :=
  let up := Nat.pow 2 (exponent - 2).toNat
  { value := 4 * mantissa * up
    lower := (4 * mantissa - if even then 2 else 1) * up
    upper := (4 * mantissa + 2) * up
    denominator := Nat.pow 2 (2 - exponent).toNat
    closed := mantissa % 2 = 0 }

def Interval.magnitude (i : Interval) : Int :=
  if i.denominator ≤ i.value then (Nat.toDigits 10 (i.value / i.denominator)).length
  else go 400 i.value 0
where
  go : Nat → Nat → Int → Int
    | 0, _, places => places
    | fuel + 1, n, places =>
      if i.denominator ≤ 10 * n then places else go fuel (10 * n) (places - 1)

def Interval.onGrid? (i : Interval) (exponent : Int) : Option Decimal :=
  let shrink := Nat.pow 10 (-exponent).toNat
  let unit := i.denominator * Nat.pow 10 exponent.toNat
  let inside (d : Nat) : Bool :=
    if i.closed then i.lower * shrink ≤ d * unit && d * unit ≤ i.upper * shrink
    else i.lower * shrink < d * unit && d * unit < i.upper * shrink
  let below := i.value * shrink / unit
  let rest := i.value * shrink % unit
  match inside below, inside (below + 1) with
  | true, true => some ⟨if 2 * rest < unit then below else below + 1, exponent⟩
  | true, false => some ⟨below, exponent⟩
  | false, true => some ⟨below + 1, exponent⟩
  | false, false => none

/-- The decimal with the fewest digits in the interval. The coarsest grid holds only the next power
of ten, and seventeen digits always suffice. -/
def Interval.shortest (i : Interval) : Decimal :=
  let places := i.magnitude
  match (List.range 18).findSome? fun n : Nat => i.onGrid? (places - n) with
  | some d => d
  | none => ⟨i.value / i.denominator, 0⟩

end ScriptEngine.Number
