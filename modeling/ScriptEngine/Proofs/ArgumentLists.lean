import ScriptEngine.Proofs.Interpretation
import ScriptEngine.Realm

/-!
# Argument lists

A list of arguments is read from an object by its length, rounded down, and its numbered properties.
Applying a function to such an object is the same as calling it with the arguments one by one.
-/

namespace ScriptEngine

variable {σ : Type}

namespace Number

open Float.Model Float.Model.UnpackedFloat

/-- The rational number that a double is, unless it is infinite or not a number. -/
def rational? (x : Float) : Option Rat :=
  match x.toModel.unpack with
  | .finite sign mantissa exponent _ =>
    some (match sign with
      | .negative => -(mantissa * 2 ^ exponent)
      | .positive => mantissa * 2 ^ exponent)
  | .zero _ => some 0
  | .infinity _ | .notANumber => none

theorem mantissa_shiftRight (mantissa : ExtendedMantissa) (places : Nat) :
    (mantissa >>> places).mantissa = mantissa.mantissa / 2 ^ places := by
  induction places with
  | zero => exact (Nat.div_one _).symm
  | succ places ih =>
    change (mantissa >>> places).mantissa / 2 = _
    rw [ih, Nat.div_div_eq_div_mul, Nat.pow_succ]

theorem floor_div (a : Nat) {b : Nat} (pos : 0 < b) : (a / b : Rat).floor = (a / b : Nat) := by
  have below (x : Int) : (a / b : Rat).floor < x ↔ ((a / b : Nat) : Int) < x := by
    rw [Rat.floor_lt_iff, Rat.div_lt_iff (Rat.natCast_pos.2 pos), ← Rat.intCast_natCast,
      ← Rat.intCast_natCast, ← Rat.intCast_mul, Rat.intCast_lt_intCast, Int.natCast_ediv,
      Int.ediv_lt_iff_lt_mul (Int.natCast_pos.2 pos)]
  exact Int.le_antisymm (Int.lt_add_one_iff.1 ((below _).2 (Int.lt_succ _)))
    (Int.lt_add_one_iff.1 ((below _).1 (Int.lt_succ _)))

theorem roundToInt_positive (mantissa : Nat) (exponent : Int) :
    roundToInt .positive mantissa exponent = (mantissa * 2 ^ exponent : Rat).floor := by
  simp only [roundToInt, decreaseExponent, shiftToExponent, mantissa_shiftRight, Sign.apply,
    ExtendedMantissa.ofMantissaAndAccuracy, Int.sub_zero, Int.zero_sub, Nat.shiftLeft_eq]
  obtain ⟨places, rfl | rfl⟩ := exponent.eq_nat_or_neg
  · have whole : (mantissa * 2 ^ (places : Int) : Rat) = ((mantissa * 2 ^ places : Nat) : Int) := by
      rw [Rat.zpow_natCast, Rat.intCast_natCast, Rat.natCast_mul, Rat.natCast_pow]
      rfl
    rw [whole, Rat.floor_intCast]
    simp
  · have fraction : (mantissa * 2 ^ (-(places : Int)) : Rat) = mantissa / (2 ^ places : Nat) := by
      rw [Rat.zpow_neg, Rat.zpow_natCast, Rat.div_def, Rat.natCast_pow]
      rfl
    rw [fraction, floor_div mantissa (Nat.two_pow_pos places)]
    simp

theorem toUInt64_of_rational {x : Float} {n : Rat} (known : rational? x = some n) (least : 0 ≤ n)
    (most : n < 2 ^ 64) :
    (if x.isFinite && x > 0 then x.toUInt64.toNat else 0) = n.floor.toNat := by
  have positive : decide (x > 0) = (zero .positive).lt x.toModel.unpack := by
    change decide (decide ((0 : Float).toModel.unpack.lt x.toModel.unpack = true) = true) = _
    rw [show (0 : Float).toModel.unpack = .zero .positive from rfl]
    simp
  have finite : x.isFinite = x.toModel.unpack.isFinite := rfl
  have value : x.toUInt64 = x.toModel.unpack.toUInt64 := rfl
  unfold rational? at known
  rw [positive, finite, value]
  cases unpacked : x.toModel.unpack with
  | infinity | notANumber => simp [unpacked] at known
  | zero =>
    simp only [unpacked, Option.some.injEq] at known
    rw [← known]
    rfl
  | finite sign mantissa exponent pos =>
    have above : (0 : Rat) < mantissa * 2 ^ exponent :=
      Rat.mul_pos (Rat.natCast_pos.2 pos) (Rat.zpow_pos (by decide))
    simp only [unpacked, Option.some.injEq] at known
    subst known
    cases sign with
    | negative => exact absurd least (Rat.not_le.2 (Rat.neg_lt_iff.2 above))
    | positive =>
      have below : (mantissa * 2 ^ exponent : Rat).floor.toNat < UInt64.size :=
        (Int.toNat_lt' (by decide)).2 (Rat.floor_lt_iff.2 most)
      change (UInt64.ofNatClamp (roundToInt .positive mantissa exponent).toNat).toNat = _
      rw [roundToInt_positive, UInt64.toNat_ofNatClamp_of_lt below]

end Number

/-- Applying a function to an object whose length is `n` is calling it with the values of the numbered
properties below `n`, with `undefined` for those that the object does not have. -/
theorem apply_eq_call (engine : Engine σ) (fuel : Nat) (m : Machine σ) (f t : Value) (list : ObjectId)
    {x : Float} {n : Rat} (length : m.heap.getProperty? list "length" = some (.number x))
    (known : Number.rational? x = some n) (least : 0 ≤ n) (most : n < 2 ^ 64) :
    engine.run fuel (Builtin.functionApply.call engine.shortcuts f [t, .object list]) m =
      engine.run fuel (Builtin.functionCall.call engine.shortcuts f
        (t :: (List.range n.floor.toNat).map fun i => m.heap.getProperty list (toString i))) m := by
  have count : Eval.listLength m.heap list = n.floor.toNat := by
    rw [← Number.toUInt64_of_rational known least most, Eval.listLength, length]
    rfl
  rw [← count]
  rfl

/-- The length is two and a half, and the prototype has a property numbered zero. -/
theorem apply_eq_call_inherited :
    let engine : Engine Unit := {}
    let h : Heap := ⟨#[{ properties := ⟨[("0", .data .null)]⟩ },
      { prototype := some ⟨0⟩, properties := ⟨[("length", .hidden (.number 2.5))]⟩ },
      { kind := .function (.native ⟨"Object", 1, .builtin .object⟩) }]⟩
    let m := { engine.start {} () with store := ⟨h, #[]⟩ }
    ∀ fuel, engine.run fuel (Builtin.functionApply.call true (.object ⟨2⟩) [.null, .object ⟨1⟩]) m =
      engine.run fuel (Builtin.functionCall.call true (.object ⟨2⟩) [.null, .null, .undefined]) m := by
  intro engine h m fuel
  have known : Number.rational? 2.5 = some (5 / 2) := by
    change some ((5629499534213120 : Nat) * (2 : Rat) ^ (-51 : Int)) = _
    decide +kernel
  have floor : (5 / 2 : Rat).floor.toNat = 2 := by decide +kernel
  have agree := apply_eq_call engine fuel m (.object ⟨2⟩) .null ⟨1⟩ rfl known (by decide +kernel)
    (by decide +kernel)
  rw [floor] at agree
  exact agree

end ScriptEngine
