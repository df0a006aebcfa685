/-!
# Two precisions

World and timing quantities are single-precision numbers, document quantities are
double-precision ones. This module moves between the two with rounding to nearest, ties to even,
and rounds a single-precision count to a whole number.
-/

namespace BehaviorTree

open Float.Model (Format UnpackedFloat)

/-- The value nearest to a given one in a format, ties to the even significand. -/
def nearestIn (format : Format) : UnpackedFloat → UnpackedFloat
  | .finite sign significand exponent _ => UnpackedFloat.round format sign significand exponent
  | special => special

/-- A single-precision number as the double-precision number of the same value. -/
def widen (x : Float32) : Float :=
  .ofModel (.pack (nearestIn .binary64 x.toModel.unpack))

/-- The single-precision number nearest to a double-precision one; infinite when that lies
beyond the single-precision range. -/
def narrow (x : Float) : Float32 :=
  .ofModel (.pack (nearestIn .binary32 x.toModel.unpack))

/-- The magnitude `m * 2 ^ e` rounded to a whole number, halves upwards. -/
def roundMagnitude (m : Nat) (e : Int) : Nat :=
  if 0 ≤ e then m * Nat.pow 2 e.toNat
  else (2 * m + Nat.pow 2 (-e).toNat) / Nat.pow 2 ((-e).toNat + 1)

/-- A count read from a number: the nearest whole number, halves away from zero and clamped to
32 bits, when the number is positive and finite, and zero otherwise. -/
def countOf (x : Float32) : UInt32 :=
  match x.toModel.unpack with
  | .finite .positive m e _ => .ofNatClamp (roundMagnitude m e)
  | _ => 0

/-- The smaller of two numbers, an undefined one giving way to the other. -/
def lesser (a b : Float32) : Float32 :=
  if a.isNaN then b else if b.isNaN then a else if b < a then b else a

end BehaviorTree
