/-!
# Decimals

Numbers as they stand in text: a sign, a whole number of digits and a power of ten. A decimal is
read at either precision by rounding its exact value once.
-/

namespace BehaviorTree

/-- The number `± digits * 10 ^ exponent`. -/
structure Decimal where
  negative : Bool
  digits : Nat
  exponent : Int
deriving DecidableEq

namespace Decimal

/-- The number that a run of decimal digits stands for. -/
def naturalOf (cs : List Char) : Nat :=
  cs.foldl (fun n c => 10 * n + (c.toNat - '0'.toNat)) 0

/-- The decimal digits of a number, without leading zeros. -/
def digitsOf (n : Nat) : List Char := Nat.toDigits 10 n

/-- The decimal written with given digits before and after the point and a power of ten. -/
def ofParts (negative : Bool) (whole fraction : List Char) (exponent : Int) : Decimal :=
  ⟨negative, naturalOf (whole ++ fraction), exponent - fraction.length⟩

/-- The double-precision number nearest to `digits * 10 ^ exponent`, infinite beyond the range. -/
def nearestDouble (digits : Nat) (exponent : Int) : Float :=
  .ofModel (.ofScientific digits exponent)

/-- The single-precision number nearest to `digits * 10 ^ exponent`, infinite beyond the range. -/
def nearestSingle (digits : Nat) (exponent : Int) : Float32 :=
  .ofModel (.ofScientific digits exponent)

def toDouble (d : Decimal) : Float :=
  if d.negative then -nearestDouble d.digits d.exponent else nearestDouble d.digits d.exponent

def toSingle (d : Decimal) : Float32 :=
  if d.negative then -nearestSingle d.digits d.exponent else nearestSingle d.digits d.exponent

end Decimal

end BehaviorTree
