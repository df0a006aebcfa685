import BehaviorTree.Decimal.Layout

/-!
# Floating-point numbers in texts

Documents are written to texts and read from them by way of a codec, which says how floating-point
numbers stand there. Readers differ in how often they round, and one that rounds more than once
does not get back every number that it is given with the fewest digits.
-/

namespace BehaviorTree

/-- How floating-point numbers are written and read. -/
structure NumberCodec where
  /-- The text of a finite number of double precision. -/
  double : Float → List Char
  /-- The text of a finite number of single precision. -/
  single : Float32 → List Char
  /-- What a decimal is read as, which is not finite beyond the range. -/
  read : Decimal → Float

/-- Writes the fewest digits that tell a number from all others, and rounds once in reading. -/
def NumberCodec.nearest : NumberCodec where
  double x := (Decimal.ofDouble x).write .double
  single x := (Decimal.ofSingle x).write .single
  read := Decimal.toDouble

end BehaviorTree
