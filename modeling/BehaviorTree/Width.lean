/-!
# Widths

Whole numbers that fit into a number of bits.
-/

namespace BehaviorTree

/-- Whether a whole number fits some bits without a sign. -/
def fitsUnsigned (bits : Nat) (n : Int) : Bool := 0 ≤ n && n < Nat.pow 2 bits

/-- Whether a whole number fits some bits with a sign. -/
def fitsSigned (bits : Nat) (n : Int) : Bool :=
  -(Nat.pow 2 (bits - 1) : Int) ≤ n && n < Nat.pow 2 (bits - 1)

/-- Whether a whole number fits some bits, with a sign or without. -/
def fits (bits : Nat) (n : Int) : Bool := fitsSigned bits n || fitsUnsigned bits n

end BehaviorTree
