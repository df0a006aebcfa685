import BehaviorTree.Decimal.Shortest

/-!
# Writing decimals

A decimal `d.ddd * 10 ^ e` is written positionally while `e` lies in a given range, always with
a fraction, and otherwise in scientific notation with a signed exponent.
-/

namespace BehaviorTree.Decimal

/-- The scientific exponents for which a number is written positionally. -/
structure Layout where
  least : Int
  greatest : Int

/-- Double-precision numbers are positional from `0.00001` up to below `10 ^ 16`. -/
def Layout.double : Layout := ⟨-5, 15⟩

/-- Single-precision numbers are positional from `0.000001` up to below `10 ^ 13`. -/
def Layout.single : Layout := ⟨-6, 12⟩

/-- The digits with the point behind the one at scientific exponent zero. -/
def positional (digits : List Char) (e : Int) : List Char :=
  if e < 0 then '0' :: '.' :: List.replicate (-e - 1).toNat '0' ++ digits
  else
    let whole := e.toNat + 1
    if digits.length ≤ whole then
      digits ++ List.replicate (whole - digits.length) '0' ++ ['.', '0']
    else digits.take whole ++ '.' :: digits.drop whole

/-- The digits with the point behind the first, and the exponent with its sign. -/
def scientific (digits : List Char) (e : Int) : List Char :=
  let significand := match digits with
    | first :: rest@(_ :: _) => first :: '.' :: rest
    | short => short
  significand ++ 'e' :: (if e < 0 then '-' else '+') :: digitsOf e.natAbs

def write (layout : Layout) (d : Decimal) : List Char :=
  let digits := digitsOf d.digits
  let e := if d.digits = 0 then 0 else d.exponent + digits.length - 1
  let unsigned :=
    if layout.least ≤ e ∧ e ≤ layout.greatest then positional digits e else scientific digits e
  if d.negative then '-' :: unsigned else unsigned

end BehaviorTree.Decimal
