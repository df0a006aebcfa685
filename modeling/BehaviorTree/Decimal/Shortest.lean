import BehaviorTree.Decimal.Basic

/-!
# Fewest digits that read back

A positive floating-point value `m * 2 ^ q` is written with the fewest decimal digits from which
reading, with its own rounding, recovers the value. Of several candidates with that many digits
the nearest to the exact value is taken, and of two equally near ones the even one. The search
works on the exact fraction, so the digits depend on nothing but the value and the reader.
-/

namespace BehaviorTree.Decimal

/-- The fraction `num / den` with `num / den = m * 2 ^ q / 10 ^ g`. -/
def scaledFraction (m : Nat) (q g : Int) : Nat × Nat :=
  (m * Nat.pow 2 q.toNat * Nat.pow 10 (-g).toNat, Nat.pow 2 (-q).toNat * Nat.pow 10 g.toNat)

/-- The power of ten just at or below `m * 2 ^ q`, for a positive `m`. -/
def leadingPower (m : Nat) (q : Int) : Int :=
  let guess := ((m.log2 + q) * 1233).ediv 4096
  let atLeast (g : Int) : Bool := let (num, den) := scaledFraction m q g; den ≤ num
  if atLeast (guess + 1) then guess + 1 else if atLeast guess then guess else guess - 1

/-- The two multiples of `10 ^ g` around `m * 2 ^ q`, nearest first; an even one first when both
are equally near, and one only when it is the value itself. -/
def neighbours (m : Nat) (q g : Int) : List Nat :=
  let (num, den) := scaledFraction m q g
  let below := num / den
  let excess := num % den
  if excess = 0 then [below]
  else if 2 * excess < den ∨ (2 * excess = den ∧ below % 2 = 0) then [below, below + 1]
  else [below + 1, below]

/-- Looks for a neighbour that reads back, first on the coarsest grid and then on ever finer ones.
Where no grid has one, the exact value is taken with all its digits. -/
def searchGrids (readsBack : Nat → Int → Bool) (m : Nat) (q : Int) : Nat → Int → Nat × Int
  | 0, _ => (m * Nat.pow 2 q.toNat * Nat.pow 5 (-q).toNat, min q 0)
  | grids + 1, g =>
    match (neighbours m q g).find? (readsBack · g) with
    | some digits => (digits, g)
    | none => searchGrids readsBack m q grids (g - 1)

/-- Moves trailing zeros of the digits into the power of ten. -/
def withoutTrailingZeros : Nat → Nat × Int → Nat × Int
  | 0, d => d
  | fuel + 1, (digits, e) =>
    if digits % 10 = 0 ∧ digits ≠ 0 then withoutTrailingZeros fuel (digits / 10, e + 1)
    else (digits, e)

/-- The shortest digits and power of ten for `m * 2 ^ q`; seventeen digits always suffice at
double precision. -/
def shortest (readsBack : Nat → Int → Bool) (m : Nat) (q : Int) : Nat × Int :=
  let found := searchGrids readsBack m q 17 (leadingPower m q)
  withoutTrailingZeros found.1.log2 found

/-- The sign, and the digits and power of ten, of a finite double-precision number. -/
def ofDouble (x : Float) : Decimal :=
  match x.toModel.unpack with
  | .finite sign m q _ =>
    let magnitude := x.abs
    let (digits, e) := shortest (fun d e => (nearestDouble d e).toBits == magnitude.toBits) m q
    ⟨sign == .negative, digits, e⟩
  | .zero sign | .infinity sign => ⟨sign == .negative, 0, 0⟩
  | .notANumber => ⟨false, 0, 0⟩

/-- The sign, and the digits and power of ten, of a finite single-precision number. -/
def ofSingle (x : Float32) : Decimal :=
  match x.toModel.unpack with
  | .finite sign m q _ =>
    let magnitude := x.abs
    let (digits, e) := shortest (fun d e => (nearestSingle d e).toBits == magnitude.toBits) m q
    ⟨sign == .negative, digits, e⟩
  | .zero sign | .infinity sign => ⟨sign == .negative, 0, 0⟩
  | .notANumber => ⟨false, 0, 0⟩

end BehaviorTree.Decimal
