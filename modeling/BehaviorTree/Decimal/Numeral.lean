import BehaviorTree.Decimal.Basic

/-!
# Numerals

The texts that stand for a floating-point number outside documents: an optional sign, then
`inf`, `infinity` or `nan` in any letter case, or digits with an optional point among them (at
least one digit) and an optional power of ten. Nothing may stand before or behind.
-/

namespace BehaviorTree

/-- What a numeral stands for. -/
inductive Numeral where
  | decimal (d : Decimal)
  | infinite (negative : Bool)
  | undefined
deriving DecidableEq

namespace Numeral

/-- A sign, if the text starts with one: whether it is a minus, and the rest. -/
def sign : List Char → Bool × List Char
  | '-' :: rest => (true, rest)
  | '+' :: rest => (false, rest)
  | text => (false, text)

/-- The power of ten at the end of a numeral, zero if there is none. -/
def powerOfTen? : List Char → Option Int
  | [] => some 0
  | c :: rest =>
    if c = 'e' ∨ c = 'E' then
      let (negative, digits) := sign rest
      if digits.isEmpty ∨ ¬ digits.all Char.isDigit then none
      else
        let n := Decimal.naturalOf digits
        some (if negative then -n else n)
    else none

/-- The fraction behind an optional point, and what follows it. -/
def fraction : List Char → List Char × List Char
  | '.' :: rest => rest.span Char.isDigit
  | text => ([], text)

/-- Digits with an optional point and an optional power of ten. -/
def unsignedDecimal? (negative : Bool) (text : List Char) : Option Decimal :=
  let (whole, rest) := text.span Char.isDigit
  let (part, rest) := fraction rest
  if whole.isEmpty ∧ part.isEmpty then none
  else (powerOfTen? rest).map (Decimal.ofParts negative whole part)

def ofText? (text : List Char) : Option Numeral :=
  let (negative, unsigned) := sign text
  let word := unsigned.map Char.toLower
  if word = "inf".toList ∨ word = "infinity".toList then some (.infinite negative)
  else if word = "nan".toList then some .undefined
  else (unsignedDecimal? negative unsigned).map .decimal

def toDouble : Numeral → Float
  | .decimal d => d.toDouble
  | .infinite negative => Float.ofBits (if negative then 0xFFF0000000000000 else 0x7FF0000000000000)
  | .undefined => Float.ofBits 0x7FF8000000000000

def toSingle : Numeral → Float32
  | .decimal d => d.toSingle
  | .infinite negative => Float32.ofBits (if negative then 0xFF800000 else 0x7F800000)
  | .undefined => Float32.ofBits 0x7FC00000

end Numeral

/-- The double-precision number that a text stands for. -/
def double? (text : String) : Option Float := (Numeral.ofText? text.toList).map (·.toDouble)

/-- The single-precision number that a text stands for. -/
def single? (text : String) : Option Float32 := (Numeral.ofText? text.toList).map (·.toSingle)

end BehaviorTree
