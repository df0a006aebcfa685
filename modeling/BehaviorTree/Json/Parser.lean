import BehaviorTree.Json.Codec
import BehaviorTree.Json.Document

/-!
# Reading documents

The strict grammar of JSON texts: no comments, trailing commas, leading zeros or raw control
characters, blanks only between tokens, and nothing behind the value. A part that is sound text
but has no value is read as unreadable: a number beyond the double-precision range, a string with
half of a surrogate pair, and whatever lies in more than 127 arrays and objects.
-/

namespace BehaviorTree.Json

/-- The blanks between tokens. -/
def isSpace (c : Char) : Bool := c == ' ' || c == '\t' || c == '\n' || c == '\r'

/-- A text from its first token on. -/
def skipSpace (cs : List Char) : List Char := cs.dropWhile isSpace

/-- What a piece of a string literal stands for: a character, or a 16-bit unit. -/
inductive Piece where
  | char (c : Char)
  | unit (n : Nat)

def hexDigit? (c : Char) : Option Nat :=
  if c.isDigit then some (c.toNat - '0'.toNat)
  else if 'a' ≤ c ∧ c ≤ 'f' then some (c.toNat - 'a'.toNat + 10)
  else if 'A' ≤ c ∧ c ≤ 'F' then some (c.toNat - 'A'.toNat + 10)
  else none

def hexUnit? (a b c d : Char) : Option Nat := do
  return (((← hexDigit? a) * 16 + (← hexDigit? b)) * 16 + (← hexDigit? c)) * 16 + (← hexDigit? d)

def escaped? : Char → Option Char
  | '"' => some '"'
  | '\\' => some '\\'
  | '/' => some '/'
  | 'b' => some '\x08'
  | 'f' => some '\x0c'
  | 'n' => some '\n'
  | 'r' => some '\r'
  | 't' => some '\t'
  | _ => none

/-- The pieces of a string literal behind its opening quote, and what follows the closing one. -/
def pieces : List Char → Option (List Piece × List Char)
  | [] => none
  | '"' :: rest => some ([], rest)
  | '\\' :: 'u' :: a :: b :: c :: d :: rest =>
    match hexUnit? a b c d, pieces rest with
    | some n, some (more, rest) => some (.unit n :: more, rest)
    | _, _ => none
  | '\\' :: c :: rest =>
    match escaped? c, pieces rest with
    | some c, some (more, rest) => some (.char c :: more, rest)
    | _, _ => none
  | c :: rest =>
    if c.toNat < 0x20 then none
    else (pieces rest).map fun (more, rest) => (.char c :: more, rest)

/-- Joins pieces to characters: two units that form a surrogate pair are one character, and half
of a pair is none. -/
def join? : List Piece → Option (List Char)
  | [] => some []
  | .char c :: rest => (join? rest).map (c :: ·)
  | .unit n :: rest =>
    if n < 0xD800 ∨ 0xE000 ≤ n then (join? rest).map (Char.ofNat n :: ·)
    else match rest with
      | .unit m :: rest =>
        if n < 0xDC00 ∧ 0xDC00 ≤ m ∧ m < 0xE000 then
          (join? rest).map (Char.ofNat (0x10000 + (n - 0xD800) * 0x400 + (m - 0xDC00)) :: ·)
        else none
      | _ => none

/-- A string literal behind its opening quote, without a value if half of a surrogate pair occurs,
and what follows it. -/
def stringLiteral (cs : List Char) : Option (Option String × List Char) :=
  (pieces cs).map fun (parts, rest) => ((join? parts).map String.ofList, rest)

section Reading

variable (codec : NumberCodec)

/-- A number written with a fraction or a power of ten. -/
def ofDecimal (d : Decimal) : Document :=
  let x := codec.read d
  if x.isFinite then .number (.double x) else .unreadable

/-- A number written with digits only: an integer when it fits 64 bits, though never a negative
zero. -/
def ofDigits (negative : Bool) (digits : List Char) : Document :=
  let n := Decimal.naturalOf digits
  if negative then
    if n ≠ 0 ∧ fitsSigned 64 (-n) then .number (.integer (-n)) else ofDecimal codec ⟨true, n, 0⟩
  else if fitsUnsigned 64 n then .number (.integer n) else ofDecimal codec ⟨false, n, 0⟩

/-- An optional fraction: `none` when a point has no digits behind it. -/
def fractionPart : List Char → Option (List Char × List Char)
  | '.' :: rest =>
    let (digits, rest) := rest.span Char.isDigit
    if digits.isEmpty then none else some (digits, rest)
  | text => some ([], text)

/-- The sign of a power of ten and what follows it. -/
def exponentSign : List Char → Bool × List Char
  | '-' :: rest => (true, rest)
  | '+' :: rest => (false, rest)
  | text => (false, text)

/-- An optional power of ten: an inner `none` when there is none, an outer one when it has no
digits. -/
def exponentPart : List Char → Option (Option Int × List Char)
  | c :: rest =>
    if c = 'e' ∨ c = 'E' then
      let (negative, rest) := exponentSign rest
      let (digits, rest) := rest.span Char.isDigit
      let n := Decimal.naturalOf digits
      if digits.isEmpty then none else some (some (if negative then -n else n), rest)
    else some (none, c :: rest)
  | [] => some (none, [])

/-- A number behind its sign, and what follows it. -/
def unsignedNumber (negative : Bool) (cs : List Char) : Option (Document × List Char) := do
  let (whole, rest) := cs.span Char.isDigit
  if whole.isEmpty ∨ (whole.head? = some '0' ∧ 1 < whole.length) then none
  else
    let (fraction, rest) ← fractionPart rest
    let (power, rest) ← exponentPart rest
    match fraction, power with
    | [], none => return (ofDigits codec negative whole, rest)
    | _, _ => return (ofDecimal codec (.ofParts negative whole fraction (power.getD 0)), rest)

def number : List Char → Option (Document × List Char)
  | '-' :: rest => unsignedNumber codec true rest
  | text => unsignedNumber codec false text

/-- An array or object where some nesting levels are left. -/
def nested (room : Nat) (d : Document) : Document := if room = 0 then .unreadable else d

mutual

/-- A value and what follows it, where `room` more arrays and objects may lie within one another. -/
def value : (fuel room : Nat) → List Char → Option (Document × List Char)
  | 0, _, _ => none
  | fuel + 1, room, cs =>
    match skipSpace cs with
    | '\x7b' :: rest =>
      match skipSpace rest with
      | '\x7d' :: rest => some (nested room (.object []), rest)
      | rest => (members fuel (room - 1) rest).map fun (found, rest) =>
          (nested room (found.elim .unreadable .object), rest)
    | '[' :: rest =>
      match skipSpace rest with
      | ']' :: rest => some (nested room (.array []), rest)
      | rest => (items fuel (room - 1) rest).map fun (found, rest) =>
          (nested room (.array found), rest)
    | '"' :: rest => (stringLiteral rest).map fun (s, rest) => (s.elim .unreadable .string, rest)
    | 'n' :: 'u' :: 'l' :: 'l' :: rest => some (.null, rest)
    | 't' :: 'r' :: 'u' :: 'e' :: rest => some (.bool true, rest)
    | 'f' :: 'a' :: 'l' :: 's' :: 'e' :: rest => some (.bool false, rest)
    | rest => number codec rest

/-- The items of an array up to its closing bracket. -/
def items : (fuel room : Nat) → List Char → Option (List Document × List Char)
  | 0, _, _ => none
  | fuel + 1, room, cs =>
    match value fuel room cs with
    | none => none
    | some (d, rest) =>
      match skipSpace rest with
      | ']' :: rest => some ([d], rest)
      | ',' :: rest => (items fuel room rest).map fun (more, rest) => (d :: more, rest)
      | _ => none

/-- The members of an object up to its closing brace, without a value if one of the names has
none. -/
def members : (fuel room : Nat) → List Char → Option (Option (List (String × Document)) × List Char)
  | 0, _, _ => none
  | fuel + 1, room, cs =>
    match skipSpace cs with
    | '"' :: rest =>
      match stringLiteral rest with
      | none => none
      | some (name, rest) =>
        match skipSpace rest with
        | ':' :: rest =>
          match value fuel room rest with
          | none => none
          | some (d, rest) =>
            match skipSpace rest with
            | '\x7d' :: rest => some (name.map fun name => [(name, d)], rest)
            | ',' :: rest => (members fuel room rest).map fun (more, rest) =>
                (name.bind fun name => more.map ((name, d) :: ·), rest)
            | _ => none
        | _ => none
    | _ => none

end

/-- How many arrays and objects may lie within one another. -/
def maxDepth : Nat := 127

def parse? (cs : List Char) : Option Document :=
  match value codec (2 * cs.length + 2) maxDepth cs with
  | some (d, rest) => if skipSpace rest = [] then some d else none
  | none => none

end Reading

end BehaviorTree.Json

def BehaviorTree.Document.ofText? (codec : BehaviorTree.NumberCodec) (text : String) :
    Option BehaviorTree.Document :=
  BehaviorTree.Json.parse? codec text.toList
