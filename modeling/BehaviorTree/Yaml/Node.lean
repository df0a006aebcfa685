import BehaviorTree.Decimal.Numeral
import BehaviorTree.Record

/-!
# YAML data

What a YAML text holds: scalars, sequences and mappings. A plain scalar has no type of its own.
It becomes a number, a truth value or a string when a record or a free value is read from it; a
quoted scalar is always a string.
-/

namespace BehaviorTree.Yaml

/-- YAML data. -/
inductive Node where
  | scalar (plain : Bool) (text : String)
  | sequence (items : List Node)
  | mapping (entries : List (Node × Node))
  /-- A collection that lies too deep to be read, though it can be passed over. -/
  | unreadable
deriving Inhabited

/-- What stands where nothing is written. -/
def Node.nothing : Node := .scalar true ""

/-- The value of a digit in a base up to sixteen. -/
def digit? (base : Nat) (c : Char) : Option Nat :=
  let value :=
    if c.isDigit then c.toNat - '0'.toNat
    else if 'a' ≤ c ∧ c ≤ 'f' then c.toNat - 'a'.toNat + 10
    else if 'A' ≤ c ∧ c ≤ 'F' then c.toNat - 'A'.toNat + 10
    else base
  if value < base then some value else none

/-- The number that a run of digits of a base stands for; there must be at least one. -/
def digits? (base : Nat) (cs : List Char) : Option Nat :=
  if cs.isEmpty then none
  else (cs.mapM (digit? base)).map fun ds => ds.foldl (fun n d => base * n + d) 0

/-- Whether a text is digits with a leading zero, which is no number. -/
def hasLeadingZero (cs : List Char) : Bool :=
  let unsigned := match cs with
    | '-' :: rest | '+' :: rest => rest
    | cs => cs
  match unsigned with
  | '0' :: rest@(_ :: _) => rest.all Char.isDigit
  | _ => false

/-- The whole number of an unsigned text, in base ten or behind the mark of another base. -/
def magnitude? : List Char → Option Nat
  | '0' :: 'x' :: rest => digits? 16 rest
  | '0' :: 'o' :: rest => digits? 8 rest
  | '0' :: 'b' :: rest => digits? 2 rest
  | cs => if hasLeadingZero cs then none else digits? 10 cs

/-- The whole number of a text, which may start with a sign. -/
def integerOf? : List Char → Option Int
  | '-' :: rest => (magnitude? rest).map fun n => -(n : Int)
  | '+' :: rest => (magnitude? rest).map fun n => (n : Int)
  | cs => (magnitude? cs).map fun n => (n : Int)

/-- The number of a text: a finite numeral, or one of the words for infinity and undefined. -/
def floatOf? (cs : List Char) : Option Float :=
  let unsigned := match cs with
    | '+' :: rest => rest
    | cs => cs
  let signed := cs != unsigned && (unsigned.head? == some '+' || unsigned.head? == some '-')
  let word := String.ofList cs
  if signed then none
  else if [".inf", ".Inf", ".INF", "+.inf", "+.Inf", "+.INF"].contains word then
    some (Numeral.infinite false).toDouble
  else if ["-.inf", "-.Inf", "-.INF"].contains word then some (Numeral.infinite true).toDouble
  else if [".nan", ".NaN", ".NAN"].contains word then some Numeral.undefined.toDouble
  else ((Numeral.ofText? unsigned).map (·.toDouble)).filter (·.isFinite)

def boolOf? (s : String) : Option Bool :=
  if ["true", "True", "TRUE"].contains s then some true
  else if ["false", "False", "FALSE"].contains s then some false
  else none

/-- Whether a text means that there is no value. -/
def isNullText (s : String) : Bool := ["", "~", "null", "Null", "NULL"].contains s

/-- The free value of a plain scalar. A whole number that fits 128 but not 64 bits has none. -/
def plainValue? (s : String) : Option Json :=
  let cs := s.toList
  if isNullText s then some .null
  else match boolOf? s with
    | some b => some (.bool b)
    | none =>
      match (integerOf? cs).filter (fits 128) with
      | some n => if fits 64 n then some (.integer n) else none
      | none =>
        match if hasLeadingZero cs then none else floatOf? cs with
        | some x => some (.double x)
        | none => some (.string s)

def scalarValue? (plain : Bool) (text : String) : Option Json :=
  if plain then plainValue? text else some (.string text)

namespace Node

/-- The name that a node stands for as a key of a free object. -/
def name? : Node → Option String
  | .scalar plain text =>
    (scalarValue? plain text).bind fun v => match v.document with
      | .string s => some s
      | _ => none
  | _ => none

mutual

def value? : Node → Option Json
  | .scalar plain text => scalarValue? plain text
  | .sequence items => (values? items).map .array
  | .mapping entries => (members? ∅ entries).map .object
  | .unreadable => none

def values? : List Node → Option (List Json)
  | [] => some []
  | node :: rest =>
    match value? node, values? rest with
    | some v, some vs => some (v :: vs)
    | _, _ => none

/-- The free values of a list of entries, added to those of the entries before. -/
def members? (before : Dict Json) : List (Node × Node) → Option (Dict Json)
  | [] => some before
  | (key, node) :: rest =>
    match name? key, value? node with
    | some name, some v => members? (before.insert name v) rest
    | _, _ => none

end

def plainText? : Node → Option String
  | .scalar true text => some text
  | _ => none

def scalarText? : Node → Option String
  | .scalar _ text => some text
  | _ => none

end Node

instance : Source Node where
  isNull d := d.plainText?.any isNullText
  bool? d := d.plainText?.bind boolOf?
  string? := Node.scalarText?
  natural? d := do
    let text ← d.plainText?
    match text.toList with
    | '-' :: _ => none
    | cs => ((integerOf? cs).filter (fitsUnsigned 64)).map (·.toNat)
  integer? d := do (integerOf? (← d.plainText?).toList).filter (fitsSigned 64)
  real? d := do (floatOf? (← d.plainText?).toList).map narrow
  list? d := match d with
    | .sequence items => some items
    | .scalar true "" => some []
    | _ => none
  members? d := match d with
    | .mapping entries => entries.mapM fun (key, node) => key.scalarText?.map (·, node)
    | .scalar true "" => some []
    | _ => none
  positions? _ := none
  value? := Node.value?

end BehaviorTree.Yaml
