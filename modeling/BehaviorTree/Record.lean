import BehaviorTree.Json.Value

/-!
# Reading records

Records of named fields are read from documents of several formats. A format says how its data
is taken as a string, a number and so on; the rules for fields are the same in all of them.

A field that a record knows may be written once only, and a field that it does not know is passed
over. A format may also allow a record to be written as the list of its fields in order, where
fields at the end can be left out if they have a default.
-/

namespace BehaviorTree

/-- Data of a format from which records are read. -/
class Source (δ : Type) where
  isNull : δ → Bool
  bool? : δ → Option Bool
  string? : δ → Option String
  /-- A whole number that fits 64 bits without a sign. -/
  natural? : δ → Option Nat
  /-- A whole number that fits 64 bits with a sign. -/
  integer? : δ → Option Int
  real? : δ → Option Float32
  list? : δ → Option (List δ)
  members? : δ → Option (List (String × δ))
  /-- The fields of a record that is written as a list, if the format has such records. -/
  positions? : δ → Option (List δ)
  value? : δ → Option Json

/-- The fields of a record by name. -/
abbrev Fields (δ : Type) := List (String × δ)

namespace Fields

variable {δ : Type} [Source δ]

/-- The known fields of a record: no field occurs twice, and a list has no more items than there
are fields. -/
def of? (names : List String) (d : δ) : Option (Fields δ) :=
  match Source.members? d with
  | some members =>
    let known := members.filter (names.contains ·.1)
    if (known.map (·.1)).Nodup then some known else none
  | none =>
    match Source.positions? d with
    | some items => if items.length ≤ names.length then some (names.zip items) else none
    | none => none

def required {α : Type} (fields : Fields δ) (name : String) (read : δ → Option α) : Option α :=
  (fields.lookup name).bind read

/-- A field with a default for when it is absent. -/
def optional {α : Type} (fields : Fields δ) (name : String) (read : δ → Option α) (default : α) :
    Option α :=
  match fields.lookup name with
  | some d => read d
  | none => some default

end Fields

namespace Source

variable {δ : Type} [Source δ]

/-- Reads `null` as an absent value. -/
def nullable {α : Type} (read : δ → Option α) (d : δ) : Option (Option α) :=
  if isNull d then some none else (read d).map some

def listOf? {α : Type} (read : δ → Option α) (d : δ) : Option (List α) :=
  (list? d).bind (·.mapM read)

/-- Reads a whole number from zero up to below a bound. -/
def below? (bound : Nat) (d : δ) : Option Nat :=
  (natural? d).filter (· < bound)

/-- Reads an object of equally shaped values, of which the last of each name counts. -/
def dictOf? {α : Type} (read : δ → Option α) (d : δ) : Option (Dict α) := do
  let entries ← (← members? d).mapM fun (name, d) => (read d).map (name, ·)
  return .ofList entries

end Source

/-- The number of a document in single precision. -/
def Number.toSingle : Number → Float32
  | .integer n => .ofInt n
  | .double x => narrow x
  | .single x => x

instance : Source Document where
  isNull d := match d with
    | .null => true
    | _ => false
  bool? d := match d with
    | .bool b => some b
    | _ => none
  string? d := match d with
    | .string s => some s
    | _ => none
  natural? d := match d with
    | .number (.integer n) => if fitsUnsigned 64 n then some n.toNat else none
    | _ => none
  integer? d := match d with
    | .number (.integer n) => if fitsSigned 64 n then some n else none
    | _ => none
  real? d := match d with
    | .number n => some n.toSingle
    | _ => none
  list? d := match d with
    | .array items => some items
    | _ => none
  members? d := match d with
    | .object members => some members
    | _ => none
  positions? d := match d with
    | .array items => some items
    | _ => none
  value? := Document.value?

/-- The name of an alternative without contents: a string, or an object that maps it to `null`. -/
def Document.alternative? : Document → Option String
  | .string s => some s
  | .object [(s, .null)] => some s
  | _ => none

end BehaviorTree
