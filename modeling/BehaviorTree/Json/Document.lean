import BehaviorTree.Dict
import BehaviorTree.Precision
import BehaviorTree.Width

/-!
# Documents

A document is JSON data as it stands in a text: the members of an object in the order in which
they are written, repeated names included. Records are written to documents and read from them.

A document is canonical when it is what a free value keeps: member names strictly increase,
integers fit 64 bits and other numbers are finite and of double precision.
-/

namespace BehaviorTree

/-- A number of a document. Whole numbers written without a fraction stay apart from the others,
and numbers of a record are written with the digits of their own precision. -/
inductive Number where
  | integer (n : Int)
  | double (x : Float)
  | single (x : Float32)
deriving DecidableEq

/-- JSON data as written. -/
inductive Document where
  | null
  | bool (b : Bool)
  | number (n : Number)
  | string (s : String)
  | array (items : List Document)
  | object (members : List (String × Document))
  /-- Sound text from which no value can be read, though it can be passed over: a number beyond
  the double-precision range, half of a surrogate pair, or a value nested too deep. -/
  | unreadable
deriving Inhabited

namespace Document

mutual

/-- Whether two documents are the same, member order included. -/
def same : Document → Document → Bool
  | .null, .null => true
  | .bool a, .bool b => a = b
  | .number a, .number b => a = b
  | .string a, .string b => a = b
  | .array a, .array b => sameItems a b
  | .object a, .object b => sameMembers a b
  | .unreadable, .unreadable => true
  | _, _ => false

/-- Whether two lists of documents are the same. -/
def sameItems : List Document → List Document → Bool
  | [], [] => true
  | a :: as, b :: bs => same a b && sameItems as bs
  | _, _ => false

def sameMembers : List (String × Document) → List (String × Document) → Bool
  | [], [] => true
  | (k, a) :: as, (l, b) :: bs => k = l && same a b && sameMembers as bs
  | _, _ => false

end

mutual

theorem same_iff : ∀ a b : Document, same a b = true ↔ a = b
  | .array a, b => by cases b <;> simp [same, sameItems_iff a]
  | .object a, b => by cases b <;> simp [same, sameMembers_iff a]
  | .null, b | .bool _, b | .number _, b | .string _, b | .unreadable, b => by
    cases b <;> simp [same]

theorem sameItems_iff : ∀ a b : List Document, sameItems a b = true ↔ a = b
  | [], b => by cases b <;> simp [sameItems]
  | a :: as, b => by cases b <;> simp [sameItems, same_iff a, sameItems_iff as]

theorem sameMembers_iff : ∀ a b : List (String × Document), sameMembers a b = true ↔ a = b
  | [], b => by cases b <;> simp [sameMembers]
  | (k, a) :: as, b => by
    cases b <;> simp [sameMembers, same_iff a, sameMembers_iff as, Prod.ext_iff]

end

instance : DecidableEq Document := fun a b => decidable_of_iff _ (same_iff a b)

mutual

/-- How many arrays and objects lie within one another at the deepest place. -/
def depth : Document → Nat
  | .array items => 1 + depthItems items
  | .object members => 1 + depthMembers members
  | _ => 0

def depthItems : List Document → Nat
  | [] => 0
  | d :: rest => max (depth d) (depthItems rest)

def depthMembers : List (String × Document) → Nat
  | [] => 0
  | (_, d) :: rest => max (depth d) (depthMembers rest)

end

mutual

/-- Whether every part of a document can be read. -/
def readable : Document → Bool
  | .array items => readableItems items
  | .object members => readableMembers members
  | .unreadable => false
  | _ => true

/-- Whether every document of a list can be read. -/
def readableItems : List Document → Bool
  | [] => true
  | d :: rest => readable d && readableItems rest

/-- Whether every member of a list can be read. -/
def readableMembers : List (String × Document) → Bool
  | [] => true
  | (_, d) :: rest => readable d && readableMembers rest

end

/-- Whether a number is one that a free value keeps. -/
def canonicalNumber : Number → Bool
  | .integer n => fits 64 n
  | .double x => x.isFinite
  | .single _ => false

mutual

/-- Whether a document is what a free value keeps. -/
def canonical : Document → Bool
  | .number n => canonicalNumber n
  | .array items => canonicalItems items
  | .object members => decide (Ascending members) && canonicalMembers members
  | .unreadable => false
  | _ => true

/-- Whether every document of a list is canonical. -/
def canonicalItems : List Document → Bool
  | [] => true
  | d :: rest => canonical d && canonicalItems rest

/-- Whether the document of every member is canonical. -/
def canonicalMembers : List (String × Document) → Bool
  | [] => true
  | (_, d) :: rest => canonical d && canonicalMembers rest

end

end Document

end BehaviorTree
