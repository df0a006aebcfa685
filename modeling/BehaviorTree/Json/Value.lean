import BehaviorTree.Json.Document

/-!
# Free values

JSON data without a fixed shape, as blackboards, node parameters and event payloads hold it.
A value is a canonical document: an object keeps its members by increasing name, a name occurs
once, and numbers are 64-bit integers or finite double-precision numbers.
-/

namespace BehaviorTree

/-- A free JSON value. -/
structure Json where
  document : Document
  canonical : document.canonical = true
deriving DecidableEq

namespace Document

theorem canonicalItems_map (values : List Json) :
    canonicalItems (values.map (·.document)) = true := by
  induction values with
  | nil => rfl
  | cons v rest ih => simp [canonicalItems, v.canonical, ih]

theorem canonicalMembers_map (entries : List (String × Json)) :
    canonicalMembers (entries.map fun e => (e.1, e.2.document)) = true := by
  induction entries with
  | nil => rfl
  | cons e rest ih => simp [canonicalMembers, e.2.canonical, ih]

theorem ascending_map {α β : Type _} (f : α → β) {entries : List (String × α)}
    (h : Ascending entries) : Ascending (entries.map fun e => (e.1, f e.2)) :=
  List.pairwise_map.2 h

end Document

namespace Json

def null : Json := ⟨.null, rfl⟩

def bool (b : Bool) : Json := ⟨.bool b, rfl⟩

def string (s : String) : Json := ⟨.string s, rfl⟩

/-- A number of double precision; `null` stands in for one that is not finite. -/
def double (x : Float) : Json :=
  if h : x.isFinite then ⟨.number (.double x), h⟩ else null

/-- A number of single precision, kept at double precision. -/
def single (x : Float32) : Json := double (widen x)

/-- A whole number, as an integer when it fits 64 bits. -/
def integer (n : Int) : Json :=
  if h : fits 64 n then ⟨.number (.integer n), h⟩ else double (.ofInt n)

def array (values : List Json) : Json :=
  ⟨.array (values.map (·.document)), by
    simpa only [Document.canonical] using Document.canonicalItems_map values⟩

def object (members : Dict Json) : Json :=
  ⟨.object (members.entries.map fun e => (e.1, e.2.document)), by
    simp only [Document.canonical, Bool.and_eq_true, decide_eq_true_eq]
    exact ⟨Document.ascending_map _ members.ascending, Document.canonicalMembers_map _⟩⟩

instance : Inhabited Json := ⟨null⟩

def ofNumber : Number → Json
  | .integer n => integer n
  | .double x => double x
  | .single x => single x

mutual

/-- The value of a document: members are sorted by name, and of members of one name the last
counts. -/
def ofDocument : Document → Json
  | .null | .unreadable => null
  | .bool b => bool b
  | .number n => ofNumber n
  | .string s => string s
  | .array items => array (ofItems items)
  | .object members => object (ofMembers ∅ members)

def ofItems : List Document → List Json
  | [] => []
  | d :: rest => ofDocument d :: ofItems rest

/-- The values of a list of members, added to those of the members before. -/
def ofMembers (before : Dict Json) : List (String × Document) → Dict Json
  | [] => before
  | (name, d) :: rest => ofMembers (before.insert name (ofDocument d)) rest

end

end Json

/-- The value of a document all of which can be read. -/
def Document.value? (d : Document) : Option Json :=
  if d.readable then some (.ofDocument d) else none

end BehaviorTree
