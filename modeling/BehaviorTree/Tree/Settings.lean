import BehaviorTree.Tree.Basic

/-!
# Settings

A node together with the definition of its type. A parameter has the value that the node sets, or
else the default of the definition. Values are read loosely: a number may stand in a string, and
anything can be taken as text.
-/

namespace BehaviorTree

/-- A node of a known type. -/
structure Settings where
  node : Node
  definition : Definition

namespace Settings

def default? (s : Settings) (name : String) : Option Json :=
  (s.definition.parameter? name).map (·.default)

def value? (s : Settings) (name : String) : Option Json :=
  s.node.data.get? name <|> s.default? name

/-- The number of a parameter; a value that is no number gives way to the default. -/
def number (s : Settings) (name : String) : Float32 :=
  narrow <| ((s.node.data.get? name).bind Json.number? <|>
    (s.default? name).bind Json.number?).getD 0

def count (s : Settings) (name : String) : UInt32 := countOf (s.number name)

def text (s : Settings) (name : String) : String := (s.value? name).elim "" Json.text

end Settings

end BehaviorTree
