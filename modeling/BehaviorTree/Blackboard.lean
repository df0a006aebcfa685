import BehaviorTree.Json.Printer
import BehaviorTree.Record

/-!
# Blackboards

The variables that all nodes of a tree share: free values by name, without any scoping.
-/

namespace BehaviorTree

/-- Free values by name. -/
abbrev Blackboard := Dict Json

namespace Blackboard

def number? (b : Blackboard) (name : String) : Option Float := (b.get? name).bind Json.number?

def document (b : Blackboard) : Document :=
  .object (b.entries.map fun (name, v) => (name, v.document))

def read (d : Document) : Option Blackboard := Source.dictOf? Source.value? d

end Blackboard

end BehaviorTree
