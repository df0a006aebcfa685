import BehaviorTree.Record

/-!
# Statuses

What ticking a node results in. A running node asks to be ticked again and goes on where it
stopped; the other two results end it.
-/

namespace BehaviorTree

/-- The result of ticking a node. -/
inductive Status where
  | success
  | failure
  | running
deriving DecidableEq, Inhabited

namespace Status

def isSuccess (s : Status) : Bool := s = success
def isFailure (s : Status) : Bool := s = failure
def isRunning (s : Status) : Bool := s = running

/-- Whether the tick ended the node's run. -/
def isDone (s : Status) : Bool := !s.isRunning

/-- Exchanges success and failure; running stays. -/
def invert : Status → Status
  | success => failure
  | failure => success
  | running => running

/-- Success for a condition that holds. -/
def ofBool (b : Bool) : Status := if b then success else failure

@[simp] theorem invert_invert (s : Status) : s.invert.invert = s := by cases s <;> rfl

/-- The name that stands for a status in documents. -/
def name : Status → String
  | success => "success"
  | failure => "failure"
  | running => "running"

def ofName? (name : String) : Option Status :=
  [success, failure, running].find? (·.name == name)

@[simp] theorem ofName?_name (s : Status) : ofName? s.name = some s := by cases s <;> rfl

def document (s : Status) : Document := .string s.name

def read (d : Document) : Option Status := d.alternative?.bind ofName?

end Status

end BehaviorTree
