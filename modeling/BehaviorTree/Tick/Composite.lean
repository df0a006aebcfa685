import BehaviorTree.Tick.Frame

/-!
# Composites

Ordered composites tick their children one after the other until one of them returns the status
that ends the run, or is still running; the next tick goes on with the running child. The shuffled
ones draw a new order for every run. A parallel node ticks all its children in every tick and
decides by how many of them returned each status.
-/

namespace BehaviorTree

/-- Memory at the end of a run: the next one starts with the first child of a new order. -/
def Memory.endRun (m : Memory) : Memory := { m with currentIndex := 0, shuffledIndices := none }

namespace Composite

variable {n : Nat}

/-- Ticks children by a list of places among them, the first at the given position of the run,
until one is running or returns `stopOn`. Getting to the end of the list results in the opposite
of `stopOn`. A place that is no child's comes to a failure, where a checked lookup would break off
the tick; no tick draws one, so only a restored store can hold it. -/
def runFrom (id : String) (stopOn : Status) (children : List (Fin n)) (tick : Ticker n) :
    (order : List Nat) → (position : Nat) → Frame → Status × Frame
  | [], _, f => (stopOn.invert, f.updateMemory id .endRun)
  | place :: rest, position, f =>
    match children[place]? with
    | none => (.failure, f)
    | some child =>
      match tick child f with
      | (.running, f) =>
        (.running, f.updateMemory id fun m => { m with currentIndex := position })
      | (status, f) =>
        if status = stopOn then (stopOn, f.updateMemory id .endRun)
        else runFrom id stopOn children tick rest (position + 1) f

/-- The order of this run: the one drawn for it, if it still fits the number of children, or else
a new one. -/
def drawnOrder (id : String) (count : Nat) (f : Frame) : List Nat × Frame :=
  match (f.memory id).shuffledIndices.filter (·.length = count) with
  | some order => (order, f)
  | none =>
    let (order, generator) := f.generator.shuffle count
    let f := { f with generator := generator }.note (.shuffled id count)
    (order, f.updateMemory id fun m => { m with currentIndex := 0, shuffledIndices := some order })

/-- Goes on with the run of an ordered composite. A position left by a run with more children
starts anew. -/
def ordered (id : String) (stopOn : Status) (shuffled : Bool) (children : List (Fin n))
    (tick : Ticker n) (f : Frame) : Status × Frame :=
  let (order, f) :=
    if shuffled then drawnOrder id children.length f else (List.range children.length, f)
  let saved := (f.memory id).currentIndex
  let position := if saved < children.length then saved else 0
  runFrom id stopOn children tick (order.drop position) position f

def tickAll (tick : Ticker n) : List (Fin n) → Frame → List Status × Frame
  | [], f => ([], f)
  | child :: rest, f =>
    let (status, f) := tick child f
    let (statuses, f) := tickAll tick rest f
    (status :: statuses, f)

/-- The result of a parallel node: the policy on failures comes before that on successes, and if
neither decides, the node is running while a child is. -/
def verdict (oneSucceeds allFail : Bool) (statuses : List Status) : Status :=
  let successes := statuses.count .success
  let failures := statuses.count .failure
  let failed := if allFail then failures = statuses.length else 0 < failures
  let succeeded := if oneSucceeds then 0 < successes else successes = statuses.length
  if failed then .failure
  else if succeeded then .success
  else if .running ∈ statuses then .running
  else .success

/-- Ticks a parallel node; without children it succeeds. -/
def abreast (s : Settings) (children : List (Fin n)) (tick : Ticker n) (f : Frame) :
    Status × Frame :=
  if children.isEmpty then (.success, f)
  else
    let (statuses, f) := tickAll tick children f
    (verdict (s.text "successPolicy" = "one") (s.text "failurePolicy" = "all") statuses, f)

def run (c : Composite) (s : Settings) (children : List (Fin n)) (tick : Ticker n) (f : Frame) :
    Status × Frame :=
  match c with
  | sequence => ordered s.node.id .failure false children tick f
  | selector => ordered s.node.id .success false children tick f
  | parallel => abreast s children tick f
  | randomSelector => ordered s.node.id .success true children tick f
  | randomSequence => ordered s.node.id .failure true children tick f

end Composite

end BehaviorTree
