import BehaviorTree.Status

/-!
# Continuation states

A node that is running keeps what it needs for its next tick in a store beside the tree, under
its name. A node has no state before its first tick.
-/

namespace BehaviorTree

/-- What nodes remember between ticks; every kind uses only the fields that it needs. -/
structure Memory where
  /-- Ordered composites: the position of the child to tick next. -/
  currentIndex : Nat
  /-- Shuffled composites: the order of the children in the current run. -/
  shuffledIndices : Option (List Nat)
  /-- Counting decorators: the runs of the child that count so far. -/
  iteration : UInt32
  /-- Cooldowns: the running time at which the child last ended a run. -/
  lastExecutionTime : Float32
  /-- Timeouts and waits: the seconds of the current run. -/
  elapsed : Float32
  /-- Attacks: the running time of the last one. -/
  lastAttackTime : Option Float32
  /-- Patrols: the position of the waypoint to go to. -/
  waypointIndex : Nat
  /-- Patrols: whether the actor waits at the waypoint. -/
  waiting : Bool
  /-- Patrols: the seconds waited at the waypoint. -/
  waitElapsed : Float32
deriving DecidableEq

/-- The memory of a node that has not been ticked. -/
def Memory.initial : Memory := ⟨0, none, 0, 0, 0, none, 0, false, 0⟩

/-- The state of a node that has been ticked. -/
structure NodeState where
  /-- The result of the last tick. -/
  status : Status
  /-- The seconds of all ticks. -/
  runningTime : Float32
  memory : Memory
deriving DecidableEq

/-- The state that a first tick starts from. -/
def NodeState.initial : NodeState := ⟨.success, 0, .initial⟩

/-- The states of nodes by name. -/
abbrev Store := Dict NodeState

namespace Store

/-- The state of a node, initial if it has none. -/
def state (s : Store) (id : String) : NodeState := (s.get? id).getD .initial

/-- Changes the state of a node, which has one from then on. -/
def update (s : Store) (id : String) (f : NodeState → NodeState) : Store :=
  s.insert id (f (s.state id))

theorem get?_update (s : Store) (id id' : String) (change : NodeState → NodeState) :
    (s.update id change).get? id' = if id' = id then some (change (s.state id)) else s.get? id' :=
  Dict.get?_insert s id id' _

theorem state_update (s : Store) (id id' : String) (f : NodeState → NodeState) :
    (s.update id f).state id' = if id' = id then f (s.state id) else s.state id' := by
  rw [state, get?_update]
  split <;> rfl

end Store

def Document.natural (n : Nat) : Document := .number (.integer n)

namespace Memory

def document (m : Memory) : Document :=
  .object [
    ("currentIndex", .natural m.currentIndex),
    ("shuffledIndices", m.shuffledIndices.elim .null fun order => .array (order.map .natural)),
    ("iteration", .natural m.iteration.toNat),
    ("lastExecutionTime", .number (.single m.lastExecutionTime)),
    ("elapsed", .number (.single m.elapsed)),
    ("lastAttackTime", m.lastAttackTime.elim .null fun t => .number (.single t)),
    ("waypointIndex", .natural m.waypointIndex),
    ("waiting", .bool m.waiting),
    ("waitElapsed", .number (.single m.waitElapsed))]

def read (d : Document) : Option Memory := do
  let fields ← Fields.of? ["currentIndex", "shuffledIndices", "iteration", "lastExecutionTime",
    "elapsed", "lastAttackTime", "waypointIndex", "waiting", "waitElapsed"] d
  let index := Source.natural? (δ := Document)
  let iteration := fun d => (Source.below? (δ := Document) UInt32.size d).map UInt32.ofNat
  return {
    currentIndex := ← fields.optional "currentIndex" index initial.currentIndex
    shuffledIndices :=
      ← fields.optional "shuffledIndices" (Source.nullable (Source.listOf? index)) none
    iteration := ← fields.optional "iteration" iteration initial.iteration
    lastExecutionTime :=
      ← fields.optional "lastExecutionTime" Source.real? initial.lastExecutionTime
    elapsed := ← fields.optional "elapsed" Source.real? initial.elapsed
    lastAttackTime := ← fields.optional "lastAttackTime" (Source.nullable Source.real?) none
    waypointIndex := ← fields.optional "waypointIndex" index initial.waypointIndex
    waiting := ← fields.optional "waiting" Source.bool? initial.waiting
    waitElapsed := ← fields.optional "waitElapsed" Source.real? initial.waitElapsed }

end Memory

namespace NodeState

def document (s : NodeState) : Document :=
  .object [("status", s.status.document), ("runningTime", .number (.single s.runningTime)),
    ("data", s.memory.document)]

def read (d : Document) : Option NodeState := do
  let fields ← Fields.of? ["status", "runningTime", "data"] d
  return {
    status := ← fields.required "status" Status.read
    runningTime := ← fields.required "runningTime" Source.real?
    memory := ← fields.required "data" Memory.read }

end NodeState

namespace Store

def document (s : Store) : Document :=
  .object (s.entries.map fun (id, state) => (id, state.document))

def read (d : Document) : Option Store := Source.dictOf? NodeState.read d

end Store

end BehaviorTree
