import BehaviorTree.Random
import BehaviorTree.Store
import BehaviorTree.Blackboard
import BehaviorTree.World.Basic
import BehaviorTree.Tree.Settings

/-!
# Frames

All that a tick reads and writes: the world, the blackboard of the tick, the blackboard saved
with the tree, the states of the nodes, the generator, and a journal of what went on.
-/

namespace BehaviorTree

/-- A message from a tree to the log of its host. -/
structure Message where
  level : String
  agent : String
  node : String
  text : String
deriving DecidableEq

/-- What a watcher of a tick sees. -/
inductive Entry where
  /-- The tick of a node began, so many ticks of other nodes deep. -/
  | began (id : String) (depth : Nat)
  /-- The tick of a node ended. -/
  | ended (id : String) (status : Status)
  /-- A node was not ticked, because more nodes were being ticked than there are: their
  connections form a cycle. -/
  | tooDeep (id : String)
  /-- An order of so many children was drawn for a node. -/
  | shuffled (id : String) (count : Nat)
  /-- A message was sent to the log. -/
  | logged (message : Message)
deriving DecidableEq

/-- What stays the same during a tick: the name of the acting entity, and the seconds since the
last tick. -/
structure Moment where
  agent : String
  delta : Float32

/-- The seconds that a time step counts for: none if it is negative or undefined. -/
def clampStep (dt : Float32) : Float32 := if 0 < dt then dt else 0

/-- All that a tick changes. -/
structure Frame where
  world : World
  blackboard : Blackboard
  saved : Blackboard
  store : Store
  generator : Generator
  journal : Array Entry

/-- Ticks one of `n` nodes. -/
abbrev Ticker (n : Nat) := Fin n → Frame → Status × Frame

namespace Frame

def note (f : Frame) (e : Entry) : Frame := { f with journal := f.journal.push e }

def state (f : Frame) (id : String) : NodeState := f.store.state id

def memory (f : Frame) (id : String) : Memory := (f.state id).memory

def updateState (f : Frame) (id : String) (change : NodeState → NodeState) : Frame :=
  { f with store := f.store.update id change }

def updateMemory (f : Frame) (id : String) (change : Memory → Memory) : Frame :=
  f.updateState id fun s => { s with memory := change s.memory }

def updateEntity (f : Frame) (name : String) (p : Patch) : Frame :=
  { f with world := f.world.update name p }

/-- Appends an event to the log of the world. -/
def emit (f : Frame) (name : String) (payload : Json) : Frame :=
  { f with world := f.world.emit name payload }

def setVariable (f : Frame) (name : String) (v : Json) : Frame :=
  { f with blackboard := f.blackboard.insert name v }

def saveVariable (f : Frame) (name : String) (v : Json) : Frame :=
  { f with saved := f.saved.insert name v }

end Frame

/-- The variables that hold the velocity of the acting entity. -/
def velocityX : String := "velocityX"

@[inherit_doc velocityX]
def velocityY : String := "velocityY"

/-- Publishes the velocity of the acting entity. -/
def Frame.setVelocity (f : Frame) (velocity : Vec2) : Frame :=
  (f.setVariable velocityX (.single velocity.x)).setVariable velocityY (.single velocity.y)

end BehaviorTree
