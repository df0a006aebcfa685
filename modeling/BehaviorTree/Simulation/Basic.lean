import BehaviorTree.Executor
import BehaviorTree.Simulation.Configuration

/-!
# Simulations

A host that ticks one tree in one world, in fixed steps. It takes the events of the world after
every tick and keeps them with the number of the tick. The blackboard of the ticks starts empty.
-/

namespace BehaviorTree

/-- An event and the tick in which it happened. -/
structure TimedEvent where
  tick : Nat
  event : Event
deriving DecidableEq

/-- A tree ticked in a world. -/
structure Simulation where
  executor : Executor
  scene : Scene
  agent : String
  /-- The number of the next tick. -/
  tick : Nat
  /-- The events of all ticks so far, oldest first. -/
  events : List TimedEvent

/-- What a simulation came to. -/
structure Summary where
  treeId : String
  agent : String
  status : Status
  ticks : Nat
  events : List TimedEvent
  entities : List Entity
  blackboard : Blackboard
deriving DecidableEq

namespace Simulation

/-- Why there is no simulation. -/
inductive Refusal where
  | noEntities
deriving DecidableEq

def Refusal.message : Refusal → String
  | noEntities => "world has no entities to act as the agent"

/-- The acting entity of a world under a configuration. -/
def agentOf (w : World) (c : Configuration) : Except Refusal String :=
  match c.agent, w.list with
  | some agent, _ => .ok agent
  | none, first :: _ => .ok first.name
  | none, [] => .error .noEntities

/-- A simulation before its first tick. Without a seed the tree draws from the given generator. -/
def create (t : Tree) (w : World) (c : Configuration) (unseeded : Generator) :
    Except Refusal Simulation :=
  (agentOf w c).map fun agent => ⟨.create t c.seed unseeded, ⟨w, ∅⟩, agent, 0, []⟩

def step (s : Simulation) (dt : Float32) : Status × Simulation :=
  let done := s.executor.execute s.agent dt s.scene
  let events := done.scene.world.events.map (TimedEvent.mk s.tick)
  (done.status,
    { s with
      executor := done.executor
      scene := { done.scene with world := done.scene.world.clearEvents }
      tick := s.tick + 1
      events := s.events ++ events })

/-- Ticks a number of times, or up to the first result that ends the run if that is asked for. The
status is that of the last tick, or the given one if there is none. -/
def stepMany (dt : Float32) (untilDone : Bool) : Nat → Status → Simulation → Status × Simulation
  | 0, status, s => (status, s)
  | count + 1, _, s =>
    let (status, s) := s.step dt
    if untilDone && status.isDone then (status, s) else stepMany dt untilDone count status s

def summary (s : Simulation) (status : Status) : Summary where
  treeId := s.executor.tree.id
  agent := s.agent
  status := status
  ticks := s.tick
  events := s.events
  entities := s.scene.world.list
  blackboard := s.executor.tree.blackboard

/-- Runs up to the number of ticks of a configuration. -/
def run (s : Simulation) (c : Configuration) : Summary :=
  let (status, s) := stepMany c.deltaTime c.untilDone (c.ticks - s.tick) .running s
  s.summary status

end Simulation

namespace TimedEvent

def document (e : TimedEvent) : Document :=
  .object [("tick", .natural e.tick), ("name", .string e.event.name),
    ("payload", e.event.payload.document)]

end TimedEvent

namespace Summary

def document (s : Summary) : Document :=
  .object [
    ("treeId", .string s.treeId),
    ("agent", .string s.agent),
    ("status", s.status.document),
    ("ticks", .natural s.ticks),
    ("events", .array (s.events.map TimedEvent.document)),
    ("entities", .array (s.entities.map Entity.document)),
    ("blackboard", s.blackboard.document)]

end Summary

end BehaviorTree
