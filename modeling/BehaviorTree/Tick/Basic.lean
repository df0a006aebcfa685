import BehaviorTree.Tick.Action
import BehaviorTree.Tick.Composite
import BehaviorTree.Tick.Condition
import BehaviorTree.Tick.Decorator
import BehaviorTree.Tree.Index

/-!
# Ticking

The tick of a node, from the top down. The recursion is bounded by the number of nodes: a path
that is longer passes some node twice, so the connections have a cycle, and the node at its end
fails without being ticked.
-/

namespace BehaviorTree

/-- Does what a node of a known type does. An action whose acting entity is not in the world
fails before it looks at anything. -/
def dispatch {n : Nat} (m : Moment) (s : Settings) (children : List (Fin n)) (tick : Ticker n)
    (f : Frame) : Status × Frame :=
  match s.definition.kind with
  | .composite c => c.run s children tick f
  | .decorator d => d.run m s children tick f
  | .action a =>
    match f.world.get? m.agent with
    | none => (.failure, f)
    | some me => a.run m s me f
  | .condition c => c.run m s f

/-- Ticks the node at a position, where `room` more nodes may be ticked within one another: adds
the time step to its running time, does what its type does, and records the result. A node of
an unknown type fails. -/
def tick (ix : Index) (m : Moment) : (room : Nat) → Ticker ix.size
  | 0, p, f => (.failure, f.note (.tooDeep (ix.slot p).node.id))
  | room + 1, p, f =>
    let slot := ix.slot p
    let id := slot.node.id
    let f := f.note (.began id (ix.size - room))
    let f := f.updateState id fun s => { s with runningTime := s.runningTime + m.delta }
    let (status, f) : Status × Frame := match slot.definition with
      | none => (.failure, f)
      | some d => dispatch m ⟨slot.node, d⟩ slot.children (tick ix m room) f
    (status, (f.updateState id fun s => { s with status := status }).note (.ended id status))

end BehaviorTree
