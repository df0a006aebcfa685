import BehaviorTree.Tree.Basic

/-!
# The child index

A tree resolved for ticking. Every node has a position, a name stands for the first node that
bears it, and each position lists the positions of its children. Connections are sorted by order
number once for the whole tree.
-/

namespace BehaviorTree

/-- A node resolved among `size` nodes: its definition, and the positions of its children. -/
structure Slot (size : Nat) where
  node : Node
  definition : Option Definition
  children : List (Fin size)

/-- A tree resolved for ticking. -/
structure Index where
  size : Nat
  slots : Vector (Slot size) size
  root : Option (Fin size)

namespace Index

def slot (ix : Index) (p : Fin ix.size) : Slot ix.size := ix.slots[p]

/-- The position of the first node of a name. -/
def position? (nodes : List Node) (id : String) : Option (Fin nodes.length) :=
  nodes.findFinIdx? (·.id == id)

/-- The positions at both ends of a connection. -/
def link? (nodes : List Node) (c : Connection) : Option (Fin nodes.length × Fin nodes.length) :=
  match position? nodes c.parent, position? nodes c.child with
  | some parent, some child => some (parent, child)
  | _, _ => none

/-- The connections between nodes, in the order in which children are ticked. -/
def links (t : Tree) : List (Fin t.nodes.length × Fin t.nodes.length) :=
  (Connection.sorted t.connections).filterMap (link? t.nodes)

/-- The positions that the links from a position lead to. -/
def childrenAt {n : Nat} (links : List (Fin n × Fin n)) (p : Fin n) : List (Fin n) :=
  (links.filter (·.1 = p)).map (·.2)

/-- Resolves a tree. -/
def build (t : Tree) : Index :=
  let links := links t
  { size := t.nodes.length
    slots := .ofFn fun p => ⟨t.nodes[p], t.nodes[p].definition?, childrenAt links p⟩
    root := t.root.bind (position? t.nodes) }

end Index

end BehaviorTree
