import BehaviorTree.Blackboard
import BehaviorTree.Catalog

/-!
# Trees

A tree is flat data: its nodes, the connections from parents to children, the name of the root
and a blackboard that is saved with it. The children of a node are what its connections lead to,
by increasing order number and, for equal numbers, in the order of the connections. Ends that
name no node are passed over.
-/

namespace BehaviorTree

/-- A node: its name, the name of its type, and the parameters that it sets. -/
structure Node where
  id : String
  type : String
  data : Dict Json
deriving DecidableEq

/-- The place of a child among the children of its parent. -/
structure Connection where
  parent : String
  child : String
  order : Int32
deriving DecidableEq

/-- A behavior tree. -/
structure Tree where
  id : String
  name : String
  root : Option String
  nodes : List Node
  connections : List Connection
  blackboard : Blackboard
deriving DecidableEq

namespace Node

/-- A node that sets every parameter of its type to the default; none for an unknown type. -/
def create (id type : String) : Node where
  id := id
  type := type
  data := .ofList <| match Catalog.lookup type with
    | some d => d.parameters.map fun p => (p.name, p.default)
    | none => []

def set (n : Node) (name : String) (v : Json) : Node := { n with data := n.data.insert name v }

def definition? (n : Node) : Option Definition := Catalog.lookup n.type

end Node

/-- The order number behind that of a connection, which overflows for the greatest. -/
def Connection.next? (c : Connection) : Option Int32 :=
  if c.order = .maxValue then none else some (c.order + 1)

/-- The connections by increasing order number; those of one number keep their places. -/
def Connection.sorted (cs : List Connection) : List Connection :=
  cs.mergeSort (fun a b => a.order ≤ b.order)

namespace Tree

def create (id name : String) : Tree := ⟨id, name, none, [], [], ∅⟩

/-- Adds a node; the first one becomes the root of a tree that has none. -/
def addNode (t : Tree) (n : Node) : Tree :=
  { t with root := t.root <|> some n.id, nodes := t.nodes ++ [n] }

def setRoot (t : Tree) (id : String) : Tree := { t with root := some id }

/-- The order number behind those of all children of a parent; zero for the first child. -/
def nextOrder? (t : Tree) (parent : String) : Option Int32 := do
  match ← (t.connections.filter (·.parent = parent)).mapM (·.next?) with
  | [] => return 0
  | first :: more => return more.foldl max first

def connectOrdered (t : Tree) (parent child : String) (order : Int32) : Tree :=
  { t with connections := t.connections ++ [⟨parent, child, order⟩] }

/-- Connects a child behind the other children of its parent. The call breaks off at a child whose
order number has no successor. -/
def connect? (t : Tree) (parent child : String) : Option Tree :=
  (t.nextOrder? parent).map (t.connectOrdered parent child)

def node? (t : Tree) (id : String) : Option Node := t.nodes.find? (·.id == id)

def modifyNode (t : Tree) (id : String) (f : Node → Node) : Tree :=
  { t with nodes := modifyFirst t.nodes }
where
  modifyFirst : List Node → List Node
    | [] => []
    | n :: rest => if n.id = id then f n :: rest else n :: modifyFirst rest

def rootNode? (t : Tree) : Option Node := t.root.bind t.node?

/-- The children of a parent in their order. -/
def childrenOf (t : Tree) (parent : String) : List Node :=
  (Connection.sorted (t.connections.filter (·.parent = parent))).filterMap (t.node? ·.child)

end Tree

end BehaviorTree
