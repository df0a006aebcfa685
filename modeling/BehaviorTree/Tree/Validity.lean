import BehaviorTree.Tree.Basic

/-!
# Valid trees

The structural check of a tree. Faults are looked for in a fixed order, and the first one found
is reported: repeated names and unknown types node by node, then the root, then connections
without a node at an end, then cycles, then numbers of children.
-/

namespace BehaviorTree

/-- Why a tree is not valid. -/
inductive Tree.Fault where
  | missingRoot
  | unresolvedRoot (id : String)
  | duplicateNode (id : String)
  | unknownNodeType (id type : String)
  | danglingConnection (parent child : String)
  | cycle (id : String)
  | childCount (id type : String) (count min : Nat) (max : Option Nat)
deriving DecidableEq

namespace Tree

def Fault.message : Fault → String
  | missingRoot => "tree has no root node"
  | unresolvedRoot id => s!"root node `{id}` does not exist"
  | duplicateNode id => s!"duplicate node id `{id}`"
  | unknownNodeType id type => s!"node `{id}` has unknown type `{type}`"
  | danglingConnection parent child =>
    s!"connection `{parent}` -> `{child}` references a missing node"
  | cycle id => s!"cycle detected through node `{id}`"
  | childCount id type count min max =>
    let most := max.elim "unbounded" toString
    s!"node `{id}` ({type}) has {count} children, expected {min}..={most}"

/-- The ends of the connections that start at a node, in the order of the connections. -/
def successors (t : Tree) (id : String) : List String :=
  (t.connections.filter (·.parent = id)).map (·.child)

/-- The first node whose name occurs before it or whose type is unknown. -/
def nodeFault? (seen : List String) : List Node → Option Fault
  | [] => none
  | n :: rest =>
    if n.id ∈ seen then some (.duplicateNode n.id)
    else if (Catalog.lookup n.type).isNone then some (.unknownNodeType n.id n.type)
    else nodeFault? (n.id :: seen) rest

/-- A root that is missing or names no node. -/
def rootFault? (t : Tree) : Option Fault :=
  match t.root with
  | none => some .missingRoot
  | some id => if (t.nodes.map (·.id)).contains id then none else some (.unresolvedRoot id)

/-- The first connection with an end that names no node. -/
def connectionFault? (t : Tree) : Option Fault :=
  let known (id : String) : Bool := (t.nodes.map (·.id)).contains id
  (t.connections.find? fun c => !(known c.parent && known c.child)).map fun c =>
    .danglingConnection c.parent c.child

/-- Searches depth first from a node, knowing the nodes that the search is inside of, innermost
first, and the nodes that it has finished. The search fails with the first node that it meets
while inside it. A path through the connections that meets no node twice has at most one node
more than there are connections, and that bounds the fuel. -/
def visit (t : Tree) : (fuel : Nat) → (path finished : List String) → String →
    Except String (List String)
  | 0, _, finished, _ => .ok finished
  | fuel + 1, path, finished, id =>
    if id ∈ path then .error id
    else if id ∈ finished then .ok finished
    else
      match (t.successors id).foldlM (visit t fuel (id :: path)) finished with
      | .error found => .error found
      | .ok finished => .ok (id :: finished)

/-- A node on a cycle of connections: the first one that a search from the nodes in their order
meets while inside it. -/
def cycleNode? (t : Tree) : Option String :=
  match (t.nodes.map (·.id)).foldlM (visit t (t.connections.length + 2) []) [] with
  | .error id => some id
  | .ok _ => none

/-- The first node whose type does not take as many children as there are connections from it. -/
def childCountFault? (t : Tree) : List Node → Option Fault
  | [] => none
  | n :: rest =>
    match Catalog.lookup n.type with
    | none => childCountFault? t rest
    | some d =>
      let count := (t.successors n.id).length
      if d.category.accepts count then childCountFault? t rest
      else some (.childCount n.id n.type count d.category.minChildren d.category.maxChildren)

def fault? (t : Tree) : Option Fault :=
  nodeFault? [] t.nodes <|> rootFault? t <|> connectionFault? t <|>
    t.cycleNode?.map .cycle <|> childCountFault? t t.nodes

def validate (t : Tree) : Except Fault Unit :=
  match t.fault? with
  | some fault => .error fault
  | none => .ok ()

end Tree

end BehaviorTree
