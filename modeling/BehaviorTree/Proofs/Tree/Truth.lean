import BehaviorTree.Proofs.Tree.Reach
import BehaviorTree.Tick.Condition

/-!
# Trees as formulas

A tree that only looks, and has no memory, no time and no chance in it, is a formula: each node has a
truth value in a scene, which is that of a connective on those of its children.
-/

namespace BehaviorTree

/-- What conditions look at. -/
structure View where
  agent : String
  world : World
  blackboard : Blackboard

def Kind.isLogical : Kind → Bool
  | .composite _ => true
  | .decorator d => d ∈ [.inverter, .succeeder, .failer]
  | .action _ => false
  | .condition c => c ≠ .random

/-- Whether a node is a connective or a condition; a node of an unknown type is one that never
holds. -/
def Node.isLogical (n : Node) : Bool := n.definition?.all (·.kind.isLogical)

def Composite.truth (c : Composite) (s : Settings) (children : List Bool) : Bool :=
  match c with
  | sequence | randomSequence => children.all id
  | selector | randomSelector => children.any id
  | parallel =>
    if s.text "failurePolicy" = "all" then children.isEmpty || children.any id else children.all id

def Decorator.truth (d : Decorator) (children : List Bool) : Bool :=
  match d with
  | inverter => children.head?.any (!·)
  | succeeder => true
  | _ => false

def Settings.truth (s : Settings) (view : View) (children : List Bool) : Bool :=
  match s.definition.kind with
  | .composite c => c.truth s children
  | .decorator d => d.truth children
  | .action _ => false
  | .condition c => c.holds view.agent s view.world view.blackboard

/-- The truth value of a node whose children have truth values. -/
def Node.truth (n : Node) (view : View) (children : List Bool) : Bool :=
  n.definition?.any fun d => Settings.truth ⟨n, d⟩ view children

namespace Tree

/-- The truth value that a name stands for in a tree. Only names that lead to no cycle have one. -/
inductive Denotes (t : Tree) (view : View) : String → Bool → Prop where
  | node {id : String} {n : Node} (hn : t.node? id = some n) (value : String → Bool)
      (h : ∀ child ∈ t.childrenOf id, Denotes t view child.id (value child.id)) :
      Denotes t view id (n.truth view ((t.childrenOf id).map fun child => value child.id))

open Index in
/-- The truth value at a position that the root leads to. -/
theorem denotes_name {t : Tree} {view : View} {p : Fin (build t).size}
    (hp : (build t).Reachable p) {v : Fin (build t).size → Bool}
    (hv : ∀ c ∈ ((build t).slot p).children, t.Denotes view ((build t).name c) (v c)) :
    t.Denotes view ((build t).name p)
      (((build t).slot p).node.truth view (((build t).slot p).children.map v)) := by
  have hchildren := map_node_children (position?_name_of_reachable hp)
  let value (id : String) : Bool := (position? t.nodes id).any v
  have hvalue : ∀ c ∈ ((build t).slot p).children, value ((build t).name c) = v c := by
    intro c hc
    simp only [value, position?_of_mem_children hc, Option.any_some]
  have hvalues : (t.childrenOf ((build t).name p)).map (fun child => value child.id) =
      ((build t).slot p).children.map v := by
    rw [← hchildren, List.map_map]
    exact List.map_congr_left hvalue
  rw [← hvalues]
  apply Denotes.node (node?_name hp)
  intro child hmem
  rw [← hchildren] at hmem
  obtain ⟨c, hc, rfl⟩ := List.mem_map.mp hmem
  have hdenotes := hv c hc
  rwa [← hvalue c hc] at hdenotes

end Tree

end BehaviorTree
