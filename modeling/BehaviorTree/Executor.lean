import BehaviorTree.Tick.Basic
import BehaviorTree.Tree.Codec

/-!
# Executors

An executor ticks one tree frame after frame. It keeps the states of the nodes between ticks,
and the child index until the tree is edited. The host owns the scene: the world and the
blackboard of its ticks.
-/

namespace BehaviorTree

/-- What the host of a tree owns. -/
structure Scene where
  world : World
  blackboard : Blackboard
deriving DecidableEq

/-- A tree in execution. -/
structure Executor where
  tree : Tree
  index : Option Index
  store : Store
  generator : Generator

/-- What ticking a tree once results in. -/
structure Executed where
  status : Status
  executor : Executor
  scene : Scene
  journal : Array Entry

namespace Executor

def ofGenerator (t : Tree) (g : Generator) : Executor := ⟨t, none, ∅, g⟩

/-- The generator of a tree under a seed: trees of different names draw different streams. -/
def seededGenerator (t : Tree) (seed : UInt64) : Generator := ⟨deriveSeed seed (streamOf t.id)⟩

def ofSeed (t : Tree) (seed : UInt64) : Executor := ofGenerator t (seededGenerator t seed)

/-- An executor with a seed, or with the given generator if there is no seed. -/
def create (t : Tree) (seed : Option UInt64) (unseeded : Generator) : Executor :=
  seed.elim (ofGenerator t unseeded) (ofSeed t)

/-- Edits the tree. States of nodes that keep their names are kept. -/
def edit (e : Executor) (change : Tree → Tree) : Executor :=
  { e with tree := change e.tree, index := none }

/-- Puts other states in the place of all states. -/
def restore (e : Executor) (store : Store) : Executor := { e with store := store }

/-- Forgets all states. -/
def reset (e : Executor) : Executor := e.restore ∅

/-- The child index: the one kept, or a new one. -/
def currentIndex (e : Executor) : Index := e.index.getD (.build e.tree)

/-- Ticks the tree once for the named entity. Variables saved with the tree are first added to the
blackboard of the tick, where it has none of that name. A tree whose root is no node fails before
that. -/
def execute (e : Executor) (agent : String) (dt : Float32) (scene : Scene) : Executed :=
  let ix := e.currentIndex
  let e := { e with index := some ix }
  match ix.root with
  | none => ⟨.failure, e, scene, #[]⟩
  | some root =>
    let start : Frame :=
      { world := scene.world
        blackboard := scene.blackboard.mergeMissing e.tree.blackboard
        saved := e.tree.blackboard
        store := e.store
        generator := e.generator
        journal := #[] }
    let (status, f) := tick ix ⟨agent, clampStep dt⟩ (ix.size + 1) root start
    { status := status
      executor := { e with
        tree := { e.tree with blackboard := f.saved }, store := f.store, generator := f.generator }
      scene := ⟨f.world, f.blackboard⟩
      journal := f.journal }

end Executor

def messagesOf (journal : Array Entry) : List Message :=
  journal.toList.filterMap fun
    | .logged message => some message
    | _ => none

end BehaviorTree
