import BehaviorTree.Proofs.Tick.Effect
import BehaviorTree.Executor

/-!
# Runs of executors

What a host can do with an executor, and what stays true of it meanwhile: the child index that it
keeps is always that of its tree.
-/

namespace BehaviorTree

structure Input where
  agent : String
  dt : Float32
  scene : Scene

/-- The tree of a single node of a type, with connections to some names. -/
def Tree.single (type : String) (children : List String) : Tree where
  id := ""
  name := ""
  root := some "root"
  nodes := [⟨"root", type, ∅⟩]
  connections := children.map (⟨"root", ·, 0⟩)
  blackboard := ∅

namespace Executor

/-- The frame in which the tick of a tree starts. -/
def start (e : Executor) (scene : Scene) : Frame :=
  { world := scene.world
    blackboard := scene.blackboard.mergeMissing e.tree.blackboard
    saved := e.tree.blackboard
    store := e.store
    generator := e.generator
    journal := #[] }

def resume (e : Executor) (f : Frame) : Executor :=
  { tree := { e.tree with blackboard := f.saved }
    index := some e.currentIndex
    store := f.store
    generator := f.generator }

/-- The executors that a host can come by. States may be put back into any executor that were
taken from any other. -/
inductive Reachable : Executor → Prop where
  | new (t : Tree) (g : Generator) : Reachable (ofGenerator t g)
  | execute {e : Executor} (agent : String) (dt : Float32) (scene : Scene) :
      Reachable e → Reachable (e.execute agent dt scene).executor
  | edit {e : Executor} (change : Tree → Tree) : Reachable e → Reachable (e.edit change)
  | reset {e : Executor} : Reachable e → Reachable e.reset
  | restore {e other : Executor} :
      Reachable e → Reachable other → Reachable (e.restore other.store)

def after (e : Executor) (inputs : List Input) : Executor :=
  inputs.foldl (fun e i => (e.execute i.agent i.dt i.scene).executor) e

variable {e : Executor} {agent : String} {dt : Float32} {scene : Scene}

theorem execute_of_rootless (h : e.currentIndex.root = none) :
    e.execute agent dt scene =
      ⟨.failure, { e with index := some e.currentIndex }, scene, #[]⟩ := by
  simp only [execute, h]

theorem execute_of_root {root : Fin e.currentIndex.size} (h : e.currentIndex.root = some root) :
    e.execute agent dt scene =
      let done := tick e.currentIndex ⟨agent, clampStep dt⟩ (e.currentIndex.size + 1) root
        (e.start scene)
      ⟨done.1, e.resume done.2, ⟨done.2.world, done.2.blackboard⟩, done.2.journal⟩ := by
  simp only [execute, h]
  rfl

theorem execute_of_index {ix : Index} (hix : e.currentIndex = ix) {root : Fin ix.size}
    (h : ix.root = some root) :
    e.execute agent dt scene =
      let done := tick ix ⟨agent, clampStep dt⟩ (ix.size + 1) root (e.start scene)
      ⟨done.1, e.resume done.2, ⟨done.2.world, done.2.blackboard⟩, done.2.journal⟩ := by
  subst hix
  exact execute_of_root h

theorem tree_execute (e : Executor) (agent : String) (dt : Float32) (scene : Scene) :
    ∃ b, (e.execute agent dt scene).executor.tree = { e.tree with blackboard := b } := by
  cases h : e.currentIndex.root with
  | none => exact ⟨e.tree.blackboard, by rw [execute_of_rootless h]⟩
  | some root =>
    rw [execute_of_root h]
    exact ⟨_, rfl⟩

theorem currentIndex_execute (e : Executor) (agent : String) (dt : Float32) (scene : Scene) :
    (e.execute agent dt scene).executor.currentIndex = e.currentIndex := by
  cases h : e.currentIndex.root with
  | none =>
    rw [execute_of_rootless h]
    rfl
  | some root =>
    rw [execute_of_root h]
    rfl

theorem currentIndex_execute_eq_build (h : e.currentIndex = .build e.tree) (agent : String)
    (dt : Float32) (scene : Scene) : (e.execute agent dt scene).executor.currentIndex =
      .build (e.execute agent dt scene).executor.tree := by
  obtain ⟨b, hb⟩ := tree_execute e agent dt scene
  rw [currentIndex_execute, h, hb]
  rfl

/-- The child index of an executor is never out of date. -/
theorem Reachable.currentIndex_eq (h : e.Reachable) : e.currentIndex = .build e.tree := by
  induction h with
  | new t g => rfl
  | execute agent dt scene _ ih => exact currentIndex_execute_eq_build ih agent dt scene
  | edit change _ _ => rfl
  | reset _ ih => exact ih
  | restore _ _ ih _ => exact ih

theorem Reachable.after (h : e.Reachable) (inputs : List Input) : (e.after inputs).Reachable := by
  induction inputs generalizing e with
  | nil => exact h
  | cons i rest ih => exact ih (h.execute i.agent i.dt i.scene)

theorem tree_after (e : Executor) (inputs : List Input) :
    ∃ b, (e.after inputs).tree = { e.tree with blackboard := b } := by
  induction inputs generalizing e with
  | nil => exact ⟨e.tree.blackboard, rfl⟩
  | cons i rest ih =>
    obtain ⟨b, hb⟩ := ih (e.execute i.agent i.dt i.scene).executor
    obtain ⟨b', hb'⟩ := tree_execute e i.agent i.dt i.scene
    exact ⟨b, hb.trans (by rw [hb'])⟩

end Executor

end BehaviorTree
