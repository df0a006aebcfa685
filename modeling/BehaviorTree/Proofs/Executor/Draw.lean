import BehaviorTree.Proofs.Executor.Coherence
import BehaviorTree.Proofs.Random.Streams
import BehaviorTree.Proofs.Tick.Draw

/-!
# Words drawn in runs

The generator of an executor moves in its ticks only, by a step for each word that their visits draw. So
its state tells how many words have been drawn since the executor was seeded, whatever the host has done.
-/

namespace BehaviorTree

open Generator (advance)

namespace Executor

/-- How many words the visits of one tick of a tree draw. -/
def words (e : Executor) (i : Input) : Nat :=
  ((e.visits e.currentIndex i).map e.currentIndex.wordsOf).sum

def wordsIn (e : Executor) (scene : Scene) : Operation → Nat
  | .execute turn => e.words ⟨turn.agent, turn.dt, turn.prepare scene⟩
  | .edit _ | .reset | .restore _ => 0

def wordsOver : Executor → Scene → List Operation → Nat
  | _, _, [] => 0
  | e, scene, op :: rest =>
    e.wordsIn scene op + wordsOver (e.perform scene op).1 (e.perform scene op).2 rest

theorem generator_execute (e : Executor) (i : Input) :
    (e.execute i.agent i.dt i.scene).executor.generator = advance^[e.words i] e.generator := by
  rw [words, visits]
  cases hroot : e.currentIndex.root with
  | none =>
    rw [execute_of_rootless hroot]
    exact rfl
  | some root =>
    rw [execute_of_root hroot]
    exact Index.generator_tick e.currentIndex _ _ root (e.start i.scene)

/-- An operation takes as many steps of the generator as it draws words. -/
theorem generator_perform (e : Executor) (scene : Scene) (op : Operation) :
    (e.perform scene op).1.generator = advance^[e.wordsIn scene op] e.generator := by
  cases op with
  | execute turn => exact e.generator_execute ⟨turn.agent, turn.dt, turn.prepare scene⟩
  | edit _ | reset | restore _ => exact rfl

theorem generator_operated (e : Executor) (scene : Scene) (ops : List Operation) :
    (e.operated scene ops).generator = advance^[e.wordsOver scene ops] e.generator := by
  induction ops generalizing e scene with
  | nil => exact rfl
  | cons op rest ih =>
    have hrest := ih (e.perform scene op).1 (e.perform scene op).2
    rw [generator_perform, ← Function.iterate_add_apply, Nat.add_comm] at hrest
    exact hrest

/-- In a visit a node draws first of all: a random condition one word, a shuffled composite that has no
order of its children one less than it has children, and any other node none. After that it hands the
generator on as it is. So a tick of a tree takes one step of the generator for each word that its visits
draw, and nothing else that a host does with an executor takes any. -/
theorem draws_accounted :
    (∀ (ix : Index) m room p f,
      let v := ix.visit m room p f
      HandsOn (advance^[ix.wordsOf v] f.generator) v.calls v.after.generator) ∧
    (∀ e : Executor, e.Reachable → ∀ i : Input,
      let ix := Index.build e.tree
      let vs := e.visits ix i
      let done := e.execute i.agent i.dt i.scene
      begun done.journal = vs.map (fun v => (ix.name v.node, v.depth)) ∧
        done.executor.generator = advance^[(vs.map ix.wordsOf).sum] e.generator) ∧
    (∀ e : Executor, e.reset.generator = e.generator ∧
      (∀ change, (e.edit change).generator = e.generator) ∧
        ∀ store, (e.restore store).generator = e.generator) ∧
    ∀ (t : Tree) seed scene ops, let e := ofSeed t seed
      (e.operated scene ops).generator.state =
        deriveSeed seed (streamOf t.id) + .ofNat (e.wordsOver scene ops) * stride := by
  refine ⟨Index.handsOn_visit, fun e he i => ?_, fun e => ⟨rfl, fun _ => rfl, fun _ => rfl⟩,
    fun t seed scene ops => ?_⟩
  · have hbegun := begun_execute e i
    have hgenerator := generator_execute e i
    rw [words] at hgenerator
    rw [he.currentIndex_eq] at hbegun hgenerator
    exact ⟨hbegun, hgenerator⟩
  · intro e
    rw [generator_operated, Generator.state_iterate_advance]
    exact rfl

theorem draws_accounted_shuffled :
    let t := (((Tree.single "random_selector" ["a", "b", "c"]).addNode ⟨"a", "random", ∅⟩).addNode
      ⟨"b", "wait", ∅⟩).addNode ⟨"c", "never", ∅⟩
    let i : Input := ⟨"actor", 0.25, World.empty.insert (.create "actor" ⟨0, 0⟩), ∅⟩
    let e := ofSeed t 4
    let vs := e.visits (Index.build t) i
    e.Reachable ∧
      vs.map (fun v => ((Index.build t).name v.node, (Index.build t).wordsOf v)) =
        [("root", 2), ("c", 0), ("a", 1), ("b", 0)] ∧
      (e.execute i.agent i.dt i.scene).executor.generator = advance^[3] e.generator := by
  intro t i e vs
  have he : e.Reachable := .new t _
  have hsorted : Connection.sorted t.connections = t.connections := by
    simp [t, Tree.single, Tree.addNode, Connection.sorted, List.mergeSort]
  -- The sort does not evaluate, so the sorted connections are put into the child index first.
  have hwords : vs.map (fun v => ((Index.build t).name v.node, (Index.build t).wordsOf v)) =
      [("root", 2), ("c", 0), ("a", 1), ("b", 0)] := by
    simp only [vs]
    delta Index.build Index.links
    dsimp only
    rw [hsorted]
    decide +kernel
  have hsum : (vs.map (Index.build t).wordsOf).sum = 3 := by
    have hcounts := congrArg (fun words => (words.map Prod.snd).sum) hwords
    rwa [List.map_map] at hcounts
  obtain ⟨-, hticks, -, -⟩ := draws_accounted
  have htick := (hticks e he i).2
  rw [← hsum]
  exact ⟨he, hwords, htick⟩

end Executor

end BehaviorTree
