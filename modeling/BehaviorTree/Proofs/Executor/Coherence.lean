import BehaviorTree.Proofs.Executor.Play

/-!
# Coherence of the child index

Whatever a host does with an executor, the child index that it keeps is that of its tree. So a host
cannot tell an executor from one that resolves its tree before every tick, nor one that was reset
from a new one.
-/

namespace BehaviorTree

/-- What a host does with an executor, which it ticks in one scene. -/
inductive Operation where
  | execute (turn : Turn)
  | edit (change : Tree → Tree)
  | reset
  | restore (store : Store)

namespace Executor

def perform (e : Executor) (scene : Scene) : Operation → Executor × Scene
  | .execute turn =>
    let done := e.execute turn.agent turn.dt (turn.prepare scene)
    (done.executor, done.scene)
  | .edit change => (e.edit change, scene)
  | .reset => (e.reset, scene)
  | .restore store => (e.restore store, scene)

/-- What the ticks among some operations result in. -/
def results : Executor → Scene → List Operation → List Executed
  | _, _, [] => []
  | e, scene, op :: rest =>
    let more := results (e.perform scene op).1 (e.perform scene op).2 rest
    match op with
    | .execute turn => e.execute turn.agent turn.dt (turn.prepare scene) :: more
    | .edit _ | .reset | .restore _ => more

def operated (e : Executor) (scene : Scene) (ops : List Operation) : Executor :=
  (ops.foldl (fun s op => s.1.perform s.2 op) (e, scene)).1

/-- The executor with the child index of its tree resolved anew. -/
def rebuilt (e : Executor) : Executor := { e with index := some (.build e.tree) }

/-- Whether the child index that an executor ticks with is that of its tree. -/
def Coherent (e : Executor) : Prop := e.currentIndex = .build e.tree

/-- Whether executors differ only in whether they keep the child index that they tick with. -/
structure Interchangeable (e e' : Executor) : Prop where
  tree : e.tree = e'.tree
  index : e.currentIndex = e'.currentIndex
  store : e.store = e'.store
  generator : e.generator = e'.generator

variable {e e' : Executor}

theorem Coherent.perform (h : e.Coherent) (scene : Scene) (op : Operation) :
    (e.perform scene op).1.Coherent := by
  cases op with
  | execute turn => exact currentIndex_execute_eq_build h turn.agent turn.dt (turn.prepare scene)
  | edit change => rfl
  | reset => exact h
  | restore store => exact h

theorem Coherent.operated (h : e.Coherent) (scene : Scene) (ops : List Operation) :
    (e.operated scene ops).Coherent := by
  induction ops generalizing e scene with
  | nil => exact h
  | cons op rest ih => exact ih (h.perform scene op) _

theorem Interchangeable.execute (h : e.Interchangeable e') (agent : String) (dt : Float32)
    (scene : Scene) : e.execute agent dt scene = e'.execute agent dt scene := by
  have hkeep : ∀ e : Executor,
      e.execute agent dt scene = { e with index := some e.currentIndex }.execute agent dt scene :=
    fun _ => rfl
  rw [hkeep e, hkeep e', h.tree, h.index, h.store, h.generator]

/-- Nothing that a host does with interchangeable executors tells them apart. -/
theorem Interchangeable.results (h : e.Interchangeable e') (scene : Scene) (ops : List Operation) :
    e.results scene ops = e'.results scene ops := by
  induction ops generalizing e e' scene with
  | nil => rfl
  | cons op rest ih =>
    cases op with
    | execute turn =>
      have hdone := h.execute turn.agent turn.dt (turn.prepare scene)
      simp only [Executor.results, Executor.perform, hdone]
    | edit change =>
      have hnext : (e.edit change).Interchangeable (e'.edit change) :=
        { tree := congrArg change h.tree
          index := congrArg (fun t => Index.build (change t)) h.tree
          store := h.store
          generator := h.generator }
      exact ih hnext scene
    | reset =>
      have hnext : e.reset.Interchangeable e'.reset := ⟨h.tree, h.index, rfl, h.generator⟩
      exact ih hnext scene
    | restore store =>
      have hnext : (e.restore store).Interchangeable (e'.restore store) :=
        ⟨h.tree, h.index, rfl, h.generator⟩
      exact ih hnext scene

theorem Coherent.interchangeable_edit (h : e.Coherent) : (e.edit id).Interchangeable e :=
  ⟨rfl, h.symm, rfl, rfl⟩

theorem Coherent.interchangeable_reset (h : e.Coherent) :
    e.reset.Interchangeable (ofGenerator e.tree e.generator) :=
  ⟨rfl, h, rfl, rfl⟩

/-- Resolving the tree before every operation changes nothing. -/
theorem Coherent.results_edited (h : e.Coherent) (scene : Scene) (ops : List Operation) :
    e.results scene (ops.flatMap fun op => [.edit id, op]) = e.results scene ops := by
  induction ops generalizing e scene with
  | nil => rfl
  | cons op rest ih =>
    have hfirst := h.interchangeable_edit.results scene (op :: rest.flatMap fun op => [.edit id, op])
    refine hfirst.trans ?_
    cases op with
    | execute turn =>
      exact congrArg (List.cons _) (ih (h.perform scene (.execute turn)) _)
    | edit change => exact ih (h.perform scene (.edit change)) _
    | reset => exact ih (h.perform scene .reset) _
    | restore store => exact ih (h.perform scene (.restore store)) _

/-- After any operations, each tick results in what it would with the child index resolved anew, and
so do all operations that follow. A reset executor goes on as a new one of its tree that has its
generator. -/
theorem execute_rebuilt (t : Tree) (g : Generator) (scene : Scene) (ops : List Operation) :
    let e := (ofGenerator t g).operated scene ops
    (∀ agent dt scene, e.execute agent dt scene = e.rebuilt.execute agent dt scene) ∧
    (∀ scene more,
      e.results scene (more.flatMap fun op => [.edit id, op]) = e.results scene more) ∧
    ∀ scene more,
      e.reset.results scene more = (ofGenerator e.tree e.generator).results scene more := by
  intro e
  have hcoherent : e.Coherent := Coherent.operated (e := ofGenerator t g) rfl scene ops
  have hrebuilt : e.Interchangeable e.rebuilt := ⟨rfl, hcoherent, rfl, rfl⟩
  exact ⟨hrebuilt.execute, hcoherent.results_edited, hcoherent.interchangeable_reset.results⟩

end Executor

end BehaviorTree
