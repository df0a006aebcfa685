import BehaviorTree.Proofs.Executor.Run
import BehaviorTree.Proofs.Tick.Simulation

/-!
# Plays

A host plays a tree by ticking it over and over in one scene, which it may change between ticks. Two
executors play alike if their roots are ticked alike.
-/

namespace BehaviorTree

/-- What a host does for one tick of a play. -/
structure Turn where
  agent : String
  dt : Float32
  /-- What it does to the scene before the tick. -/
  prepare : Scene → Scene

namespace Executor

theorem currentIndex_create (t : Tree) (seed : Option UInt64) (unseeded : Generator) :
    (create t seed unseeded).currentIndex = .build t := by
  cases seed <;> rfl

def play : Executor → Scene → List Turn → List Executed
  | _, _, [] => []
  | e, scene, turn :: rest =>
    let done := e.execute turn.agent turn.dt (turn.prepare scene)
    done :: play done.executor done.scene rest

/-- Whether two executors have the same saved blackboard, with related stores and generators. -/
structure Like (S : Store → Store → Prop) (G : Generator → Generator → Prop) (e e' : Executor) :
    Prop where
  saved : e.tree.blackboard = e'.tree.blackboard
  store : S e.store e'.store
  generator : G e.generator e'.generator

end Executor

/-- Whether two ticks of trees result in the same status, scene and messages, and leave executors
that are alike. -/
structure Executed.Like (S : Store → Store → Prop) (G : Generator → Generator → Prop)
    (a b : Executed) : Prop where
  status : a.status = b.status
  scene : a.scene = b.scene
  messages : messagesOf a.journal = messagesOf b.journal
  executor : a.executor.Like S G b.executor

namespace Executor

variable {S : Store → Store → Prop} {G : Generator → Generator → Prop} {ix ix' : Index}

/-- Whether both indexes have no root, or roots that are ticked alike. -/
def RootsAlike (S : Store → Store → Prop) (G : Generator → Generator → Prop) (ix ix' : Index) :
    Prop :=
  Option.Rel (fun root root' => ∀ m f g, Frame.Like S G f g →
    Alike (Frame.Like S G) (tick ix m (ix.size + 1) root f) (tick ix' m (ix'.size + 1) root' g))
    ix.root ix'.root

theorem like_start {e e' : Executor} (h : e.Like S G e') (scene : Scene) :
    (e.start scene).Like S G (e'.start scene) where
  world := rfl
  blackboard := congrArg scene.blackboard.mergeMissing h.saved
  saved := h.saved
  store := h.store
  generator := h.generator
  messages := rfl

theorem like_execute {e e' : Executor} (hix : e.currentIndex = ix) (hix' : e'.currentIndex = ix')
    (hroots : RootsAlike S G ix ix') (h : e.Like S G e') (agent : String) (dt : Float32)
    (scene : Scene) :
    (e.execute agent dt scene).Like S G (e'.execute agent dt scene) := by
  rw [RootsAlike] at hroots
  cases hroot : ix.root with
  | none =>
    rw [hroot] at hroots
    cases hroot' : ix'.root with
    | none =>
      rw [execute_of_rootless (hix ▸ hroot), execute_of_rootless (hix' ▸ hroot')]
      exact ⟨rfl, rfl, rfl, h.saved, h.store, h.generator⟩
    | some root' =>
      rw [hroot'] at hroots
      cases hroots
  | some root =>
    rw [hroot] at hroots
    cases hroot' : ix'.root with
    | none =>
      rw [hroot'] at hroots
      cases hroots
    | some root' =>
      rw [hroot'] at hroots
      obtain ⟨hticks⟩ := hroots
      obtain ⟨hstatus, hframe⟩ := hticks ⟨agent, clampStep dt⟩ _ _ (like_start h scene)
      rw [execute_of_index hix hroot, execute_of_index hix' hroot']
      refine ⟨hstatus, ?_, hframe.messages, hframe.saved, hframe.store, hframe.generator⟩
      dsimp only
      rw [hframe.world, hframe.blackboard]

/-- Executors play alike that are alike and whose roots are ticked alike. -/
theorem like_play {e e' : Executor} (hix : e.currentIndex = ix) (hix' : e'.currentIndex = ix')
    (hroots : RootsAlike S G ix ix') (h : e.Like S G e') (scene : Scene) (turns : List Turn) :
    List.Forall₂ (Executed.Like S G) (e.play scene turns) (e'.play scene turns) := by
  induction turns generalizing e e' scene with
  | nil => exact .nil
  | cons turn rest ih =>
    have hdone := like_execute hix hix' hroots h turn.agent turn.dt (turn.prepare scene)
    rw [play, play]
    refine .cons hdone ?_
    rw [hdone.scene]
    exact ih ((currentIndex_execute e _ _ _).trans hix) ((currentIndex_execute e' _ _ _).trans hix')
      hdone.executor _

end Executor

end BehaviorTree
