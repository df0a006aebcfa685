import BehaviorTree.Proofs.Executor.Reload
import BehaviorTree.Proofs.Simulation.Variables

/-!
# Rewinding

A host rewinds a play by putting back the scene and the states that it began with. The variables saved
with the tree stay as the play left them, and so does the generator. Still the play goes again as it
did, since no node reads the saved variables, and the blackboard of the ticks has them all.
-/

namespace BehaviorTree

/-- The variable that a node sets, if any. -/
def Node.writtenKey? (n : Node) : Option String :=
  match n.definition? with
  | some d =>
    let key := (⟨n, d⟩ : Settings).text "key"
    if d.kind = .action .setBlackboard ∧ key.isEmpty = false then some key else none
  | none => none

/-- The variables that the nodes of a tree set. -/
def Tree.writtenKeys (t : Tree) : List String := t.nodes.filterMap Node.writtenKey?

/-- Whether what a host does before a tick removes no variable. -/
def Turn.KeepsVariables (turn : Turn) : Prop :=
  ∀ scene key, (scene.blackboard.get? key).isSome →
    ((turn.prepare scene).blackboard.get? key).isSome

structure Executed.Repeats (a b : Executed) : Prop where
  status : a.status = b.status
  scene : a.scene = b.scene
  messages : messagesOf a.journal = messagesOf b.journal
  store : a.executor.store = b.executor.store

open Blackboard (Covers)

namespace Surroundings

variable {agent : String} {o o' : Surroundings} {ds : List Deed}

theorem Step.covers (h : Step agent o ds o') (hcovers : Covers o.blackboard o.saved) :
    Covers o'.blackboard o'.saved := by
  cases h with
  | steer velocity => exact (hcovers.insert_left _ _).insert_left _ _
  | move _ | strike _ _ => exact hcovers
  | write _ value => exact hcovers.insert _ value

theorem Course.covers (h : Course agent o ds o') (hcovers : Covers o.blackboard o.saved) :
    Covers o'.blackboard o'.saved := by
  induction h with
  | done _ => exact hcovers
  | step first _ ih => exact ih (first.covers hcovers)

theorem Course.saved_or_written (h : Course agent o ds o') {key : String}
    (hkey : (o'.saved.get? key).isSome) :
    (o.saved.get? key).isSome ∨ ∃ value, Deed.write key value ∈ ds := by
  rw [h.get?_saved, Option.isSome_or, Bool.or_eq_true, List.getLast?_isSome] at hkey
  rcases hkey with hwritten | hsaved
  · obtain ⟨value, hvalue⟩ := List.exists_mem_of_ne_nil _ hwritten
    obtain ⟨deed, hdeed, hread⟩ := List.mem_filterMap.mp hvalue
    cases deed with
    | strike _ _ => cases hread
    | write key' value' =>
      rw [Deed.value?, Option.ite_none_right_eq_some] at hread
      obtain ⟨rfl, -⟩ := hread
      exact .inr ⟨value', hdeed⟩
  · exact .inl hsaved

end Surroundings

theorem Action.write_mem_deeds {a : Action} {s : Settings} {status : Status} {key : String}
    {value : Json} (h : Deed.write key value ∈ a.deeds s status) :
    a = .setBlackboard ∧ key = s.text "key" ∧ key.isEmpty = false := by
  rw [deeds.eq_def] at h
  split at h
  · simp at h
  · split at h
    · simp at h
    · rename_i hempty
      simp only [List.mem_singleton, Deed.write.injEq] at h
      rw [Bool.not_eq_true] at hempty
      exact ⟨rfl, h.1, h.1 ▸ hempty⟩
  · simp at h

namespace Index

theorem write_mem_deeds {t : Tree} {ix : Index} (hix : ix = build t) {v : Visit ix.size}
    {key : String} {value : Json} (h : Deed.write key value ∈ ix.deeds v) :
    key ∈ t.writtenKeys := by
  subst hix
  have hslot := slot_build t v.node
  rw [deeds, hslot] at h
  dsimp only at h
  cases hd : (t.nodes.get v.node).definition? with
  | none => simp [hd] at h
  | some d =>
    rw [hd] at h
    cases hkind : d.kind with
    | action a =>
      simp only [hkind] at h
      obtain ⟨rfl, rfl, hkey⟩ := Action.write_mem_deeds h
      refine List.mem_filterMap.mpr ⟨_, List.get_mem _ v.node, ?_⟩
      simp [Node.writtenKey?, hd, hkind, hkey]
    | composite _ | decorator _ | condition _ => simp [hkind] at h

theorem akin_tick_drawless {t : Tree} (h : t.Drawless) (m : Moment) (room : Nat)
    (p : Fin (build t).size) {f g : Frame}
    (hf : f.Akin (fun _ _ => True) (· = ·) (fun _ _ => True) g) :
    Alike (Frame.Akin (fun _ _ => True) (· = ·) (fun _ _ => True)) (tick (build t) m room p f)
      (tick (build t) m room p g) :=
  (simulates_drawless h).akin_tick (fun _ _ _ => trivial) ⟨rfl, rfl⟩ hf

end Index

namespace Executor

variable {e e' : Executor} {scene : Scene}

def played : Executor → Scene → List Turn → Executor
  | e, _, [] => e
  | e, scene, turn :: rest =>
    let done := e.execute turn.agent turn.dt (turn.prepare scene)
    played done.executor done.scene rest

theorem covers_execute (h : Covers scene.blackboard e.tree.blackboard) (agent : String)
    (dt : Float32) :
    Covers (e.execute agent dt scene).scene.blackboard
      (e.execute agent dt scene).executor.tree.blackboard := by
  cases hroot : e.currentIndex.root with
  | none =>
    rw [execute_of_rootless hroot]
    exact h
  | some root =>
    exact (e.course_execute ⟨agent, dt, scene⟩ hroot).covers (.mergeMissing _ _)

theorem saved_or_written_execute (hix : e.currentIndex = .build e.tree) (agent : String)
    (dt : Float32) (scene : Scene) {key : String}
    (hkey : ((e.execute agent dt scene).executor.tree.blackboard.get? key).isSome) :
    (e.tree.blackboard.get? key).isSome ∨ key ∈ e.tree.writtenKeys := by
  cases hroot : e.currentIndex.root with
  | none =>
    rw [execute_of_rootless hroot] at hkey
    exact .inl hkey
  | some root =>
    have hcourse := e.course_execute ⟨agent, dt, scene⟩ hroot
    rcases hcourse.saved_or_written hkey with hsaved | ⟨value, hvalue⟩
    · exact .inl hsaved
    · obtain ⟨v, -, hv⟩ := List.mem_flatMap.mp hvalue
      exact .inr (Index.write_mem_deeds hix hv)

theorem saved_or_written_played (hix : e.currentIndex = .build e.tree) (scene : Scene)
    (turns : List Turn) {key : String}
    (hkey : ((e.played scene turns).tree.blackboard.get? key).isSome) :
    (e.tree.blackboard.get? key).isSome ∨ key ∈ e.tree.writtenKeys := by
  induction turns generalizing e scene with
  | nil => exact .inl hkey
  | cons turn rest ih =>
    have hdone := currentIndex_execute_eq_build hix turn.agent turn.dt (turn.prepare scene)
    obtain ⟨b, hb⟩ := tree_execute e turn.agent turn.dt (turn.prepare scene)
    rcases ih hdone _ hkey with hsaved | hwritten
    · exact saved_or_written_execute hix _ _ _ hsaved
    · rw [hb] at hwritten
      exact .inr hwritten

theorem currentIndex_played (e : Executor) (scene : Scene) (turns : List Turn) :
    (e.played scene turns).currentIndex = e.currentIndex := by
  induction turns generalizing e scene with
  | nil => rfl
  | cons turn rest ih => exact (ih _ _).trans (currentIndex_execute e _ _ _)

theorem repeats_execute {t : Tree} (hdrawless : t.Drawless) (hix : e.currentIndex = .build t)
    (hix' : e'.currentIndex = .build t) (hstore : e.store = e'.store)
    (hcovers : Covers scene.blackboard e.tree.blackboard)
    (hcovers' : Covers scene.blackboard e'.tree.blackboard) (agent : String) (dt : Float32) :
    (e.execute agent dt scene).Repeats (e'.execute agent dt scene) := by
  cases hroot : (Index.build t).root with
  | none =>
    rw [execute_of_rootless (hix ▸ hroot), execute_of_rootless (hix' ▸ hroot)]
    exact ⟨rfl, rfl, rfl, hstore⟩
  | some root =>
    have hmerged := Dict.mergeMissing_eq_self hcovers
    have hmerged' := Dict.mergeMissing_eq_self hcovers'
    have hstart : (e.start scene).Akin (fun _ _ => True) (· = ·) (fun _ _ => True)
        (e'.start scene) :=
      { world := rfl
        blackboard := hmerged.trans hmerged'.symm
        saved := trivial
        store := hstore
        generator := trivial
        messages := rfl }
    obtain ⟨hstatus, hframe⟩ := Index.akin_tick_drawless hdrawless ⟨agent, clampStep dt⟩
      ((Index.build t).size + 1) root hstart
    rw [execute_of_index hix hroot, execute_of_index hix' hroot]
    refine ⟨hstatus, ?_, hframe.messages, hframe.store⟩
    dsimp only
    rw [hframe.world, hframe.blackboard]

/-- Executors of one tree that draws nothing play alike from the same states, whatever is saved with
the tree, as long as the blackboard of the ticks has it all. -/
theorem repeats_play {t : Tree} (hdrawless : t.Drawless) (hix : e.currentIndex = .build t)
    (hix' : e'.currentIndex = .build t) (hstore : e.store = e'.store)
    (hcovers : Covers scene.blackboard e.tree.blackboard)
    (hcovers' : Covers scene.blackboard e'.tree.blackboard) {turns : List Turn}
    (hturns : ∀ turn ∈ turns, turn.KeepsVariables) :
    List.Forall₂ Executed.Repeats (e.play scene turns) (e'.play scene turns) := by
  induction turns generalizing e e' scene with
  | nil => exact .nil
  | cons turn rest ih =>
    have hkeeps := hturns turn List.mem_cons_self scene
    have hprepared : Covers (turn.prepare scene).blackboard e.tree.blackboard :=
      fun key hkey => hkeeps key (hcovers key hkey)
    have hprepared' : Covers (turn.prepare scene).blackboard e'.tree.blackboard :=
      fun key hkey => hkeeps key (hcovers' key hkey)
    have hdone := repeats_execute hdrawless hix hix' hstore hprepared hprepared' turn.agent turn.dt
    rw [play, play]
    refine .cons hdone ?_
    have hafter' := covers_execute hprepared' turn.agent turn.dt
    rw [← hdone.scene] at hafter' ⊢
    exact ih ((currentIndex_execute e _ _ _).trans hix) ((currentIndex_execute e' _ _ _).trans hix')
      hdone.store (covers_execute hprepared turn.agent turn.dt) hafter'
      fun turn hturn => hturns turn (List.mem_cons_of_mem _ hturn)

/-- A play of a tree that draws nothing goes again as it did when the scene and the states are put
back, though the variables of the tree and the generator are not. The blackboard must have had the
variables of the tree, and those that its nodes set. -/
theorem play_rewound (he : e.Reachable) (hdrawless : e.tree.Drawless)
    (hsaved : Covers scene.blackboard e.tree.blackboard)
    (hwritten : ∀ key ∈ e.tree.writtenKeys, (scene.blackboard.get? key).isSome) {turns : List Turn}
    (hturns : ∀ turn ∈ turns, turn.KeepsVariables) :
    List.Forall₂ Executed.Repeats (e.play scene turns)
      (((e.played scene turns).restore e.store).play scene turns) := by
  have hix := he.currentIndex_eq
  have hplayed : Covers scene.blackboard (e.played scene turns).tree.blackboard := by
    intro key hkey
    rcases saved_or_written_played hix scene turns hkey with hbefore | hset
    · exact hsaved key hbefore
    · exact hwritten key hset
  have hindex : ((e.played scene turns).restore e.store).currentIndex = .build e.tree :=
    (currentIndex_played e scene turns).trans hix
  exact repeats_play hdrawless hix hindex rfl hsaved hplayed hturns

theorem play_rewound_overwritten :
    let n : Node :=
      ⟨"root", "set_blackboard", .ofList [("key", .string "k"), ("value", .bool true)]⟩
    let given : Blackboard := .ofList [("k", .null)]
    let e := ofGenerator
      { Tree.single "set_blackboard" [] with nodes := [n], blackboard := given } ⟨0⟩
    let scene : Scene := ⟨.ofEntities [.create "Guard" .zero], given⟩
    let turns : List Turn := [⟨"Guard", 1, id⟩, ⟨"Guard", 0.5, id⟩]
    let later := e.played scene turns
    e.tree.Drawless ∧ Covers scene.blackboard e.tree.blackboard ∧ e.tree.writtenKeys = ["k"] ∧
      (∀ turn ∈ turns, turn.KeepsVariables) ∧ later.tree.blackboard ≠ e.tree.blackboard ∧
      List.Forall₂ Executed.Repeats (e.play scene turns)
        ((later.restore e.store).play scene turns) := by
  intro n given e scene turns later
  have hdrawless : e.tree.Drawless := by decide +kernel
  have hsaved : Covers scene.blackboard e.tree.blackboard := fun _ h => h
  have hkeys : e.tree.writtenKeys = ["k"] := by decide +kernel
  have hwritten : ∀ key ∈ e.tree.writtenKeys, (scene.blackboard.get? key).isSome := by
    rw [hkeys]
    decide +kernel
  have hturns : ∀ turn ∈ turns, turn.KeepsVariables := by
    intro turn hturn scene key hkey
    simp only [turns, List.mem_cons, List.not_mem_nil, or_false] at hturn
    rcases hturn with rfl | rfl
    · exact hkey
    · exact hkey
  have hlater : later.tree.blackboard ≠ e.tree.blackboard := by decide +kernel
  exact ⟨hdrawless, hsaved, hkeys, hturns, hlater,
    play_rewound (.new _ _) hdrawless hsaved hwritten hturns⟩

end Executor

end BehaviorTree
