import BehaviorTree.Proofs.Executor.Play
import BehaviorTree.Proofs.Tick.Locality

/-!
# Footprints

The footprint of a node are the names of the nodes that it leads to. A tick of the node writes entries
of its footprint only, and reads no other ones, so a play shows nothing of entries that the root does
not lead to.
-/

namespace BehaviorTree

open Relation

namespace Store

def AgreeOn (names : String → Prop) (s s' : Store) : Prop :=
  ∀ id, names id → s.get? id = s'.get? id

theorem shows_agreeOn {names : String → Prop} {id : String} (h : names id) :
    Shows (AgreeOn names) id where
  state hs := congrArg (·.getD .initial) (hs id h)
  update := by
    intro s t change hs id' hid'
    have hstate : s.state id = t.state id := congrArg (·.getD .initial) (hs id h)
    rw [get?_update, get?_update, hs id' hid', hstate]

end Store

namespace Index

variable {ix : Index}

def Leads (ix : Index) (p : Fin ix.size) (id : String) : Prop :=
  ∃ q, ReflTransGen ix.Edge p q ∧ ix.name q = id

def RootLeads (ix : Index) (id : String) : Prop := ∃ root, ix.root = some root ∧ ix.Leads root id

theorem avoids_of_not_leads {p : Fin ix.size} {id : String} (h : ¬ ix.Leads p id) :
    ix.Avoids p id :=
  fun q hq hname => h ⟨q, hq, hname⟩

/-- Ticks below a position go alike from stores that agree on its footprint. -/
theorem simulates_footprint (ix : Index) (start : Fin ix.size) :
    Simulates ix ix (Store.AgreeOn (ix.Leads start)) (· = ·)
      fun room p room' p' => room = room' ∧ p = p' ∧ ReflTransGen ix.Edge start p where
  room := by
    rintro room p room' p' ⟨rfl, -, -⟩
    rfl
  slot := by
    rintro room p room' p' ⟨hroom, rfl, hlead⟩
    refine .of_node rfl rfl (List.forall₂_same.mpr fun c hc => ⟨Nat.succ_inj.mp hroom, rfl, ?_⟩)
    exact hlead.tail hc
  shows := by
    rintro room p room' p' ⟨-, -, hlead⟩
    exact Store.shows_agreeOn ⟨p, hlead, rfl⟩
  draws _ _ _ _ := rfl

end Index

namespace Executor

variable {e : Executor} {ix : Index}

private theorem rootsAlike_footprint (ix : Index) :
    RootsAlike (Store.AgreeOn ix.RootLeads) (· = ·) ix ix := by
  rw [RootsAlike]
  cases hroot : ix.root with
  | none => exact .none
  | some root =>
    have hnames : ix.RootLeads = ix.Leads root := by
      funext id
      apply propext
      simp [Index.RootLeads, hroot]
    rw [hnames]
    exact .some fun m f g hf =>
      (Index.simulates_footprint ix root).alike_tick ⟨rfl, rfl, .refl⟩ hf

theorem get?_execute_of_not_rootLeads (he : e.currentIndex = ix) {id : String}
    (h : ¬ ix.RootLeads id) (agent : String) (dt : Float32) (scene : Scene) :
    (e.execute agent dt scene).executor.store.get? id = e.store.get? id := by
  cases hroot : ix.root with
  | none => rw [execute_of_rootless (by rw [he]; exact hroot)]
  | some root =>
    rw [execute_of_index he hroot]
    have havoids : ix.Avoids root id :=
      Index.avoids_of_not_leads fun hlead => h ⟨root, hroot, hlead⟩
    exact havoids.get?_tick _ _ (e.start scene)

theorem get?_play_of_not_rootLeads (he : e.currentIndex = ix) {id : String}
    (h : ¬ ix.RootLeads id) (scene : Scene) (turns : List Turn) :
    ∀ done ∈ e.play scene turns, done.executor.store.get? id = e.store.get? id := by
  induction turns generalizing e scene with
  | nil => simp [play]
  | cons turn rest ih =>
    intro done hdone
    have hstep := get?_execute_of_not_rootLeads he h turn.agent turn.dt (turn.prepare scene)
    rw [play] at hdone
    rcases List.mem_cons.mp hdone with rfl | hdone
    · exact hstep
    · have hnext := (currentIndex_execute e turn.agent turn.dt (turn.prepare scene)).trans he
      exact (ih hnext _ done hdone).trans hstep

/-- A tick writes entries of the footprint of its node only, and what it does depends on no others.
So what is left in a store of nodes that the root does not lead to never shows in a play, and stays as
it is. -/
theorem play_footprint :
    (∀ (ix : Index) (m : Moment) (room : Nat) (p : Fin ix.size) (f : Frame),
      (∀ id, ¬ ix.Leads p id → (tick ix m room p f).2.store.get? id = f.store.get? id) ∧
      ∀ s, f.store.AgreeOn (ix.Leads p) s →
        Alike (Frame.Like (Store.AgreeOn (ix.Leads p)) (· = ·)) (tick ix m room p f)
          (tick ix m room p { f with store := s })) ∧
    ∀ e : Executor, e.Reachable → ∀ s, e.store.AgreeOn (Index.build e.tree).RootLeads s →
      ∀ scene turns,
        List.Forall₂ (Executed.Like (Store.AgreeOn (Index.build e.tree).RootLeads) (· = ·))
          (e.play scene turns) ((e.restore s).play scene turns) ∧
        ∀ id, ¬ (Index.build e.tree).RootLeads id →
          (∀ done ∈ e.play scene turns, done.executor.store.get? id = e.store.get? id) ∧
            ∀ done ∈ (e.restore s).play scene turns, done.executor.store.get? id = s.get? id := by
  refine ⟨fun ix m room p f => ⟨fun id hid => ?_, fun s hs => ?_⟩, fun e he s hs scene turns => ?_⟩
  · exact (Index.avoids_of_not_leads hid).get?_tick m room f
  · have hlike : f.Like (Store.AgreeOn (ix.Leads p)) (· = ·) { f with store := s } :=
      ⟨rfl, rfl, rfl, hs, rfl, rfl⟩
    exact (Index.simulates_footprint ix p).alike_tick ⟨rfl, rfl, .refl⟩ hlike
  · have hindex := he.currentIndex_eq
    have hrestored : (e.restore s).currentIndex = .build e.tree := hindex
    refine ⟨?_, fun id hid => ⟨?_, ?_⟩⟩
    · exact like_play hindex hrestored (rootsAlike_footprint _) ⟨rfl, hs, rfl⟩ scene turns
    · exact get?_play_of_not_rootLeads hindex hid scene turns
    · exact get?_play_of_not_rootLeads hrestored hid scene turns

/-- The entry of a former root, with it and without. -/
theorem play_footprint_disconnected :
    let t := (Tree.single "inverter" ["leaf"]).addNode ⟨"leaf", "wait", ∅⟩
    let i : Input := ⟨"actor", 0.25, World.empty.insert (.create "actor" ⟨0, 0⟩), ∅⟩
    let e := ((ofGenerator t ⟨0⟩).after [i]).edit (·.setRoot "leaf")
    let turn : Turn := ⟨"actor", 0.25, fun _ => i.scene⟩
    e.Reachable ∧ e.store.AgreeOn (Index.build e.tree).RootLeads (e.store.erase "root") ∧
      (e.store.get? "root").isSome ∧
      List.Forall₂ (Executed.Like (Store.AgreeOn (Index.build e.tree).RootLeads) (· = ·))
        (e.play i.scene [turn, turn]) ((e.restore (e.store.erase "root")).play i.scene [turn, turn]) ∧
      ∀ done ∈ (e.restore (e.store.erase "root")).play i.scene [turn, turn],
        done.executor.store.get? "root" = none := by
  intro t i e turn
  have he : e.Reachable := .edit _ ((Reachable.new t ⟨0⟩).after [i])
  have hleads : ∀ id, (Index.build e.tree).RootLeads id → id = "leaf" := by
    rintro id ⟨root, hroot, q, hq, rfl⟩
    have hname : (Index.build e.tree).root.map (Index.build e.tree).name = some "leaf" := by
      decide +kernel
    have hchildless : (Index.build e.tree).root.map (fun p => ((Index.build e.tree).slot p).children) =
        some [] := by
      decide +kernel
    rw [hroot, Option.map_some, Option.some.injEq] at hname hchildless
    rcases hq.cases_head with rfl | ⟨c, hc, -⟩
    · exact hname
    · rw [Index.Edge, hchildless] at hc
      exact absurd hc List.not_mem_nil
  have hagree : e.store.AgreeOn (Index.build e.tree).RootLeads (e.store.erase "root") := by
    intro id hid
    rw [Dict.get?_erase, if_neg]
    rw [hleads id hid]
    decide
  have hroot : ¬ (Index.build e.tree).RootLeads "root" := by
    intro h
    exact absurd (hleads "root" h) (by decide)
  obtain ⟨hplay, hothers⟩ := play_footprint.2 e he _ hagree i.scene [turn, turn]
  refine ⟨he, hagree, by decide +kernel, hplay, fun done hdone => ?_⟩
  rw [(hothers "root" hroot).2 done hdone, Dict.get?_erase, if_pos rfl]

end Executor

end BehaviorTree
