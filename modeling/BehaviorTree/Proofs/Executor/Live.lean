import BehaviorTree.Proofs.Executor.Footprint
import BehaviorTree.Proofs.Tick.Live
import BehaviorTree.Proofs.Tree.Reach

/-!
# Runs that go on

Between the ticks of a tree without shared nodes, the state of a running node tells of a child that is
running too, whether or not the last ticks asked for them.
-/

namespace BehaviorTree

open Relation

/-- Whether a store has states of nodes only that the root leads to, all of them live. -/
structure Index.LiveStore (ix : Index) (s : Store) : Prop where
  leads : ∀ id state, s.get? id = some state → ix.RootLeads id
  live : ∀ p, ix.Reachable p → ix.LiveAt s p

theorem Index.liveStore_empty (ix : Index) : ix.LiveStore ∅ where
  leads _ _ h := nomatch h
  live _ _ _ h := nomatch h

namespace Executor

open Index

variable {t : Tree} {e : Executor}

private theorem liveStore_execute (hunshared : t.Unshared) (hfree : (build t).CycleFree)
    (he : e.Reachable) (hindex : e.currentIndex = build t) (h : (build t).LiveStore e.store)
    (i : Input) : (build t).LiveStore (e.execute i.agent i.dt i.scene).executor.store where
  leads := by
    intro id state hstate
    by_contra hnot
    rw [get?_execute_of_not_rootLeads hindex hnot] at hstate
    exact hnot (h.leads id state hstate)
  live := by
    rintro p ⟨root, hroot, hlead⟩
    rw [execute_of_index hindex hroot]
    have hbelow : ∀ q, ReflTransGen (build t).Edge root q →
        (build t).LiveAt (e.start i.scene).store q :=
      fun q hq => h.live q ⟨root, hroot, hq⟩
    exact live_tick hunshared hfree _ ⟨root, hroot, .refl⟩ (f := e.start i.scene) he.sound hbelow p
      hlead

private theorem liveStore_after (hunshared : t.Unshared) (hfree : (build t).CycleFree)
    (he : e.Reachable) (hindex : e.currentIndex = build t) (h : (build t).LiveStore e.store)
    (inputs : List Input) : (build t).LiveStore (e.after inputs).store := by
  induction inputs generalizing e with
  | nil => exact h
  | cons i rest ih =>
    have hnext := (currentIndex_execute e i.agent i.dt i.scene).trans hindex
    exact ih (he.execute i.agent i.dt i.scene) hnext (liveStore_execute hunshared hfree he hindex h i)

/-- However often a tree is ticked from an empty store on, every state in the store is that of a node
and is live. The tree must not have shared nodes, nor a cycle that its root leads to. -/
theorem live_after (he : e.Reachable) (hempty : e.store = ∅) (hacyclic : e.tree.AcyclicFromRoot)
    (hunshared : e.tree.Unshared) (inputs : List Input) :
    let ix := Index.build e.tree
    let s := (e.after inputs).store
    ∀ id state, s.get? id = some state →
      ∃ p, position? e.tree.nodes id = some p ∧ ix.Live s p state := by
  intro ix s id state hstate
  have hstart : ix.LiveStore e.store := by
    rw [hempty]
    exact liveStore_empty ix
  have hs := liveStore_after hunshared hacyclic.cycleFree he he.currentIndex_eq hstart inputs
  obtain ⟨root, hroot, p, hlead, rfl⟩ := hs.leads id state hstate
  have hp : ix.Reachable p := ⟨root, hroot, hlead⟩
  exact ⟨p, position?_name_of_reachable hp, hs.live p hp state hstate⟩

theorem live_after_waiting :
    let t := (Tree.single "random_sequence" ["leaf"]).addNode ⟨"leaf", "wait", ∅⟩
    let e := ofGenerator t ⟨0⟩
    let i : Input := ⟨"actor", 0.25, World.empty.insert (.create "actor" ⟨0, 0⟩), ∅⟩
    let s := (e.after [i, i]).store
    e.Reachable ∧ e.store = ∅ ∧ e.tree.AcyclicFromRoot ∧ e.tree.Unshared ∧
      ∃ state p, s.get? "root" = some state ∧ state.status = .running ∧
        position? t.nodes "root" = some p ∧ (build t).Live s p state := by
  intro t e i s
  have hacyclic : t.AcyclicFromRoot :=
    ((Tree.cycleNode?_eq_none_iff (by decide)).mp (by decide)).fromRoot
  have hunshared : t.Unshared := by
    unfold Tree.Unshared Tree.Resolves Tree.Names
    decide
  have hrunning : (s.get? "root").map (·.status) = some .running := by decide +kernel
  obtain ⟨state, hstate, hstatus⟩ := Option.map_eq_some_iff.mp hrunning
  obtain ⟨p, hp, hlive⟩ := live_after (.new t ⟨0⟩) rfl hacyclic hunshared [i, i] "root" state hstate
  exact ⟨.new t ⟨0⟩, rfl, hacyclic, hunshared, state, p, hstate, hstatus, hp, hlive⟩

end Executor

end BehaviorTree
