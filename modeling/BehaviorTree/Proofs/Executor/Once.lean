import BehaviorTree.Proofs.Tick.Once
import BehaviorTree.Proofs.Tree.Reach

/-!
# Ticks of trees without shared nodes

In one tick of such a tree every node is ticked at most once, and then only with its parent. The
store has afterwards what these ticks resulted in, and of other nodes what it had before.
-/

namespace BehaviorTree.Executor

open Index

variable {t : Tree} {e : Executor} {i : Input} {v : Visit (build t).size}

private theorem visits_of_root {root : Fin (build t).size} (hroot : (build t).root = some root) :
    e.visits (build t) i =
      (build t).visits ⟨i.agent, clampStep i.dt⟩ ((build t).size + 1) root (e.start i.scene) := by
  simp only [visits, hroot]

private theorem exists_root_of_mem (hv : v ∈ e.visits (build t) i) :
    ∃ root, (build t).root = some root := by
  cases hroot : (build t).root with
  | none => simp [visits, hroot] at hv
  | some root => exact ⟨root, rfl⟩

private theorem reachable_of_mem (hv : v ∈ e.visits (build t) i) : (build t).Reachable v.node := by
  obtain ⟨root, hroot⟩ := exists_root_of_mem hv
  rw [visits_of_root hroot] at hv
  exact ⟨root, hroot, (mem_visits hv).1⟩

private theorem root_ticked {root : Fin (build t).size} (hroot : (build t).root = some root) :
    ∃ v ∈ e.visits (build t) i, v.node = root := by
  rw [visits_of_root hroot]
  exact ⟨_, List.mem_cons_self, rfl⟩

private theorem nodup_ticked (hunshared : t.Unshared) (hfree : (build t).CycleFree)
    (he : e.Reachable) :
    ((e.visits (build t) i).map fun v => (build t).name v.node).Nodup := by
  have hnodes : ((e.visits (build t) i).map (·.node)).Nodup := by
    cases hroot : (build t).root with
    | none => simp [visits, hroot]
    | some root =>
      rw [visits_of_root hroot]
      exact nodup_visits (unshared_build hunshared) hfree _ ⟨root, hroot, .refl⟩
        (f := e.start i.scene) he.sound
  refine List.pairwise_map.mpr ((List.pairwise_map.mp hnodes).imp_of_mem ?_)
  intro u v hu hv hne hname
  exact hne (name_injective_of_reachable (reachable_of_mem hu) (reachable_of_mem hv) hname)

private theorem parent_ticked (hunshared : t.Unshared) (hv : v ∈ e.visits (build t) i)
    (hnot : (build t).root ≠ some v.node) :
    (∃ p, (build t).Edge p v.node) ∧
      ∀ p, (build t).Edge p v.node → ∃ u ∈ e.visits (build t) i, u.node = p := by
  obtain ⟨root, hroot⟩ := exists_root_of_mem hv
  rw [visits_of_root hroot] at hv ⊢
  rcases exists_parent hv with hself | ⟨u, hu, hedge⟩
  · rw [hroot, hself] at hnot
    exact absurd rfl hnot
  · exact ⟨⟨u.node, hedge⟩, fun p hp => ⟨u, hu, (unshared_build hunshared).parent hedge hp⟩⟩

private theorem recorded_execute (hunshared : t.Unshared) (hfree : (build t).CycleFree)
    (he : e.Reachable) (hindex : e.currentIndex = build t) (hv : v ∈ e.visits (build t) i) :
    ∃ state, (e.execute i.agent i.dt i.scene).executor.store.get? ((build t).name v.node) =
        some state ∧
      state.status = v.status ∧ state.runningTime =
        ((e.store.get? ((build t).name v.node)).elim 0 (·.runningTime)) + clampStep i.dt := by
  obtain ⟨root, hroot⟩ := exists_root_of_mem hv
  rw [visits_of_root hroot] at hv
  obtain ⟨state, hstate, hstatus, htime⟩ := recorded_tick hunshared hfree ⟨root, hroot, .refl⟩
    _ (f := e.start i.scene) he.sound hv
  have hbefore : ((e.start i.scene).state ((build t).name v.node)).runningTime =
      (e.store.get? ((build t).name v.node)).elim 0 (·.runningTime) := by
    change ((e.store.get? ((build t).name v.node)).getD .initial).runningTime = _
    cases e.store.get? ((build t).name v.node) <;> rfl
  rw [hbefore] at htime
  rw [execute_of_index hindex hroot]
  exact ⟨state, hstate, hstatus, htime⟩

private theorem kept_execute (hindex : e.currentIndex = build t) {id : String}
    (h : ∀ v ∈ e.visits (build t) i, (build t).name v.node ≠ id) :
    (e.execute i.agent i.dt i.scene).executor.store.get? id = e.store.get? id := by
  cases hroot : (build t).root with
  | none => rw [execute_of_rootless (by rw [hindex]; exact hroot)]
  | some root =>
    rw [execute_of_index hindex hroot]
    rw [visits_of_root hroot] at h
    exact (touches_tick (build t) ⟨i.agent, clampStep i.dt⟩ id _ root (e.start i.scene)).kept h

/-- In a tick of a tree without shared nodes, whose root leads to no cycle, every node is ticked at
most once, and only together with its parent. Its entry has the result of its tick then, with the
time step added to its running time once. No other entry is written. -/
theorem ticks_once (he : e.Reachable) (hacyclic : e.tree.AcyclicFromRoot)
    (hunshared : e.tree.Unshared) (i : Input) :
    let ix := Index.build e.tree
    let vs := e.visits ix i
    let after := (e.execute i.agent i.dt i.scene).executor.store
    (begun (e.execute i.agent i.dt i.scene).journal = vs.map fun v => (ix.name v.node, v.depth)) ∧
    (∀ root, ix.root = some root → ∃ v ∈ vs, v.node = root) ∧
    (vs.map fun v => ix.name v.node).Nodup ∧
    (∀ v ∈ vs, ix.root ≠ some v.node →
      (∃ p, ix.Edge p v.node) ∧ ∀ p, ix.Edge p v.node → ∃ u ∈ vs, u.node = p) ∧
    (∀ v ∈ vs, ∃ state, after.get? (ix.name v.node) = some state ∧ state.status = v.status ∧
      state.runningTime =
        ((e.store.get? (ix.name v.node)).elim 0 (·.runningTime)) + clampStep i.dt) ∧
    ∀ id, (∀ v ∈ vs, ix.name v.node ≠ id) → after.get? id = e.store.get? id := by
  intro ix vs after
  have hindex : e.currentIndex = build e.tree := he.currentIndex_eq
  have hfree : (build e.tree).CycleFree := hacyclic.cycleFree
  have hbegun := begun_execute e i
  rw [hindex] at hbegun
  refine ⟨hbegun, ?_, ?_, ?_, ?_, ?_⟩
  · intro root hroot
    exact root_ticked hroot
  · exact nodup_ticked hunshared hfree he
  · intro v hv hnot
    exact parent_ticked hunshared hv hnot
  · intro v hv
    exact recorded_execute hunshared hfree he hindex hv
  · intro id hid
    exact kept_execute hindex hid

/-- A time limit that cuts off a node which waits: both are ticked, and then only one of them. -/
theorem ticks_once_cut_off :
    let t := (Tree.single "timeout" ["leaf"]).addNode ⟨"leaf", "wait", ∅⟩
    let i : Input := ⟨"actor", 0.25, World.empty.insert (.create "actor" ⟨0, 0⟩), ∅⟩
    let late : Input := { i with dt := 100 }
    let e := (ofGenerator t ⟨0⟩).after [i]
    let before := (ofGenerator t ⟨0⟩).visits (build t) i
    let vs := e.visits (build e.tree) late
    let after := (e.execute late.agent late.dt late.scene).executor.store
    e.Reachable ∧ e.tree.AcyclicFromRoot ∧ e.tree.Unshared ∧
      before.map (fun v => (build t).name v.node) = ["root", "leaf"] ∧
      vs.map (fun v => (build e.tree).name v.node) = ["root"] ∧
      (∃ state, after.get? "root" = some state ∧ state.status = .failure ∧
        state.runningTime = 0.25 + 100) ∧
      after.get? "leaf" = e.store.get? "leaf" := by
  intro t i late e before vs after
  have he : e.Reachable := (Reachable.new t ⟨0⟩).after [i]
  have htree : e.tree = t := by decide +kernel
  have hacyclic : e.tree.AcyclicFromRoot := by
    rw [htree]
    exact ((Tree.cycleNode?_eq_none_iff (by decide)).mp (by decide)).fromRoot
  have hunshared : e.tree.Unshared := by
    rw [htree]
    unfold Tree.Unshared Tree.Resolves Tree.Names
    decide
  have hnames : vs.map (fun v => (build e.tree).name v.node) = ["root"] := by decide +kernel
  have hticked : ∃ v ∈ vs, (build e.tree).name v.node = "root" ∧ v.status = .failure := by
    decide +kernel
  have htime : (e.store.get? "root").elim 0 (·.runningTime) = 0.25 := by decide +kernel
  have hstep : clampStep late.dt = 100 := by decide +kernel
  obtain ⟨v, hv, hname, hstatus⟩ := hticked
  obtain ⟨-, -, -, -, hrecorded, hothers⟩ := ticks_once he hacyclic hunshared late
  refine ⟨he, hacyclic, hunshared, by decide +kernel, hnames, ?_, hothers "leaf" fun w hw hleaf => ?_⟩
  · have hroot := hrecorded v hv
    rw [hname, hstatus, htime, hstep] at hroot
    exact hroot
  · have hmem := List.mem_map_of_mem (f := fun v => (build e.tree).name v.node) hw
    rw [hnames, hleaf] at hmem
    revert hmem
    decide

end BehaviorTree.Executor
