import BehaviorTree.Proofs.Checked.Agreement

/-!
# Checked execution

The executors that a host can come by never come to a breach: a tick with every lookup checked ends
as the tick itself does. The positions of the kept child index are looked up in the tree as it is
now, which edits may have changed since.
-/

namespace BehaviorTree

/-- What a tick looks up by the number of a node. -/
structure Layout where
  nodes : List Node
  definitions : List (Option Definition)
  children : List (List Nat)

/-- The nodes of the tree, with the definitions and children that the child index has for them. -/
def Executor.layout (e : Executor) : Layout where
  nodes := e.tree.nodes
  definitions := e.currentIndex.slots.toList.map (·.definition)
  children := e.currentIndex.slots.toList.map (·.children.map Fin.val)

namespace Checked

def dispatch (l : Layout) (m : Moment) (s : Settings) (p : Nat) (tick : Ticker) (f : Frame) :
    Except Breach (Status × Frame) :=
  match s.definition.kind with
  | .composite c => do composite c s (← lookUp .children l.children p) tick f
  | .decorator d => do decorator d m s (← lookUp .children l.children p) tick f
  | .action a =>
    match f.world.get? m.agent with
    | none => .ok (.failure, f)
    | some me => action a m s me f
  | .condition c => .ok (c.run m s f)

/-- Ticks the node of a number, where `room` more nodes may be ticked within one another. -/
def tick (l : Layout) (m : Moment) : (room : Nat) → Ticker
  | 0, p, f => do
    let node ← lookUp .node l.nodes p
    return (.failure, f.note (.tooDeep node.id))
  | room + 1, p, f => do
    let node ← lookUp .node l.nodes p
    let f := f.note (.began node.id (l.nodes.length - room))
    let f := f.updateState node.id fun s => { s with runningTime := s.runningTime + m.delta }
    let (status, f) ← match ← lookUp .definition l.definitions p with
      | none => pure (.failure, f)
      | some d => dispatch l m ⟨node, d⟩ p (tick l m room) f
    return (status,
      (f.updateState node.id fun s => { s with status := status }).note (.ended node.id status))

def execute (e : Executor) (agent : String) (dt : Float32) (scene : Scene) :
    Except Breach Executed :=
  match e.currentIndex.root with
  | none => .ok ⟨.failure, { e with index := some e.currentIndex }, scene, #[]⟩
  | some root => do
    let (status, f) ←
      tick e.layout ⟨agent, clampStep dt⟩ (e.tree.nodes.length + 1) root.val (e.start scene)
    return ⟨status, e.resume f, ⟨f.world, f.blackboard⟩, f.journal⟩

end Checked

/-- Whether lookups by number find what an index has at its positions. -/
structure Layout.Shows (l : Layout) (ix : Index) : Prop where
  length : l.nodes.length = ix.size
  node (p : Fin ix.size) : l.nodes[p.val]? = some (ix.slot p).node
  definition (p : Fin ix.size) : l.definitions[p.val]? = some (ix.slot p).definition
  children (p : Fin ix.size) : l.children[p.val]? = some ((ix.slot p).children.map Fin.val)

private theorem getElem?_slots {α : Type} (ix : Index) (g : Slot ix.size → α) (p : Fin ix.size) :
    (ix.slots.toList.map g)[p.val]? = some (g (ix.slot p)) := by
  rw [List.getElem?_map, Vector.getElem?_toList, Vector.getElem?_eq_getElem p.isLt]
  rfl

theorem Executor.Reachable.shows {e : Executor} (h : e.Reachable) :
    e.layout.Shows e.currentIndex where
  length := by rw [h.currentIndex_eq]; rfl
  node p := by
    have hslots : e.tree.nodes = e.currentIndex.slots.toList.map (·.node) := by
      rw [h.currentIndex_eq, Index.build, Vector.toList_ofFn, List.map_ofFn]
      exact List.ofFn_getElem.symm
    rw [layout, hslots]
    exact getElem?_slots e.currentIndex (·.node) p
  definition p := getElem?_slots e.currentIndex (·.definition) p
  children p := getElem?_slots e.currentIndex (·.children.map Fin.val) p

namespace Checked

variable {l : Layout} {ix : Index}

theorem dispatch_eq_ok (h : l.Shows ix) {checked : Ticker} {tick : BehaviorTree.Ticker ix.size}
    (hagree : Agrees checked tick) (m : Moment) (s : Settings) (p : Fin ix.size) {f : Frame}
    (hf : f.store.Sound) :
    dispatch l m s p.val checked f =
      .ok (BehaviorTree.dispatch m s (ix.slot p).children tick f) := by
  rw [dispatch, BehaviorTree.dispatch, lookUp_eq_ok (h.children p)]
  cases s.definition.kind with
  | composite c => exact composite_eq_ok hagree c s m _ hf
  | decorator d => exact decorator_eq_ok hagree d m s _ hf
  | action a =>
    dsimp only
    cases f.world.get? m.agent with
    | none => rfl
    | some me => exact action_eq_ok a m s me f
  | condition c => rfl

/-- Checked ticks are the ticks themselves. -/
theorem agrees_tick (h : l.Shows ix) (m : Moment) (room : Nat) :
    Agrees (tick l m room) (BehaviorTree.tick ix m room) := by
  induction room with
  | zero =>
    intro p f hf
    refine ⟨?_, sound_tick ix m 0 p hf⟩
    rw [tick, lookUp_eq_ok (h.node p)]
    rfl
  | succ room ih =>
    intro p f hf
    refine ⟨?_, sound_tick ix m (room + 1) p hf⟩
    rw [tick, lookUp_eq_ok (h.node p), BehaviorTree.tick, lookUp_eq_ok (h.definition p), h.length]
    cases (ix.slot p).definition with
    | none => rfl
    | some d =>
      have hentered : (ix.enter m room p f).store.Sound := hf.update _ fun _ hs => hs
      change (dispatch l m ⟨(ix.slot p).node, d⟩ p.val (tick l m room) (ix.enter m room p f)
        >>= _) = _
      rw [dispatch_eq_ok h ih m _ p hentered]
      rfl

end Checked

/-- Whatever a host has done with an executor, the states that it keeps are sound, and no tick of it
comes to a breach. -/
theorem Executor.Reachable.checked_execute {e : Executor} (h : e.Reachable) :
    e.store.Sound ∧ ∀ agent dt scene,
      Checked.execute e agent dt scene = .ok (e.execute agent dt scene) := by
  refine ⟨h.sound, fun agent dt scene => ?_⟩
  rw [Checked.execute]
  cases hroot : e.currentIndex.root with
  | none => rw [execute_of_rootless hroot]
  | some root =>
    have hlength : e.tree.nodes.length = e.currentIndex.size := h.shows.length
    have hagree := Checked.agrees_tick h.shows ⟨agent, clampStep dt⟩ (e.currentIndex.size + 1)
    rw [execute_of_root hroot]
    dsimp only
    rw [hlength, (hagree root (e.start scene) h.sound).1]
    rfl

/-- A shuffled composite that is its own child twice, ticked, turned into a repeater that is its own
child, and given back the states that it had as a composite. -/
theorem Executor.checked_execute_edited :
    let shuffling := ofGenerator (.single "random_sequence" ["root", "root"]) ⟨0⟩
    let ticked := (shuffling.execute "" 0 ⟨∅, ∅⟩).executor
    let counting := (ticked.edit fun _ => .single "repeater" ["root"]).reset.restore ticked.store
    counting.store.Sound ∧
      Checked.execute counting "" 0 ⟨∅, ∅⟩ = .ok (counting.execute "" 0 ⟨∅, ∅⟩) := by
  intro shuffling ticked counting
  have hticked : ticked.Reachable := .execute "" 0 ⟨∅, ∅⟩ (.new _ _)
  have hcounting : counting.Reachable := .restore (.reset (.edit _ hticked)) hticked
  exact ⟨hcounting.checked_execute.1, hcounting.checked_execute.2 "" 0 ⟨∅, ∅⟩⟩

end BehaviorTree
