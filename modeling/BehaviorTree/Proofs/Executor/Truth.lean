import BehaviorTree.Proofs.Tick.Depth
import BehaviorTree.Proofs.Tick.Truth

/-!
# Runs of formulas

A tree that is a formula ends every tick with its truth value in the scene of that tick, whatever the
ticks before it have drawn and seen.
-/

namespace BehaviorTree

open Index

/-- Whether the root leads to logical nodes only, and to no cycle. -/
structure Tree.IsFormula (t : Tree) : Prop where
  acyclic : t.AcyclicFromRoot
  logical : ∀ id n, t.Reaches id → t.node? id = some n → n.isLogical

namespace Tree.IsFormula

variable {t : Tree} {root : Fin (build t).size}

/-- Every node that the root of a formula leads to has a truth value, with which it is ticked. -/
theorem exists_denotes (h : t.IsFormula) (hroot : (build t).root = some root) (m : Moment)
    (o : Surroundings) {room k : Nat} {p : Fin (build t).size}
    (hwalk : Walk (build t).Edge k root p) (hroom : room + k = (build t).size + 1) :
    ∃ b, t.Denotes ⟨m.agent, o.world, o.blackboard⟩ ((build t).name p) b ∧
      ∀ f : Frame, f.Calm o → Decides o b (tick (build t) m room p f) := by
  induction room generalizing k p with
  | zero =>
    have hlt := lt_size_of_cycleFree hroot h.acyclic.cycleFree hwalk
    omega
  | succ room ih =>
    have hreachable : (build t).Reachable p := ⟨root, hroot, hwalk.reflTransGen⟩
    have hnode := node?_name hreachable
    have hlogical := h.logical _ _ (reaches_name hreachable) hnode
    have hdefinition : ((build t).slot p).definition = ((build t).slot p).node.definition? := by
      rw [slot_build]
    have hchild : ∀ c ∈ ((build t).slot p).children, ∃ b,
        t.Denotes ⟨m.agent, o.world, o.blackboard⟩ ((build t).name c) b ∧
          ∀ f : Frame, f.Calm o → Decides o b (tick (build t) m room c f) :=
      fun c hc => ih (hwalk.snoc hc) (by omega)
    choose! v hv using hchild
    refine ⟨_, Tree.denotes_name hreachable fun c hc => (hv c hc).1, fun f hf => ?_⟩
    exact decides_tick_succ hdefinition hlogical (fun c hc => (hv c hc).2) hf

end Tree.IsFormula

namespace Executor

/-- An executor of a tree that has set no variable of it and holds no run in the middle. -/
structure AtRest (t : Tree) (e : Executor) : Prop where
  tree : e.tree = t
  index : e.currentIndex = .build t
  store : e.store.Calm

variable {t : Tree} {e : Executor} {root : Fin (build t).size}

theorem AtRest.execute (he : AtRest t e) (h : t.IsFormula) (hroot : (build t).root = some root)
    (i : Input) :
    let blackboard := i.scene.blackboard.mergeMissing t.blackboard
    let done := e.execute i.agent i.dt i.scene
    (∃ b, t.Denotes ⟨i.agent, i.scene.world, blackboard⟩ ((build t).name root) b ∧
      done.status = .ofBool b) ∧
      done.scene = ⟨i.scene.world, blackboard⟩ ∧ AtRest t done.executor := by
  intro blackboard done
  have hstart : (e.start i.scene).Calm ⟨i.scene.world, blackboard, t.blackboard⟩ := by
    obtain rfl := he.tree
    exact ⟨rfl, he.store⟩
  obtain ⟨b, hdenotes, hdecides⟩ := h.exists_denotes hroot ⟨i.agent, clampStep i.dt⟩
    ⟨i.scene.world, blackboard, t.blackboard⟩ (.here root) (Nat.add_zero _)
  obtain ⟨hstatus, hsurroundings, hcalm⟩ := hdecides _ hstart
  have hindex : done.executor.currentIndex = .build t :=
    (currentIndex_execute e i.agent i.dt i.scene).trans he.index
  have hdone : done = _ := execute_of_index he.index hroot
  rw [hdone] at hindex ⊢
  refine ⟨⟨b, hdenotes, hstatus⟩, ?_, ?_, hindex, hcalm⟩
  · rw [Scene.mk.injEq]
    exact ⟨congrArg (·.world) hsurroundings, congrArg (·.blackboard) hsurroundings⟩
  · have hsaved := congrArg (·.saved) hsurroundings
    obtain rfl := he.tree
    exact congrArg (fun b => { e.tree with blackboard := b }) hsaved

theorem AtRest.after (he : AtRest t e) (h : t.IsFormula) (hroot : (build t).root = some root)
    (inputs : List Input) : AtRest t (e.after inputs) := by
  induction inputs generalizing e with
  | nil => exact he
  | cons i rest ih => exact ih (he.execute h hroot i).2.2

end Executor

end BehaviorTree
