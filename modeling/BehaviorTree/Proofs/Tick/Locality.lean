import BehaviorTree.Proofs.Tick.Effect

/-!
# Locality

A tick writes the entries of nodes that the ticked one leads to, and no others.
-/

namespace BehaviorTree

open Relation

namespace Frame

theorem get?_updateState_of_ne (f : Frame) {id id' : String} (h : id' ≠ id)
    (change : NodeState → NodeState) :
    (f.updateState id change).store.get? id' = f.store.get? id' := by
  rw [updateState, Store.get?_update, if_neg h]

theorem state_congr {f g : Frame} {id : String} (h : g.store.get? id = f.store.get? id) :
    g.state id = f.state id :=
  congrArg (·.getD .initial) h

theorem state_updateState (f : Frame) (id id' : String) (change : NodeState → NodeState) :
    (f.updateState id change).state id' = if id' = id then change (f.state id) else f.state id' :=
  Store.state_update f.store id id' change

theorem state_updateState_self (f : Frame) (id : String) (change : NodeState → NodeState) :
    (f.updateState id change).state id = change (f.state id) := by
  rw [state_updateState, if_pos rfl]

theorem memory_updateMemory_self (f : Frame) (id : String) (change : Memory → Memory) :
    (f.updateMemory id change).memory id = change (f.memory id) := by
  rw [memory, updateMemory, state_updateState_self]
  rfl

end Frame

theorem Effect.get?_of_ne {m : Moment} {s : Settings} {f g : Frame} (h : Effect m s f g)
    {id : String} (hne : id ≠ s.node.id) : g.store.get? id = f.store.get? id := by
  cases h with
  | endRun | stay _ | count _ _ _ | complete | elapse _ | turn _ | arrive | linger _ _ =>
    exact f.get?_updateState_of_ne hne _
  | shuffle _ | strike _ =>
    rw [Frame.updateMemory, Frame.get?_updateState_of_ne _ hne]
    rfl
  | move _ _ | halt _ | send _ | write _ _ => rfl
  | draw => simp only

theorem Effects.get?_of_ne {m : Moment} {s : Settings} {f g : Frame} (h : Effects m s f g)
    {id : String} (hne : id ≠ s.node.id) : g.store.get? id = f.store.get? id := by
  induction h with
  | refl => rfl
  | tail _ hstep ih => exact (hstep.get?_of_ne hne).trans ih

namespace Index

section

variable {ix : Index} (m : Moment) (room : Nat) (p : Fin ix.size) (f : Frame)

theorem get?_enter_of_ne {p : Fin ix.size} {id : String} (h : id ≠ ix.name p) :
    (ix.enter m room p f).store.get? id = f.store.get? id :=
  Frame.get?_updateState_of_ne _ h _

theorem get?_leave_of_ne {p : Fin ix.size} {id : String} (h : id ≠ ix.name p) (status : Status) :
    (ix.leave p status f).store.get? id = f.store.get? id :=
  f.get?_updateState_of_ne h _

theorem messagesOf_enter : messagesOf (ix.enter m room p f).journal = messagesOf f.journal :=
  (messagesOf_push f.journal _).trans (List.append_nil _)

theorem messagesOf_leave (status : Status) :
    messagesOf (ix.leave p status f).journal = messagesOf f.journal :=
  (messagesOf_push f.journal _).trans (List.append_nil _)

@[simp] theorem runningTime_enter :
    ((ix.enter m room p f).state (ix.name p)).runningTime =
      (f.state (ix.name p)).runningTime + m.delta :=
  congrArg (·.runningTime) (Frame.state_updateState_self _ _ _)

@[simp] theorem status_enter :
    ((ix.enter m room p f).state (ix.name p)).status = (f.state (ix.name p)).status :=
  congrArg (·.status) (Frame.state_updateState_self _ _ _)

@[simp] theorem memory_enter : (ix.enter m room p f).memory (ix.name p) = f.memory (ix.name p) :=
  congrArg (·.memory) (Frame.state_updateState_self _ _ _)

@[simp] theorem state_leave (status : Status) :
    (ix.leave p status f).state (ix.name p) = { f.state (ix.name p) with status := status } :=
  f.state_updateState_self _ _

@[simp] theorem memory_leave (status : Status) :
    (ix.leave p status f).memory (ix.name p) = f.memory (ix.name p) :=
  congrArg (·.memory) (state_leave p f status)

end

/-- Whether a position leads to no node of a name. -/
def Avoids (ix : Index) (p : Fin ix.size) (id : String) : Prop :=
  ∀ q, ReflTransGen ix.Edge p q → ix.name q ≠ id

theorem Avoids.child {ix : Index} {p c : Fin ix.size} {id : String} (h : ix.Avoids p id)
    (hc : ix.Edge p c) : ix.Avoids c id :=
  fun q hq => h q (.head hc hq)

private theorem respects_entry (ix : Index) (m : Moment) (id : String) :
    Respects ix m fun _ p f g => ix.Avoids p id → g.store.get? id = f.store.get? id where
  refl _ _ _ _ := rfl
  trans hfg hgh h := (hgh h).trans (hfg h)
  deep _ _ _ := rfl
  enter room p f h := get?_enter_of_ne m room f (h p .refl).symm
  leave _ p status f h := get?_leave_of_ne f (h p .refl).symm status
  effect _ he h := he.get?_of_ne (h _ .refl).symm
  child hc hr h := hr (h.child hc)

/-- A tick leaves the entries of nodes alone that the ticked one does not lead to. -/
theorem Avoids.get?_tick {ix : Index} {p : Fin ix.size} {id : String} (h : ix.Avoids p id)
    (m : Moment) (room : Nat) (f : Frame) :
    (tick ix m room p f).2.store.get? id = f.store.get? id :=
  (respects_entry ix m id).tick room p f h

theorem Avoids.state_tick {ix : Index} {p : Fin ix.size} {id : String} (h : ix.Avoids p id)
    (m : Moment) (room : Nat) (f : Frame) : (tick ix m room p f).2.state id = f.state id :=
  Frame.state_congr (h.get?_tick m room f)

theorem avoids_child {t : Tree} {p c : Fin (build t).size} (hfree : (build t).CycleFree)
    (hp : (build t).Reachable p) (hc : (build t).Edge p c) :
    (build t).Avoids c ((build t).name p) := by
  intro q hq hname
  have hback : TransGen (build t).Edge p q := .head' hc hq
  have heq := name_injective_of_reachable (reachable_leads hp hback.to_reflTransGen) hp hname
  subst heq
  exact hfree q hp hback

end Index

end BehaviorTree
