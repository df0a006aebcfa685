import BehaviorTree.Proofs.Tick.Alike
import BehaviorTree.Proofs.Tick.Locality

/-!
# Mirrored stores

The states of two trees mirror each other that differ in one ordered composite, if the run of that
goes on under another name on one side, and all else that both trees know of is the same. Nodes that
only one of the trees has do not count.
-/

namespace BehaviorTree

namespace NodeState

def result (x : NodeState) : Status × Float32 := (x.status, x.runningTime)

def begun (x : NodeState) (delta : Float32) : NodeState :=
  { x with runningTime := x.runningTime + delta }

def ended (x : NodeState) (status : Status) : NodeState := { x with status := status }

end NodeState

namespace Store

/-- Whether a second store has what the first has of the nodes of a tree, but for the run of `p`,
which `q` has there. -/
structure Mirrored (t : Tree) (p q : String) (s s' : Store) : Prop where
  others : ∀ id, t.Names id → id ≠ p → s'.get? id = s.get? id
  result : (s'.get? p).map (·.result) = (s.get? p).map (·.result)
  run : (s'.get? q).map (·.memory.cursor) = (s.get? p).map (·.memory.cursor)
  sound : (s.state p).memory.Sound

/-- Whether stores are mirrored, and `p` has been ticked. -/
structure Ongoing (t : Tree) (p q : String) (s s' : Store) : Prop extends Mirrored t p q s s' where
  present : (s.get? p).isSome

private theorem map_state {α : Type} {a b : Option NodeState} {f : NodeState → α}
    (h : a.map f = b.map f) : f (a.getD .initial) = f (b.getD .initial) := by
  cases a <;> cases b <;> simp_all

variable {t : Tree} {p q id : String} {s s' : Store}

theorem mirrored_empty (t : Tree) (p q : String) : Mirrored t p q ∅ ∅ where
  others _ _ _ := rfl
  result := rfl
  run := rfl
  sound := Memory.sound_initial

theorem Mirrored.cursor (h : Mirrored t p q s s') :
    (s.state p).memory.cursor = (s'.state q).memory.cursor :=
  (map_state h.run).symm

private theorem Mirrored.touch (h : Mirrored t p q s s') (hq : ¬ t.Names q)
    (change change' : NodeState → NodeState)
    (hresult : ∀ x y, x.result = y.result → (change x).result = (change y).result)
    (hmemory : ∀ x, (change x).memory = x.memory ∧ (change' x).memory = x.memory) {s'' : Store}
    (hothers : ∀ id, id ≠ p → id ≠ q → s''.get? id = s'.get? id)
    (hself : s''.get? p = some (change (s'.state p)))
    (hdual : s''.get? q = some (change' (s'.state q))) :
    Ongoing t p q (s.update p change) s'' := by
  refine ⟨⟨fun id hid hne => ?_, ?_, ?_, ?_⟩, ?_⟩
  · rw [hothers id hne (hid.ne hq), get?_update, if_neg hne, h.others id hid hne]
  · rw [hself, get?_update, if_pos rfl]
    exact congrArg some (hresult _ _ (map_state h.result))
  · rw [hdual, get?_update, if_pos rfl, Option.map_some, Option.map_some, (hmemory _).1,
      (hmemory _).2, h.cursor]
  · rw [state_update, if_pos rfl, (hmemory _).1]
    exact h.sound
  · rw [get?_update, if_pos rfl]
    rfl

theorem Mirrored.begun (h : Mirrored t p q s s') (hp : t.Names p) (hq : ¬ t.Names q)
    (delta : Float32) :
    Ongoing t p q (s.update p (·.begun delta))
      ((s'.update p (·.begun delta)).update q (·.begun delta)) := by
  have hne := hp.ne hq
  apply h.touch hq (·.begun delta) (·.begun delta) _ fun _ => ⟨rfl, rfl⟩
  · intro id hp hq
    rw [get?_update, if_neg hq, get?_update, if_neg hp]
  · rw [get?_update, if_neg hne, get?_update, if_pos rfl]
  · rw [get?_update, if_pos rfl, state_update, if_neg hne.symm]
  · intro x y hxy
    exact Prod.ext (Prod.ext_iff.mp hxy).1 (congrArg (· + delta) (Prod.ext_iff.mp hxy).2)

theorem Mirrored.ended (h : Mirrored t p q s s') (hp : t.Names p) (hq : ¬ t.Names q)
    (status status' : Status) :
    Mirrored t p q (s.update p (·.ended status))
      ((s'.update q (·.ended status')).update p (·.ended status)) := by
  have hne := hp.ne hq
  apply Ongoing.toMirrored
  apply h.touch hq (·.ended status) (·.ended status') _ fun _ => ⟨rfl, rfl⟩
  · intro id hp hq
    rw [get?_update, if_neg hp, get?_update, if_neg hq]
  · rw [get?_update, if_pos rfl, state_update, if_neg hne]
  · rw [get?_update, if_neg hne.symm, get?_update, if_pos rfl]
  · intro x y hxy
    exact Prod.ext rfl (Prod.ext_iff.mp hxy).2

section Shows

variable (hid : t.Names id) (hne : id ≠ p) (hq : ¬ t.Names q)

include hid hne hq

theorem shows_mirrored : Shows (Mirrored t p q) id where
  state h := congrArg (Option.getD · NodeState.initial) (h.others id hid hne).symm
  update {s s'} change h := by
    have hstate : s'.state id = s.state id :=
      congrArg (Option.getD · NodeState.initial) (h.others id hid hne)
    have hne' := (hid.ne hq).symm
    refine ⟨fun id' hid' hp' => ?_, ?_, ?_, ?_⟩
    · rw [get?_update, get?_update, hstate, h.others id' hid' hp']
    · rw [get?_update, get?_update, if_neg hne.symm, if_neg hne.symm, h.result]
    · rw [get?_update, get?_update, if_neg hne', if_neg hne.symm, h.run]
    · rw [state_update, if_neg hne.symm]
      exact h.sound

theorem shows_ongoing : Shows (Ongoing t p q) id where
  state h := (shows_mirrored hid hne hq).state h.toMirrored
  update change h := by
    refine ⟨(shows_mirrored hid hne hq).update change h.toMirrored, ?_⟩
    rw [get?_update, if_neg hne.symm]
    exact h.present

end Shows

/-- A run that goes on under both names. -/
theorem sharesRun_ongoing (hp : t.Names p) (hq : ¬ t.Names q) : SharesRun (Ongoing t p q) p q where
  cursor h := h.cursor
  update {s s' change} hchange h := by
    have hne := hp.ne hq
    -- Without a state of `p`, its result would come to be on the first side only.
    obtain ⟨x, hx⟩ := Option.isSome_iff_exists.mp h.present
    have hstate : s.state p = x := by rw [state, hx, Option.getD_some]
    refine ⟨⟨fun id hid hid' => ?_, ?_, ?_, ?_⟩, ?_⟩
    · rw [get?_update, get?_update, if_neg hid', if_neg (hid.ne hq), h.others id hid hid']
    · rw [get?_update, get?_update, if_neg hne, if_pos rfl, h.result, hx, hstate]
      rfl
    · rw [get?_update, get?_update, if_pos rfl, if_pos rfl]
      exact congrArg some (hchange.cursor h.cursor).symm
    · rw [state_update, if_pos rfl]
      exact hchange.sound h.sound
    · rw [get?_update, if_pos rfl]
      rfl

theorem Ongoing.update_right (h : Ongoing t p q s s') (hp : t.Names p) (hid : ¬ t.Names id)
    (hne : id ≠ q) (change : NodeState → NodeState) : Ongoing t p q s (s'.update id change) := by
  refine ⟨⟨fun id' hid' hp' => ?_, ?_, ?_, h.sound⟩, h.present⟩
  · rw [get?_update, if_neg (hid'.ne hid), h.others id' hid' hp']
  · rw [get?_update, if_neg (hp.ne hid), h.result]
  · rw [get?_update, if_neg hne.symm, h.run]

end Store

namespace Index

variable (ix : Index) (m : Moment) (room : Nat) (a : Fin ix.size) (status : Status) (f : Frame)

theorem store_enter :
    (ix.enter m room a f).store = f.store.update (ix.name a) (·.begun m.delta) := rfl

theorem store_leave : (ix.leave a status f).store = f.store.update (ix.name a) (·.ended status) :=
  rfl

end Index

namespace Frame.Like

variable {t : Tree} {p q : String} {G : Generator → Generator → Prop} {f g : Frame} {ix ix' : Index}
  {a : Fin ix.size} {a' b w : Fin ix'.size}

theorem enter_right (h : f.Like (Store.Ongoing t p q) G g) (hp : t.Names p)
    (hw : ¬ t.Names (ix'.name w)) (hne : ix'.name w ≠ q) (m : Moment) (room : Nat) :
    f.Like (Store.Ongoing t p q) G (ix'.enter m room w g) where
  world := h.world
  blackboard := h.blackboard
  saved := h.saved
  store := by
    rw [Index.store_enter]
    exact h.store.update_right hp hw hne _
  generator := h.generator
  messages := by rw [Index.messagesOf_enter, h.messages]

theorem leave_right (h : f.Like (Store.Ongoing t p q) G g) (hp : t.Names p)
    (hw : ¬ t.Names (ix'.name w)) (hne : ix'.name w ≠ q) (status : Status) :
    f.Like (Store.Ongoing t p q) G (ix'.leave w status g) where
  world := h.world
  blackboard := h.blackboard
  saved := h.saved
  store := by
    rw [Index.store_leave]
    exact h.store.update_right hp hw hne _
  generator := h.generator
  messages := by rw [Index.messagesOf_leave, h.messages]

theorem enter_mirrored (h : f.Like (Store.Mirrored t p q) G g) (hp : t.Names p) (hq : ¬ t.Names q)
    (ha : ix.name a = p) (ha' : ix'.name a' = p) (hb : ix'.name b = q) (m : Moment)
    (room room' room'' : Nat) :
    (ix.enter m room a f).Like (Store.Ongoing t p q) G
      (ix'.enter m room'' b (ix'.enter m room' a' g)) where
  world := h.world
  blackboard := h.blackboard
  saved := h.saved
  store := by
    rw [Index.store_enter, Index.store_enter, Index.store_enter, ha, ha', hb]
    exact h.store.begun hp hq m.delta
  generator := h.generator
  messages := by
    rw [Index.messagesOf_enter, Index.messagesOf_enter, Index.messagesOf_enter, h.messages]

theorem leave_ongoing (h : f.Like (Store.Ongoing t p q) G g) (hp : t.Names p) (hq : ¬ t.Names q)
    (ha : ix.name a = p) (ha' : ix'.name a' = p) (hb : ix'.name b = q) (status status' : Status) :
    (ix.leave a status f).Like (Store.Mirrored t p q) G
      (ix'.leave a' status (ix'.leave b status' g)) where
  world := h.world
  blackboard := h.blackboard
  saved := h.saved
  store := by
    rw [Index.store_leave, Index.store_leave, Index.store_leave, ha, ha', hb]
    exact h.store.ended hp hq status status'
  generator := h.generator
  messages := by
    rw [Index.messagesOf_leave, Index.messagesOf_leave, Index.messagesOf_leave, h.messages]

end Frame.Like

end BehaviorTree
