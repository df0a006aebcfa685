import BehaviorTree.Proofs.Executor.Run
import BehaviorTree.Proofs.Random.Shuffle

/-!
# Sound states

Whatever a host does, the orders kept in the states of nodes are permutations and the counts of
runs are below the largest number, also where a node is ticked again within its own tick.
-/

namespace BehaviorTree

/-- A memory that no lookup by an order and no count of one more run comes to grief on. -/
structure Memory.Sound (m : Memory) : Prop where
  order : ∀ order ∈ m.shuffledIndices, order.Perm (List.range order.length)
  iteration : m.iteration.toNat < UInt32.size - 1

namespace Memory

theorem sound_initial : initial.Sound := ⟨by simp [initial], by decide⟩

theorem Sound.endRun {m : Memory} (h : m.Sound) : m.endRun.Sound :=
  ⟨by simp [Memory.endRun], h.iteration⟩

theorem Sound.shuffle {m : Memory} (h : m.Sound) (count : Nat) (g : Generator) :
    Sound { m with currentIndex := 0, shuffledIndices := some (g.shuffle count).1 } where
  order := by
    intro order horder
    rw [← Option.some.inj horder, Generator.length_shuffle]
    exact Generator.shuffle_perm count g
  iteration := h.iteration

theorem Sound.perm_drawnOrder {f : Frame} {id : String} (h : (f.memory id).Sound) (count : Nat) :
    (Composite.drawnOrder id count f).1.Perm (List.range count) := by
  rw [Composite.drawnOrder]
  split
  · rename_i order horder
    obtain ⟨hmem, hlength⟩ := Option.filter_eq_some_iff.mp horder
    have hperm := h.order order hmem
    rwa [of_decide_eq_true hlength] at hperm
  · exact Generator.shuffle_perm count f.generator

end Memory

namespace Store

def Sound (s : Store) : Prop := ∀ id state, s.get? id = some state → state.memory.Sound

theorem sound_iff {s : Store} : s.Sound ↔ ∀ id, (s.state id).memory.Sound := by
  constructor
  · intro h id
    rw [state]
    cases hid : s.get? id with
    | none => exact Memory.sound_initial
    | some state => exact h id state hid
  · intro h id state hid
    have hstate : s.state id = state := by rw [Store.state, hid, Option.getD_some]
    exact hstate ▸ h id

theorem sound_empty : Sound ∅ := sound_iff.mpr fun _ => Memory.sound_initial

theorem Sound.update {s : Store} (h : s.Sound) (id : String) {change : NodeState → NodeState}
    (hchange : ∀ state, state.memory.Sound → (change state).memory.Sound) :
    (s.update id change).Sound := by
  rw [sound_iff] at h ⊢
  intro id'
  rw [state_update]
  split
  · exact hchange _ (h id)
  · exact h id'

theorem Sound.perm_drawnOrder {f : Frame} (h : f.store.Sound) (id : String) (count : Nat) :
    (Composite.drawnOrder id count f).1.Perm (List.range count) :=
  Memory.Sound.perm_drawnOrder (sound_iff.mp h id) count

end Store

theorem Effect.sound {m : Moment} {s : Settings} {f g : Frame} (h : Effect m s f g)
    (hf : f.store.Sound) : g.store.Sound := by
  cases h with
  | endRun => exact hf.update _ fun _ hs => hs.endRun
  | shuffle count => exact hf.update _ fun _ hs => hs.shuffle count f.generator
  | count iteration limit hlt =>
    refine hf.update _ fun _ hs => ⟨hs.order, ?_⟩
    have hle := limit.toNat_lt_size
    have hlt' := UInt32.lt_iff_toNat_lt.mp hlt
    dsimp only
    omega
  | linger waitTime count =>
    refine hf.update _ fun state hs => ?_
    dsimp only
    rw [Action.lingering]
    split
    · exact ⟨hs.order, hs.iteration⟩
    · exact ⟨hs.order, hs.iteration⟩
  | stay _ | complete | elapse _ | strike _ | turn _ | arrive =>
    exact hf.update _ fun _ hs => ⟨hs.order, hs.iteration⟩
  | move _ _ | halt _ | send _ | write _ _ | draw => exact hf

theorem Effects.sound {m : Moment} {s : Settings} {f g : Frame} (h : Effects m s f g)
    (hf : f.store.Sound) : g.store.Sound := by
  induction h with
  | refl => exact hf
  | tail _ hstep ih => exact hstep.sound ih

theorem Index.sound_enter (ix : Index) (m : Moment) (room : Nat) (p : Fin ix.size) {f : Frame}
    (h : f.store.Sound) : (ix.enter m room p f).store.Sound :=
  h.update _ fun _ hs => hs

private theorem respects_sound (ix : Index) (m : Moment) :
    Respects ix m fun _ _ f g => f.store.Sound → g.store.Sound where
  refl _ _ _ h := h
  trans hfg hgh h := hgh (hfg h)
  deep _ _ h := h
  enter room p _ h := ix.sound_enter m room p h
  leave _ _ _ _ h := h.update _ fun _ hs => hs
  effect _ he h := he.sound h
  child _ hr h := hr h

theorem sound_tick (ix : Index) (m : Moment) (room : Nat) (p : Fin ix.size) {f : Frame}
    (h : f.store.Sound) : (tick ix m room p f).2.store.Sound :=
  (respects_sound ix m).tick room p f h

/-- The states of an executor are always sound. -/
theorem Executor.Reachable.sound {e : Executor} (h : e.Reachable) : e.store.Sound := by
  induction h with
  | new t g => exact Store.sound_empty
  | @execute e agent dt scene _ ih =>
    cases hroot : e.currentIndex.root with
    | none =>
      rw [execute_of_rootless hroot]
      exact ih
    | some root =>
      rw [execute_of_root hroot]
      exact sound_tick _ _ _ root ih
  | edit change _ ih => exact ih
  | reset _ _ => exact Store.sound_empty
  | restore _ _ _ ih => exact ih

end BehaviorTree
