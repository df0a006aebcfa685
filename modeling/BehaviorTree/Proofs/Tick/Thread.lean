import BehaviorTree.Proofs.Tick.Locality
import BehaviorTree.Proofs.Tick.Visit

/-!
# Threads of visits

Where no cycle can be reached, the state of a node changes in its own ticks only: each visit meets
the state that the one before left, over all ticks of a tree.
-/

namespace BehaviorTree

open Relation

/-- Whether the visits of a node meet its state as the one before left it, the first from a given
state on and the last up to a given one. -/
def Threads {n : Nat} (id : String) : NodeState → List (Visit n) → NodeState → Prop
  | state, [], final => state = final
  | state, v :: rest, final => v.before.state id = state ∧ Threads id (v.after.state id) rest final

theorem Threads.append {n : Nat} {id : String} {s t u : NodeState} {xs ys : List (Visit n)}
    (hxs : Threads id s xs t) (hys : Threads id t ys u) : Threads id s (xs ++ ys) u := by
  induction xs generalizing s with
  | nil =>
    cases hxs
    exact hys
  | cons v rest ih => exact ⟨hxs.1, ih hxs.2⟩

namespace Index

/-- Whether the visits of a position, among some that lie between two frames, meet its state as the
one before left it. -/
def Follows (ix : Index) (p : Fin ix.size) (f : Frame) (vs : List (Visit ix.size)) (g : Frame) :
    Prop :=
  Threads (ix.name p) (f.state (ix.name p)) (vs.filter (·.node = p)) (g.state (ix.name p))

theorem Follows.append {ix : Index} {p : Fin ix.size} {f g h : Frame} {xs ys : List (Visit ix.size)}
    (hxs : ix.Follows p f xs g) (hys : ix.Follows p g ys h) : ix.Follows p f (xs ++ ys) h := by
  rw [Follows, List.filter_append]
  exact Threads.append hxs hys

variable {t : Tree} {m : Moment} {p q : Fin (build t).size}

theorem visits_self (hfree : (build t).CycleFree) (hp : (build t).Reachable p) (room : Nat)
    (f : Frame) : ((build t).visits m (room + 1) p f).filter (·.node = p) =
      [(build t).visit m room p f] := by
  have hrest : ((((build t).visit m room p f).calls.flatMap fun c =>
      (build t).visits m room c.child c.before).filter (·.node = p)) = [] := by
    rw [List.filter_eq_nil_iff]
    intro v hv
    obtain ⟨c, hc, hvisits⟩ := List.mem_flatMap.mp hv
    rw [decide_eq_true_eq]
    intro hnode
    have hback := (mem_visits hvisits).1
    rw [hnode] at hback
    exact hfree p hp (TransGen.head' (edge_of_mem_calls hc) hback)
  rw [visits, List.filter_cons_of_pos (by exact decide_eq_true rfl), hrest]

/-- Between the ticks of its children a node leaves the states of others alone. -/
theorem state_stretches (hne : (build t).name p ≠ (build t).name q) (f : Frame) :
    ((build t).script m q f).Stretches
      (fun f g => g.state ((build t).name p) = f.state ((build t).name p)) f := by
  rw [script]
  cases ((build t).slot q).definition with
  | none => rfl
  | some d =>
    refine (stretches_script m ⟨((build t).slot q).node, d⟩ ((build t).slot q).children f).imp ?_
    intro f g h
    exact Frame.state_congr (h.get?_of_ne hne)

theorem follows_tick (hfree : (build t).CycleFree) (hp : (build t).Reachable p) (room : Nat)
    (hq : (build t).Reachable q) (f : Frame) :
    (build t).Follows p f ((build t).visits m room q f) (tick (build t) m room q f).2 := by
  induction room generalizing q f with
  | zero => rfl
  | succ room ih =>
    by_cases heq : q = p
    · subst heq
      rw [Follows, visits_self hfree hp]
      exact ⟨rfl, rfl⟩
    · have hne : (build t).name p ≠ (build t).name q :=
        fun h => heq (name_injective_of_reachable hp hq h).symm
      have hticks : ∀ c, (build t).Edge q c → ∀ f,
          (build t).Follows p f ((build t).visits m room c f) (tick (build t) m room c f).2 :=
        fun c hc => ih (reachable_step hq hc)
      have hscript := Script.run_tells (r := (build t).Follows p) Follows.append hticks
        ((state_stretches hne ((build t).enter m room q f)).imp fun _ _ h => h.symm)
        (calls_script _ m q _)
      have henter : ((build t).enter m room q f).state ((build t).name p) =
          f.state ((build t).name p) :=
        Frame.state_congr (get?_enter_of_ne m room f hne)
      have hleave : ∀ status g, ((build t).leave q status g).state ((build t).name p) =
          g.state ((build t).name p) :=
        fun status g => Frame.state_congr (get?_leave_of_ne g hne status)
      rw [Follows] at hscript ⊢
      rw [visits, List.filter_cons_of_neg (by rw [decide_eq_true_eq]; exact heq), tick_succ]
      dsimp only
      rw [hleave, ← henter]
      exact hscript

end Index

namespace Executor

variable {t : Tree} {p : Fin (Index.build t).size} {e : Executor}

private theorem threads_visits (hfree : (Index.build t).CycleFree)
    (hp : (Index.build t).Reachable p) (he : e.currentIndex = .build t) (i : Input) :
    Threads ((Index.build t).name p) (e.store.state ((Index.build t).name p))
      ((e.visits (.build t) i).filter (·.node = p))
      ((e.execute i.agent i.dt i.scene).executor.store.state ((Index.build t).name p)) := by
  rw [visits]
  cases hroot : (Index.build t).root with
  | none =>
    rw [execute_of_rootless (by rw [he]; exact hroot)]
    rfl
  | some root =>
    rw [execute_of_index he hroot]
    exact Index.follows_tick hfree hp _ ⟨root, hroot, .refl⟩ (e.start i.scene)

/-- Over all ticks of a tree each visit of a node meets the state that the one before left. -/
theorem threads_history (hfree : (Index.build t).CycleFree) (hp : (Index.build t).Reachable p)
    (he : e.currentIndex = .build t) (inputs : List Input) :
    Threads ((Index.build t).name p) (e.store.state ((Index.build t).name p))
      ((history (.build t) e inputs).filter (·.node = p))
      ((e.after inputs).store.state ((Index.build t).name p)) := by
  induction inputs generalizing e with
  | nil => rfl
  | cons i rest ih =>
    rw [history, List.filter_append]
    have hnext := (currentIndex_execute e i.agent i.dt i.scene).trans he
    exact (threads_visits hfree hp he i).append (ih hnext)

theorem of_mem_visits {ix : Index} {i : Input} {v : Visit ix.size} (h : v ∈ e.visits ix i) :
    ix.Reachable v.node ∧ ∃ room f, v = ix.visit ⟨i.agent, clampStep i.dt⟩ room v.node f := by
  rw [visits] at h
  cases hroot : ix.root with
  | none => simp [hroot] at h
  | some root =>
    rw [hroot] at h
    obtain ⟨hreach, hvisit⟩ := Index.mem_visits h
    exact ⟨⟨root, hroot, hreach⟩, hvisit⟩

theorem mem_history {ix : Index} {inputs : List Input} {v : Visit ix.size}
    (h : v ∈ history ix e inputs) :
    ix.Reachable v.node ∧ ∃ m room f, v = ix.visit m room v.node f := by
  induction inputs generalizing e with
  | nil => simp [history] at h
  | cons i rest ih =>
    rcases List.mem_append.mp h with h | h
    · obtain ⟨hreach, hvisit⟩ := of_mem_visits h
      exact ⟨hreach, _, hvisit⟩
    · exact ih h

end Executor

end BehaviorTree
