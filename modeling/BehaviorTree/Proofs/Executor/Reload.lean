import BehaviorTree.Proofs.Executor.Play
import BehaviorTree.Proofs.Store
import BehaviorTree.Proofs.Tree.Codec

/-!
# Reloading

A tree and its states that are written to free values and read back go on as they would have. Nodes
that draw from the generator are the exception, since the generator is not written.
-/

namespace BehaviorTree

def Tree.Drawless (t : Tree) : Prop :=
  ∀ n ∈ t.nodes, n.type ∉ ["random", "random_selector", "random_sequence"]

instance (t : Tree) : Decidable t.Drawless :=
  inferInstanceAs (Decidable (∀ n ∈ t.nodes, n.type ∉ _))

theorem Catalog.type_of_draws {type : String} {d : Definition} (h : lookup type = some d)
    (hdraws : d.kind.draws) : type ∈ ["random", "random_selector", "random_sequence"] := by
  have hall : ∀ d ∈ definitions, d.kind.draws →
      d.typeName ∈ ["random", "random_selector", "random_sequence"] := by
    decide
  have htype : d.typeName = type := by simpa using List.find?_some h
  exact htype ▸ hall d (List.mem_of_find?_eq_some h) hdraws

namespace Index

variable {t : Tree}

/-- A tree that draws nothing is ticked alike whatever its generator. -/
theorem simulates_drawless (h : t.Drawless) :
    Simulates (build t) (build t) (· = ·) (fun _ _ => True)
      fun room p room' p' => room = room' ∧ p = p' where
  room := by
    rintro room p room' p' ⟨rfl, rfl⟩
    rfl
  slot := by
    rintro room p room' p' ⟨hroom, rfl⟩
    refine .of_node rfl rfl (List.forall₂_same.mpr fun c _ => ⟨Nat.succ_inj.mp hroom, rfl⟩)
  shows _ := Store.shows_eq _
  draws := by
    rintro room p room' p' - d hd hdraws
    rw [slot_build] at hd
    exact absurd (Catalog.type_of_draws hd hdraws) (h _ (List.get_mem _ p))

theorem rootsAlike_drawless (h : t.Drawless) :
    Executor.RootsAlike (· = ·) (fun _ _ => True) (build t) (build t) := by
  rw [Executor.RootsAlike]
  cases (build t).root with
  | none => exact .none
  | some root => exact .some fun m f g hf => (simulates_drawless h).alike_tick ⟨rfl, rfl⟩ hf

end Index

namespace Executor

theorem tree_create (t : Tree) (seed : Option UInt64) (unseeded : Generator) :
    (create t seed unseeded).tree = t := by
  cases seed <;> rfl

/-- A tree that draws nothing is read back, with states that a free value can hold, and goes on as it
would have, whatever the new generator. -/
theorem play_reload {e : Executor} (he : e.Reachable) (hdrawless : e.tree.Drawless)
    (hstore : e.store.Keepable) (seed : Option UInt64) (unseeded : Generator) :
    ∃ t s, Tree.ofValue? e.tree.toValue = some t ∧
      Store.read (Json.ofDocument e.store.document).document = some s ∧
      ∀ scene turns, List.Forall₂ (Executed.Like (· = ·) fun _ _ => True) (e.play scene turns)
        (((create t seed unseeded).restore s).play scene turns) := by
  refine ⟨e.tree, e.store, Tree.ofValue?_toValue e.tree, Store.read_kept hstore, ?_⟩
  intro scene turns
  have htree := tree_create e.tree seed unseeded
  have hindex : ((create e.tree seed unseeded).restore e.store).currentIndex = .build e.tree :=
    currentIndex_create e.tree seed unseeded
  have hlike : e.Like (· = ·) (fun _ _ => True) ((create e.tree seed unseeded).restore e.store) :=
    ⟨congrArg (·.blackboard) htree.symm, rfl, trivial⟩
  exact like_play he.currentIndex_eq hindex (Index.rootsAlike_drawless hdrawless) hlike scene turns

theorem play_reload_waiting :
    let e := ((ofSeed (.single "wait" []) 1).execute "" 0.5 ⟨∅, ∅⟩).executor
    let turn : Turn := ⟨"", 0.25, id⟩
    e.tree.Drawless ∧ e.store ≠ ∅ ∧ e.store.Keepable ∧
      ∃ t s, Tree.ofValue? e.tree.toValue = some t ∧
        Store.read (Json.ofDocument e.store.document).document = some s ∧
        List.Forall₂ (Executed.Like (· = ·) fun _ _ => True) (e.play ⟨∅, ∅⟩ [turn, turn])
          (((create t (some 2) ⟨0⟩).restore s).play ⟨∅, ∅⟩ [turn, turn]) := by
  intro e turn
  have he : e.Reachable := .execute _ _ _ (.new _ _)
  have hdrawless : e.tree.Drawless := by decide +kernel
  have hstore : e.store ≠ ∅ := by decide +kernel
  have hkeepable : e.store.Keepable := by decide +kernel
  obtain ⟨t, s, ht, hs, hplay⟩ := play_reload he hdrawless hkeepable (some 2) ⟨0⟩
  exact ⟨hdrawless, hstore, hkeepable, t, s, ht, hs, hplay _ _⟩

end Executor

end BehaviorTree
