import BehaviorTree.Proofs.Executor.Run
import BehaviorTree.Proofs.Walk

/-!
# Depth

Every tick in the journal is at the end of a walk from the root, as deep as the walk has steps. So
the bound on the depth is met through a cycle only, and in a tree that passes the validity check no
node is ticked that is not fit for it.
-/

namespace BehaviorTree

open Relation

namespace Index

/-- Whether a tick of a position may write an entry, where so many more nodes may be ticked within
one another. -/
def Places (ix : Index) (room : Nat) (p : Fin ix.size) : Entry → Prop
  | .began id depth =>
    ∃ k q, Walk ix.Edge k p q ∧ k < room ∧ ix.name q = id ∧ depth + room = ix.size + 1 + k
  | .tooDeep id => ∃ q, Walk ix.Edge room p q ∧ ix.name q = id
  | .ended _ _ | .shuffled _ _ | .logged _ => True

theorem places_child {ix : Index} {room : Nat} {p c : Fin ix.size} (hc : ix.Edge p c)
    {entry : Entry} (h : ix.Places room c entry) : ix.Places (room + 1) p entry := by
  cases entry with
  | began id depth =>
    obtain ⟨k, q, hwalk, hk, hname, hdepth⟩ := h
    exact ⟨k + 1, q, .step hc hwalk, by omega, hname, by omega⟩
  | tooDeep id =>
    obtain ⟨q, hwalk, hname⟩ := h
    exact ⟨q, .step hc hwalk, hname⟩
  | ended _ _ => trivial
  | shuffled _ _ => trivial
  | logged _ => trivial

private theorem places_push {ix : Index} {room : Nat} {p : Fin ix.size} {e : Entry}
    (he : ix.Places room p e) (journal : Array Entry) :
    ∀ entry ∈ journal.push e, entry ∈ journal ∨ ix.Places room p entry := by
  intro entry h
  rcases Array.mem_push.mp h with h | rfl
  · exact .inl h
  · exact .inr he

private theorem places_effect {ix : Index} {m : Moment} {s : Settings} {f g : Frame}
    (h : Effect m s f g) (room : Nat) (p : Fin ix.size) :
    ∀ entry ∈ g.journal, entry ∈ f.journal ∨ ix.Places room p entry := by
  rcases h.journal with hj | ⟨id, count, hj⟩ | ⟨message, hj⟩
  · rw [hj]
    exact fun _ => .inl
  · rw [hj]
    exact places_push (e := .shuffled id count) trivial f.journal
  · rw [hj]
    exact places_push (e := .logged message) trivial f.journal

private theorem respects_places (ix : Index) (m : Moment) :
    Respects ix m fun room p f g => room ≤ ix.size + 1 →
      ∀ entry ∈ g.journal, entry ∈ f.journal ∨ ix.Places room p entry where
  refl _ _ _ _ _ h := .inl h
  trans hfg hgh hroom entry h := by
    rcases hgh hroom entry h with h | h
    · exact hfg hroom entry h
    · exact .inr h
  deep p f _ := places_push (e := .tooDeep (ix.name p)) ⟨p, .here p, rfl⟩ f.journal
  enter room p f hroom := by
    have hplaces : ix.Places (room + 1) p (.began (ix.name p) (ix.size - room)) :=
      ⟨0, p, .here p, by omega, rfl, by omega⟩
    exact places_push hplaces f.journal
  leave room p status f _ := places_push (e := .ended (ix.name p) status) trivial f.journal
  effect _ he _ := places_effect he _ _
  child hc hr hroom entry h := by
    rcases hr (by omega) entry h with h | h
    · exact .inl h
    · exact .inr (places_child hc h)

end Index

namespace Executor

/-- Every entry of a journal belongs to a walk from the root. -/
theorem places_of_mem_journal {e : Executor} {agent : String} {dt : Float32} {scene : Scene}
    {entry : Entry} (h : entry ∈ (e.execute agent dt scene).journal) :
    ∃ root, e.currentIndex.root = some root ∧
      e.currentIndex.Places (e.currentIndex.size + 1) root entry := by
  cases hroot : e.currentIndex.root with
  | none =>
    rw [execute_of_rootless hroot] at h
    exact absurd h (Array.not_mem_empty entry)
  | some root =>
    rw [execute_of_root hroot] at h
    have hplaces := (Index.respects_places e.currentIndex ⟨agent, clampStep dt⟩).tick
      (e.currentIndex.size + 1) root (e.start scene) le_rfl entry h
    exact ⟨root, rfl, hplaces.resolve_left (Array.not_mem_empty entry)⟩

end Executor

namespace Index

variable {ix : Index} {root : Fin ix.size}

theorem lt_size_of_cycleFree (hroot : ix.root = some root) (hfree : ix.CycleFree) {k : Nat}
    {q : Fin ix.size} (hwalk : Walk ix.Edge k root q) : k < ix.size := by
  have hlt := hwalk.length_lt_card fun c hc => hfree c ⟨root, hroot, hc⟩
  rwa [Fintype.card_fin] at hlt

theorem not_places_tooDeep (hroot : ix.root = some root) (hfree : ix.CycleFree) (id : String) :
    ¬ ix.Places (ix.size + 1) root (.tooDeep id) := by
  rintro ⟨q, hwalk, -⟩
  have hlt := lt_size_of_cycleFree hroot hfree hwalk
  omega

end Index

namespace Tree

/-- Whether a node is fit to be ticked so many ticks of other nodes deep: no more than there are
other nodes, with a type that is known, and with as many children as the type requires. -/
def Fit (t : Tree) (p : Fin (Index.build t).size) (depth : Nat) : Prop :=
  depth ≤ t.nodes.length - 1 ∧ ∃ d, ((Index.build t).slot p).definition = some d ∧
    match d.kind with
    | .composite _ => 1 ≤ ((Index.build t).slot p).children.length
    | .decorator _ => ((Index.build t).slot p).children.length = 1
    | .action _ | .condition _ => ((Index.build t).slot p).children.length = 0

theorem WellFormed.fits_build {t : Tree} (h : t.WellFormed) {p : Fin (Index.build t).size}
    {d : Definition} (hd : ((Index.build t).slot p).definition = some d) :
    Fits d ((Index.build t).slot p).children.length := by
  rw [h.length_children_build, Index.name_build]
  rw [Index.slot_build] at hd
  exact h.fitting (t.nodes.get p) (List.get_mem _ p) d hd

theorem WellFormed.fit {t : Tree} (h : t.WellFormed) {root p : Fin (Index.build t).size}
    (hroot : (Index.build t).root = some root) {k : Nat}
    (hwalk : Walk (Index.build t).Edge k root p) : t.Fit p k := by
  have hlt : k < t.nodes.length :=
    Index.lt_size_of_cycleFree hroot (Index.cycleFree_of_acyclic h.acyclic) hwalk
  obtain ⟨d, hd⟩ := h.definition_build p
  obtain ⟨hmin, hmax⟩ := h.fits_build hd
  refine ⟨by omega, d, hd, ?_⟩
  rw [Definition.category] at hmin hmax
  cases hkind : d.kind with
  | composite c =>
    rw [hkind] at hmin
    exact hmin
  | decorator c =>
    rw [hkind] at hmin hmax
    exact le_antisymm (hmax 1 rfl) hmin
  | action c | condition c =>
    rw [hkind] at hmax
    exact Nat.le_zero.mp (hmax 0 rfl)

end Tree

namespace Executor

theorem currentIndex_after (t : Tree) (g : Generator) (inputs : List Input) :
    ((ofGenerator t g).after inputs).currentIndex = .build t := by
  obtain ⟨b, hb⟩ := tree_after (ofGenerator t g) inputs
  rw [((Reachable.new t g).after inputs).currentIndex_eq, hb]
  rfl

/-- A tick is given up as too deep only where the root leads to a cycle, and while a tree runs that
passes the validity check, its root is found, no tick is too deep, and every node that is ticked is
fit for it. -/
theorem degrades_only_if_cyclic :
    (∀ e : Executor, e.Reachable → ∀ agent dt scene id,
      .tooDeep id ∈ (e.execute agent dt scene).journal →
        ∃ root, e.tree.root = some root ∧
          ∃ id, ReflTransGen e.tree.Joins root id ∧ TransGen e.tree.Joins id id) ∧
    (∀ t : Tree, t.validate = .ok () → ∀ g inputs agent dt scene,
      let e := (ofGenerator t g).after inputs
      (∃ root, e.currentIndex.root = some root) ∧
        (∀ id, .tooDeep id ∉ (e.execute agent dt scene).journal) ∧
          ∀ id depth, .began id depth ∈ (e.execute agent dt scene).journal →
            ∃ p, (Index.build t).name p = id ∧ t.Fit p depth) := by
  constructor
  · intro e he agent dt scene id hdeep
    apply Index.exists_cycle_of_not_cycleFree
    intro hfree
    obtain ⟨root, hroot, hplaces⟩ := places_of_mem_journal hdeep
    rw [← he.currentIndex_eq] at hfree
    exact Index.not_places_tooDeep hroot hfree id hplaces
  · intro t ht g inputs agent dt scene e
    have hwf : t.WellFormed := Tree.fault?_eq_none_iff.mp (Tree.validate_eq_ok_iff.mp ht)
    have hindex : e.currentIndex = .build t := currentIndex_after t g inputs
    refine ⟨by rw [hindex]; exact hwf.root_build, fun id hdeep => ?_, fun id depth hbegan => ?_⟩
    · have hplaced := places_of_mem_journal hdeep
      rw [hindex] at hplaced
      obtain ⟨root, hroot, hplaces⟩ := hplaced
      exact Index.not_places_tooDeep hroot (Index.cycleFree_of_acyclic hwf.acyclic) id hplaces
    · have hplaced := places_of_mem_journal hbegan
      rw [hindex] at hplaced
      obtain ⟨root, hroot, hplaces⟩ := hplaced
      obtain ⟨k, q, hwalk, -, hname, hdepth⟩ := hplaces
      have hk : depth = k := by omega
      exact ⟨q, hname, hk ▸ hwf.fit hroot hwalk⟩

/-- A decorator that is its own child is given up as too deep, and a condition is ticked. -/
theorem degrades_only_if_cyclic_single :
    (let e := ofGenerator (.single "inverter" ["root"]) ⟨0⟩
     .tooDeep "root" ∈ (e.execute "" 0 ⟨∅, ∅⟩).journal ∧
       ∃ root, e.tree.root = some root ∧
         ∃ id, ReflTransGen e.tree.Joins root id ∧ TransGen e.tree.Joins id id) ∧
    (let t := Tree.single "always" []
     let e := ofGenerator t ⟨0⟩
     t.validate = .ok () ∧ (∃ root, e.currentIndex.root = some root) ∧
       .began "root" 0 ∈ (e.execute "" 0 ⟨∅, ∅⟩).journal ∧
         ∃ p, (Index.build t).name p = "root" ∧ t.Fit p 0) := by
  constructor
  · have hdeep : .tooDeep "root" ∈
        ((ofGenerator (.single "inverter" ["root"]) ⟨0⟩).execute "" 0 ⟨∅, ∅⟩).journal := by
      decide +kernel
    exact ⟨hdeep, degrades_only_if_cyclic.1 _ (.new _ _) "" 0 ⟨∅, ∅⟩ "root" hdeep⟩
  · have hvalid : (Tree.single "always" []).validate = .ok () := by decide
    have hbegan : .began "root" 0 ∈
        ((ofGenerator (.single "always" []) ⟨0⟩).execute "" 0 ⟨∅, ∅⟩).journal := by
      decide +kernel
    obtain ⟨hroot, -, hfit⟩ := degrades_only_if_cyclic.2 _ hvalid ⟨0⟩ [] "" 0 ⟨∅, ∅⟩
    exact ⟨hvalid, hroot, hbegan, hfit "root" 0 hbegan⟩

end Executor

end BehaviorTree
