import BehaviorTree.Tree.Validity
import Mathlib.Data.List.Chain
import Mathlib.Data.List.Perm.Subperm
import Mathlib.Logic.Relation

/-!
# Cycles of connections

The search of the validity check meets a node while inside it exactly if the connections have a
cycle. What it meets lies on one, and what it has finished leads to none.
-/

namespace BehaviorTree.Tree

open Relation

def Connects (t : Tree) (a b : String) : Prop := ∃ c ∈ t.connections, c.parent = a ∧ c.child = b

/-- No name is led back to itself. -/
def Acyclic (t : Tree) : Prop := ∀ id, ¬ TransGen t.Connects id id

/-- From a settled name no way through the connections is endless. -/
def Settled (t : Tree) (id : String) : Prop := Acc (Function.swap t.Connects) id

/-- The names that a search is inside of, innermost first: each is connected from the next one. -/
def Trail (t : Tree) (path : List String) : Prop :=
  path.IsChain fun inner outer => t.Connects outer inner

theorem mem_successors {t : Tree} {a b : String} : b ∈ t.successors a ↔ t.Connects a b := by
  simp [successors, Connects, and_assoc]

private theorem trail_mem_connects {t : Tree} {path : List String} {outer inner : String}
    (h : t.Trail (inner :: path)) (hm : outer ∈ path) : TransGen t.Connects outer inner := by
  induction path generalizing inner with
  | nil => simp at hm
  | cons a rest ih =>
    obtain ⟨hstep, hrest⟩ := List.isChain_cons_cons.mp h
    rcases List.mem_cons.mp hm with rfl | hm
    · exact .single hstep
    · exact .tail (ih hrest hm) hstep

private theorem trail_dropLast_child {t : Tree} {path : List String} (h : t.Trail path) :
    ∀ id ∈ path.dropLast, id ∈ t.connections.map (·.child) := by
  induction path with
  | nil => simp
  | cons a rest ih =>
    cases rest with
    | nil => simp
    | cons b rest =>
      obtain ⟨⟨c, hc, -, rfl⟩, hrest⟩ := List.isChain_cons_cons.mp h
      intro id hid
      rw [List.dropLast_cons_cons, List.mem_cons] at hid
      rcases hid with rfl | hid
      · exact List.mem_map.mpr ⟨c, hc, rfl⟩
      · exact ih hrest id hid

theorem trail_length_le {t : Tree} {path : List String} (h : t.Trail path) (hn : path.Nodup) :
    path.length ≤ t.connections.length + 1 := by
  have hsub : path.dropLast ⊆ t.connections.map (·.child) := trail_dropLast_child h
  have hlen := ((hn.sublist (List.dropLast_sublist path)).subperm hsub).length_le
  rw [List.length_dropLast, List.length_map] at hlen
  omega

private theorem foldlM_error {α β : Type} {f : β → α → Except String β} {xs : List α} {b : β}
    {e : String} (h : xs.foldlM f b = .error e) : ∃ x ∈ xs, ∃ b, f b x = .error e := by
  induction xs generalizing b with
  | nil => simp [pure, Except.pure] at h
  | cons x xs ih =>
    rw [List.foldlM_cons] at h
    cases hx : f b x with
    | error e' =>
      rw [hx] at h
      cases h
      exact ⟨x, List.mem_cons_self, b, hx⟩
    | ok b' =>
      rw [hx] at h
      obtain ⟨y, hy, hf⟩ := ih h
      exact ⟨y, List.mem_cons_of_mem x hy, hf⟩

/-- What a search meets while inside it lies on a cycle. -/
theorem visit_error {t : Tree} {fuel : Nat} {path finished : List String} {id found : String}
    (ht : t.Trail (id :: path)) (h : t.visit fuel path finished id = .error found) :
    TransGen t.Connects found found := by
  induction fuel generalizing path finished id with
  | zero => simp [visit] at h
  | succ fuel ih =>
    simp only [visit] at h
    split at h
    · rename_i hm
      cases h
      exact trail_mem_connects ht hm
    · split at h
      · cases h
      · split at h
        · rename_i hfold
          cases h
          obtain ⟨child, hchild, before, hvisit⟩ := foldlM_error hfold
          exact ih (List.isChain_cons_cons.mpr ⟨mem_successors.mp hchild, ht⟩) hvisit
        · cases h

/-- What a search that meets nothing while inside it adds to the finished names: the name that
it starts from, and only names that are settled if the finished ones were. -/
structure Searched (t : Tree) (finished : List String) (ids : List String) (after : List String) :
    Prop where
  grown : finished ⊆ after
  reached : ids ⊆ after
  settled : (∀ id ∈ finished, t.Settled id) → ∀ id ∈ after, t.Settled id

private theorem foldlM_searched {t : Tree} {f : List String → String → Except String (List String)}
    {ids finished after : List String}
    (hf : ∀ id ∈ ids, ∀ {before next}, f before id = .ok next → t.Searched before [id] next)
    (h : ids.foldlM f finished = .ok after) : t.Searched finished ids after := by
  induction ids generalizing finished with
  | nil =>
    cases h
    exact ⟨List.Subset.refl _, List.nil_subset _, fun hs => hs⟩
  | cons id ids ih =>
    rw [List.foldlM_cons] at h
    cases hx : f finished id with
    | error e => rw [hx] at h; cases h
    | ok next =>
      rw [hx] at h
      have hfirst := hf id List.mem_cons_self hx
      have hrest := ih (fun i hi => hf i (List.mem_cons_of_mem id hi)) h
      refine ⟨fun i hi => hrest.grown (hfirst.grown hi), ?_, fun hs => hrest.settled (hfirst.settled hs)⟩
      intro i hi
      rcases List.mem_cons.mp hi with rfl | hi
      · exact hrest.grown (hfirst.reached List.mem_cons_self)
      · exact hrest.reached hi

/-- The fuel of a search never runs out: with the trail it makes up more names than a trail
without repetitions can have. -/
theorem visit_ok {t : Tree} {fuel : Nat} {path finished after : List String} {id : String}
    (ht : t.Trail (id :: path)) (hn : path.Nodup)
    (hfuel : path.length + fuel = t.connections.length + 2)
    (h : t.visit fuel path finished id = .ok after) : t.Searched finished [id] after := by
  induction fuel generalizing path finished id after with
  | zero =>
    have hle : path.length ≤ _ := trail_length_le ht.tail hn
    omega
  | succ fuel ih =>
    simp only [visit] at h
    split at h
    · cases h
    · rename_i hnew
      split at h
      · rename_i hdone
        cases h
        exact ⟨List.Subset.refl _, by simpa using hdone, fun hs => hs⟩
      · split at h
        · cases h
        · rename_i next hfold
          cases h
          have hs : t.Searched finished (t.successors id) next := by
            refine foldlM_searched ?_ hfold
            intro child hchild before after hvisit
            refine ih (List.isChain_cons_cons.mpr ⟨mem_successors.mp hchild, ht⟩)
              (List.nodup_cons.mpr ⟨hnew, hn⟩) ?_ hvisit
            rw [List.length_cons]
            omega
          refine ⟨fun i hi => List.mem_cons_of_mem id (hs.grown hi), by simp, ?_⟩
          intro hsettled i hi
          rcases List.mem_cons.mp hi with rfl | hi
          · refine Acc.intro i fun child hchild => ?_
            exact hs.settled hsettled child (hs.reached (mem_successors.mpr hchild))
          · exact hs.settled hsettled i hi

theorem not_transGen_of_settled {t : Tree} {id : String} (h : t.Settled id) :
    ¬ TransGen t.Connects id id := by
  rw [← transGen_swap]
  have hacc := Acc.transGen h
  induction hacc with
  | intro x _ ih => exact fun hx => ih x hx (h.inv_of_transGen hx) hx

theorem cycleNode?_cycle {t : Tree} {found : String} (h : t.cycleNode? = some found) :
    TransGen t.Connects found found := by
  simp only [cycleNode?] at h
  split at h
  · rename_i hfold
    cases h
    obtain ⟨id, -, before, hvisit⟩ := foldlM_error hfold
    exact visit_error (List.isChain_singleton id) hvisit
  · cases h

private theorem settled_of_cycleNode?_none {t : Tree} (h : t.cycleNode? = none) :
    ∀ n ∈ t.nodes, t.Settled n.id := by
  simp only [cycleNode?] at h
  split at h
  · cases h
  · rename_i after hfold
    have hs : t.Searched [] (t.nodes.map (·.id)) after := by
      refine foldlM_searched ?_ hfold
      intro id _ before next hvisit
      refine visit_ok (List.isChain_singleton id) List.nodup_nil ?_ hvisit
      rw [List.length_nil, Nat.zero_add]
    intro n hn
    exact hs.settled (by simp) n.id (hs.reached (List.mem_map.mpr ⟨n, hn, rfl⟩))

/-- When all connections start at nodes, the search finds nothing exactly if there is no cycle. -/
theorem cycleNode?_eq_none_iff {t : Tree}
    (hparent : ∀ c ∈ t.connections, ∃ n ∈ t.nodes, n.id = c.parent) :
    t.cycleNode? = none ↔ t.Acyclic := by
  constructor
  · intro h id hcycle
    obtain ⟨_, ⟨c, hc, rfl, -⟩, -⟩ := TransGen.head'_iff.mp hcycle
    obtain ⟨n, hn, hid⟩ := hparent c hc
    exact not_transGen_of_settled (hid ▸ settled_of_cycleNode?_none h n hn) hcycle
  · intro h
    cases hfound : t.cycleNode? with
    | none => rfl
    | some id => exact absurd (cycleNode?_cycle hfound) (h id)

end BehaviorTree.Tree
