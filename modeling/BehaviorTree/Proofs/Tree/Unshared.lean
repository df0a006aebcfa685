import BehaviorTree.Proofs.Tree.Link
import Mathlib.Data.List.Pairwise

/-!
# Unshared nodes

Where no node is the child of two connections, and the root leads to no cycle, what the root leads
to is a tree in the strict sense: a node has one parent at most, and what two children of a node lead
to has nothing in common.
-/

namespace BehaviorTree

open Relation

def Tree.Resolves (t : Tree) (c : Connection) : Prop := t.Names c.parent ∧ t.Names c.child

/-- Whether every node is the child of at most one connection between nodes. -/
def Tree.Unshared (t : Tree) : Prop :=
  t.connections.Pairwise fun c d => t.Resolves c → t.Resolves d → c.child ≠ d.child

namespace Index

structure Unshared (ix : Index) : Prop where
  nodup (p : Fin ix.size) : (ix.slot p).children.Nodup
  parent {p q c : Fin ix.size} : ix.Edge p c → ix.Edge q c → p = q

private theorem resolves_of_link? {t : Tree} {c : Connection} {p q : Fin t.nodes.length}
    (h : link? t.nodes c = some (p, q)) : t.Resolves c ∧ (t.nodes.get q).id = c.child := by
  obtain ⟨hp, hq⟩ := link?_eq_some_iff.mp h
  exact ⟨⟨names_of_position? hp, names_of_position? hq⟩, (position?_eq_some_iff.mp hq).1⟩

private theorem nodup_links {t : Tree} (h : t.Unshared) : ((links t).map (·.2)).Nodup := by
  have hsorted : (Connection.sorted t.connections).Pairwise fun c d =>
      t.Resolves c → t.Resolves d → c.child ≠ d.child := by
    refine (List.mergeSort_perm _ _).symm.pairwise h ?_
    intro c d hcd hd hc
    exact (hcd hc hd).symm
  rw [links, List.Nodup, List.pairwise_map, List.pairwise_filterMap]
  refine hsorted.imp ?_
  rintro c d hcd ⟨p, q⟩ hc ⟨p', q'⟩ hd rfl
  obtain ⟨hresolves, hchild⟩ := resolves_of_link? hc
  obtain ⟨hresolves', hchild'⟩ := resolves_of_link? hd
  exact hcd hresolves hresolves' (hchild.symm.trans hchild')

theorem unshared_build {t : Tree} (h : t.Unshared) : (build t).Unshared where
  nodup p := by
    have hsublist := (List.filter_sublist (p := fun l => l.1 = p) (l := links t)).map (·.2)
    rw [slot_build]
    exact (nodup_links h).sublist hsublist
  parent := by
    intro p q c hp hq
    rw [Edge, slot_build] at hp hq
    have hsame := List.inj_on_of_nodup_map (nodup_links h) (mem_childrenAt.mp hp)
      (mem_childrenAt.mp hq) rfl
    exact congrArg Prod.fst hsame

namespace Unshared

variable {ix : Index} {p q c c' d : Fin ix.size}

theorem eq_or_leads_parent (h : ix.Unshared) (hd : ReflTransGen ix.Edge c d) (hq : ix.Edge q d) :
    d = c ∨ ReflTransGen ix.Edge c q := by
  rcases hd.cases_tail with heq | ⟨b, hb, hedge⟩
  · exact .inl heq
  · rw [h.parent hq hedge]
    exact .inr hb

private theorem eq_of_leads (h : ix.Unshared) (hfree : ix.CycleFree) (hp : ix.Reachable p)
    (hc : ix.Edge p c) (hc' : ix.Edge p c') (hlead : ReflTransGen ix.Edge c c') : c = c' := by
  rcases h.eq_or_leads_parent hlead hc' with heq | hback
  · exact heq.symm
  · exact absurd (TransGen.head' hc hback) (hfree p hp)

/-- What two children of a node lead to has nothing in common. -/
theorem eq_of_common (h : ix.Unshared) (hfree : ix.CycleFree) (hp : ix.Reachable p)
    (hc : ix.Edge p c) (hc' : ix.Edge p c') (hq : ReflTransGen ix.Edge c q)
    (hq' : ReflTransGen ix.Edge c' q) : c = c' := by
  have hunique : Relator.RightUnique (Function.swap ix.Edge) := fun _ _ _ hb hd => h.parent hb hd
  rcases ReflTransGen.total_of_right_unique hunique (reflTransGen_swap.mpr hq)
    (reflTransGen_swap.mpr hq') with hback | hback
  · exact (h.eq_of_leads hfree hp hc' hc (reflTransGen_swap.mp hback)).symm
  · exact h.eq_of_leads hfree hp hc hc' (reflTransGen_swap.mp hback)

end Unshared

end Index

end BehaviorTree
