import BehaviorTree.Proofs.Tree.WellFormed

/-!
# Faults

What the validity check finds fault with is there, and everything that it looks at earlier is in
order. A fault of a node, a connection or a number of children is that of the first one at fault.
-/

namespace BehaviorTree.Tree

open Relation

def Orderly (nodes : List Node) : Prop :=
  (nodes.map (·.id)).Nodup ∧ ∀ n ∈ nodes, ∃ d, Catalog.lookup n.type = some d

def Rooted (t : Tree) : Prop := ∃ root, t.root = some root ∧ t.Names root

def HasEnds (t : Tree) (c : Connection) : Prop := t.Names c.parent ∧ t.Names c.child

def FitsNode (t : Tree) (n : Node) : Prop :=
  ∀ d, Catalog.lookup n.type = some d → Fits d (t.outdegree n.id)

/-- Whether all is in order that is looked at before the connections. -/
def Grounded (t : Tree) : Prop := Orderly t.nodes ∧ t.Rooted

/-- Whether all is in order that is looked at before the cycles. -/
def Connected (t : Tree) : Prop := t.Grounded ∧ ∀ c ∈ t.connections, t.HasEnds c

/-- What a fault says of a tree. -/
def Fault.Reports (t : Tree) : Fault → Prop
  | duplicateNode id => ∃ before n, before ++ [n] <+: t.nodes ∧ Orderly before ∧ n.id = id ∧
    ∃ n' ∈ before, n'.id = id
  | unknownNodeType id type => ∃ before n, before ++ [n] <+: t.nodes ∧ Orderly before ∧ n.id = id ∧
    n.type = type ∧ (∀ n' ∈ before, n'.id ≠ id) ∧ Catalog.lookup type = none
  | missingRoot => Orderly t.nodes ∧ t.root = none
  | unresolvedRoot id => Orderly t.nodes ∧ t.root = some id ∧ ¬ t.Names id
  | danglingConnection parent child => t.Grounded ∧ ∃ before c, before ++ [c] <+: t.connections ∧
    (∀ c' ∈ before, t.HasEnds c') ∧ c.parent = parent ∧ c.child = child ∧ ¬ t.HasEnds c
  | cycle id => t.Connected ∧ TransGen t.Connects id id
  | childCount id type count min max => t.Connected ∧ t.Acyclic ∧
    ∃ before n d, before ++ [n] <+: t.nodes ∧ (∀ n' ∈ before, t.FitsNode n') ∧ n.id = id ∧
      n.type = type ∧ Catalog.lookup type = some d ∧ count = t.outdegree id ∧
      min = d.category.minChildren ∧ max = d.category.maxChildren ∧ ¬ Fits d count

private theorem orderly_of_nodeFault? {nodes : List Node} (h : nodeFault? [] nodes = none) :
    Orderly nodes := by
  obtain ⟨hdistinct, hknown⟩ := nodeFault?_eq_none_iff.mp h
  exact ⟨hdistinct, fun n hn => (hknown n hn).2⟩

/-- The search for a fault of a node stops at the first one that is at fault, knowing the names of
those before it. -/
private theorem nodeFault?_eq_some {seen : List String} {nodes : List Node} {fault : Fault}
    (h : nodeFault? seen nodes = some fault) :
    ∃ before n, before ++ [n] <+: nodes ∧ nodeFault? seen before = none ∧
      nodeFault? ((before.map (·.id)).reverse ++ seen) [n] = some fault := by
  induction nodes generalizing seen with
  | nil => cases h
  | cons n rest ih =>
    rw [nodeFault?] at h
    by_cases hseen : n.id ∈ seen
    · rw [if_pos hseen] at h
      exact ⟨[], n, by simp, rfl, by simpa [nodeFault?, hseen] using h⟩
    rw [if_neg hseen] at h
    by_cases htype : (Catalog.lookup n.type).isNone
    · rw [if_pos htype] at h
      exact ⟨[], n, by simp, rfl, by simpa [nodeFault?, hseen, htype] using h⟩
    rw [if_neg htype] at h
    obtain ⟨before, found, hprefix, hbefore, hfound⟩ := ih h
    refine ⟨n :: before, found, ?_, ?_, ?_⟩
    · simpa using hprefix
    · simpa [nodeFault?, hseen, htype] using hbefore
    · simpa using hfound

private theorem reports_of_nodeFault? {t : Tree} {fault : Fault}
    (h : nodeFault? [] t.nodes = some fault) : fault.Reports t := by
  obtain ⟨before, n, hprefix, hbefore, hn⟩ := nodeFault?_eq_some h
  have horderly := orderly_of_nodeFault? hbefore
  rw [nodeFault?] at hn
  by_cases hseen : n.id ∈ (before.map (·.id)).reverse ++ []
  · rw [if_pos hseen, Option.some.injEq] at hn
    subst hn
    exact ⟨before, n, hprefix, horderly, rfl, by simpa using hseen⟩
  · rw [if_neg hseen] at hn
    split at hn
    · rename_i htype
      rw [Option.some.injEq] at hn
      subst hn
      refine ⟨before, n, hprefix, horderly, rfl, rfl, ?_, Option.isNone_iff_eq_none.mp htype⟩
      simpa using hseen
    · cases hn

private theorem reports_of_rootFault? {t : Tree} {fault : Fault} (hnodes : Orderly t.nodes)
    (h : t.rootFault? = some fault) : fault.Reports t := by
  have hnone := rootFault?_eq_none_iff (t := t)
  rw [rootFault?] at h hnone
  cases hroot : t.root with
  | none =>
    rw [hroot, Option.some.injEq] at h
    subst h
    exact ⟨hnodes, hroot⟩
  | some id =>
    rw [hroot] at h hnone
    dsimp only at h hnone
    split at h
    · cases h
    · rename_i hmissing
      rw [Option.some.injEq] at h
      subst h
      refine ⟨hnodes, hroot, fun hnames => ?_⟩
      rw [if_neg hmissing] at hnone
      cases hnone.mpr ⟨id, rfl, hnames⟩

private theorem reports_of_connectionFault? {t : Tree} {fault : Fault} (hgrounded : t.Grounded)
    (h : t.connectionFault? = some fault) : fault.Reports t := by
  rw [connectionFault?, Option.map_eq_some_iff] at h
  obtain ⟨c, hc, rfl⟩ := h
  obtain ⟨hdangling, before, after, hsplit, hbefore⟩ := List.find?_eq_some_iff_append.mp hc
  refine ⟨hgrounded, before, c, ⟨after, by simp [hsplit]⟩, ?_, rfl, rfl, ?_⟩
  · intro c' hc'
    simpa [HasEnds, Names] using hbefore c' hc'
  · simpa [HasEnds, Names, imp_iff_not_or] using hdangling

private theorem childCountFault?_eq_some {t : Tree} {nodes : List Node} {fault : Fault}
    (h : t.childCountFault? nodes = some fault) :
    ∃ before n, before ++ [n] <+: nodes ∧ t.childCountFault? before = none ∧
      t.childCountFault? [n] = some fault := by
  induction nodes with
  | nil => cases h
  | cons n rest ih =>
    by_cases hn : t.childCountFault? [n] = none
    · have hskip : ∀ nodes, t.childCountFault? (n :: nodes) = t.childCountFault? nodes := by
        intro nodes
        rw [childCountFault?] at hn ⊢
        cases hd : Catalog.lookup n.type with
        | none => rfl
        | some d =>
          rw [hd] at hn
          dsimp only at hn ⊢
          split at hn
          · rename_i hfits
            rw [if_pos hfits]
          · cases hn
      rw [hskip] at h
      obtain ⟨before, found, hprefix, hbefore, hfound⟩ := ih h
      exact ⟨n :: before, found, by simpa using hprefix, by rw [hskip, hbefore], hfound⟩
    · refine ⟨[], n, by simp, rfl, ?_⟩
      rw [childCountFault?] at h hn ⊢
      cases hd : Catalog.lookup n.type with
      | none => simp [hd, childCountFault?] at hn
      | some d =>
        rw [hd] at h hn
        dsimp only at h hn ⊢
        split at h
        · rename_i hfits
          simp [hfits, childCountFault?] at hn
        · rename_i hfits
          rw [if_neg hfits, h]

private theorem reports_of_childCountFault? {t : Tree} {fault : Fault} (hconnected : t.Connected)
    (hacyclic : t.Acyclic) (h : t.childCountFault? t.nodes = some fault) : fault.Reports t := by
  obtain ⟨before, n, hprefix, hbefore, hn⟩ := childCountFault?_eq_some h
  rw [childCountFault?] at hn
  cases hd : Catalog.lookup n.type with
  | none => simp [hd, childCountFault?] at hn
  | some d =>
    rw [hd] at hn
    dsimp only at hn
    split at hn
    · cases hn
    · rename_i hfits
      rw [Option.some.injEq] at hn
      subst hn
      rw [length_successors, accepts_iff] at hfits
      refine ⟨hconnected, hacyclic, before, n, d, hprefix, childCountFault?_eq_none_iff.mp hbefore,
        rfl, rfl, hd, length_successors t n.id, rfl, rfl, ?_⟩
      rwa [length_successors]

/-- A fault that the check finds is there, and all that it looks at earlier is in order: the nodes in
their order, each for its name before its type, then the root, the connections, cycles, and last the
numbers of children. -/
theorem reports_of_validate {t : Tree} {fault : Fault} (h : t.validate = .error fault) :
    fault.Reports t := by
  have hfault : t.fault? = some fault := by
    rw [validate] at h
    split at h
    · rename_i hsome
      rw [hsome, Except.error.inj h]
    · cases h
  rw [fault?] at hfault
  simp only [Option.orElse_eq_orElse, Option.orElse_eq_or] at hfault
  cases hnodes : nodeFault? [] t.nodes with
  | some found =>
    rw [hnodes, Option.some_or, Option.some.injEq] at hfault
    exact reports_of_nodeFault? (hfault ▸ hnodes)
  | none =>
  have horderly := orderly_of_nodeFault? hnodes
  rw [hnodes, Option.none_or] at hfault
  cases hroot : t.rootFault? with
  | some found =>
    rw [hroot, Option.some_or, Option.some.injEq] at hfault
    exact reports_of_rootFault? horderly (hfault ▸ hroot)
  | none =>
  have hgrounded : t.Grounded := ⟨horderly, rootFault?_eq_none_iff.mp hroot⟩
  rw [hroot, Option.none_or] at hfault
  cases hconnection : t.connectionFault? with
  | some found =>
    rw [hconnection, Option.some_or, Option.some.injEq] at hfault
    exact reports_of_connectionFault? hgrounded (hfault ▸ hconnection)
  | none =>
  have hconnected : t.Connected := ⟨hgrounded, connectionFault?_eq_none_iff.mp hconnection⟩
  rw [hconnection, Option.none_or] at hfault
  cases hcycle : t.cycleNode? with
  | some id =>
    rw [hcycle, Option.map_some, Option.some_or, Option.some.injEq] at hfault
    subst hfault
    exact ⟨hconnected, cycleNode?_cycle hcycle⟩
  | none =>
  have hacyclic : t.Acyclic :=
    (cycleNode?_eq_none_iff fun c hc => (hconnected.2 c hc).1).mp hcycle
  rw [hcycle, Option.map_none, Option.none_or] at hfault
  exact reports_of_childCountFault? hconnected hacyclic hfault

/-- A cycle that the search meets behind the root, with a leaf beside it and a decorator without a
child: the cycle is reported, and all that comes before it is in order. -/
theorem reports_of_validate_cycle :
    let t : Tree :=
      { Tree.create "" "" with
        root := some "root"
        nodes := [⟨"root", "sequence", ∅⟩, ⟨"leaf", "wait", ∅⟩, ⟨"a", "selector", ∅⟩,
          ⟨"b", "inverter", ∅⟩, ⟨"c", "inverter", ∅⟩]
        connections := [⟨"root", "leaf", 0⟩, ⟨"root", "a", 1⟩, ⟨"a", "b", 0⟩, ⟨"b", "a", 0⟩] }
    t.validate = .error (.cycle "a") ∧ t.Connected ∧ TransGen t.Connects "a" "a" := by
  intro t
  have hfault : t.validate = .error (.cycle "a") := by decide +kernel
  exact ⟨hfault, reports_of_validate hfault⟩

end BehaviorTree.Tree
