import BehaviorTree.Proofs.Tree.Children

/-!
# What the root leads to

Trees may differ in all that their roots do not lead to: in the places of nodes, in nodes that
cannot be reached, in connections without a node at an end, and in the numbers that put children in
order.
-/

namespace BehaviorTree.Tree

open Relation Index

variable {t t' : Tree}

def Reaches (t : Tree) (id : String) : Prop :=
  ∃ root, t.root = some root ∧ ReflTransGen t.Joins root id

/-- No name that the root leads to is led back to itself. -/
def AcyclicFromRoot (t : Tree) : Prop := ∀ id, t.Reaches id → ¬ TransGen t.Joins id id

/-- Whether two trees have one root, and the same nodes with children of the same names in the same
order wherever it leads. -/
structure SameFromRoot (t t' : Tree) : Prop where
  root : t'.root = t.root
  node : ∀ id, t.Reaches id → t'.node? id = t.node? id
  children : ∀ id, t.Reaches id → t.Names id →
    (t'.childrenOf id).map (·.id) = (t.childrenOf id).map (·.id)

theorem names_iff_node? {id : String} : t.Names id ↔ ∃ n, t.node? id = some n := by
  constructor
  · intro h
    obtain ⟨p, hp⟩ := exists_position? h
    exact ⟨t.nodes.get p, by rw [node?_eq, hp, Option.map_some]⟩
  · rintro ⟨n, hn⟩
    exact ⟨n, List.mem_of_find?_eq_some hn, by simpa using List.find?_some hn⟩

theorem id_of_node? {id : String} {n : Node} (h : t.node? id = some n) : n.id = id := by
  simpa using List.find?_some h

theorem mem_childrenOf {a : String} {n : Node} :
    n ∈ t.childrenOf a ↔ ∃ c ∈ t.connections, c.parent = a ∧ t.node? c.child = some n := by
  simp only [childrenOf, List.mem_filterMap, Connection.sorted, List.mem_mergeSort, List.mem_filter,
    decide_eq_true_eq, and_assoc]

theorem joins_iff {a b : String} :
    t.Joins a b ↔ t.Names a ∧ b ∈ (t.childrenOf a).map (·.id) := by
  constructor
  · rintro ⟨⟨c, hc, hparent, hchild⟩, ha, hb⟩
    obtain ⟨n, hn⟩ := names_iff_node?.mp hb
    refine ⟨ha, List.mem_map.mpr ⟨n, mem_childrenOf.mpr ⟨c, hc, hparent, ?_⟩, id_of_node? hn⟩⟩
    rw [hchild, hn]
  · rintro ⟨ha, hb⟩
    obtain ⟨n, hn, hid⟩ := List.mem_map.mp hb
    obtain ⟨c, hc, hparent, hnode⟩ := mem_childrenOf.mp hn
    have hchild : c.child = b := (id_of_node? hnode).symm.trans hid
    rw [hchild] at hnode
    exact ⟨⟨c, hc, hparent, hchild⟩, ha, names_iff_node?.mpr ⟨n, hnode⟩⟩

theorem Reaches.step {a b : String} (ha : t.Reaches a) (h : t.Joins a b) : t.Reaches b := by
  obtain ⟨root, hroot, hreach⟩ := ha
  exact ⟨root, hroot, hreach.tail h⟩

theorem Acyclic.fromRoot (h : t.Acyclic) : t.AcyclicFromRoot := by
  intro id _ hcycle
  apply h id
  exact TransGen.mono (fun _ _ hjoins => hjoins.1) id id hcycle

theorem AcyclicFromRoot.cycleFree (h : t.AcyclicFromRoot) : (build t).CycleFree := by
  by_contra hcycle
  obtain ⟨root, hroot, id, hreach, hback⟩ := exists_cycle_of_not_cycleFree hcycle
  exact h id ⟨root, hroot, hreach⟩ hback

theorem reaches_name {p : Fin (build t).size} (h : (build t).Reachable p) :
    t.Reaches ((build t).name p) := by
  obtain ⟨start, hstart, hreach⟩ := h
  obtain ⟨root, hroot, hposition⟩ := Option.bind_eq_some_iff.mp hstart
  have hname : (build t).name start = root := by
    rw [name_build]
    exact (position?_eq_some_iff.mp hposition).1
  have hlead := ReflTransGen.lift (build t).name (fun _ _ => joins_of_edge) start p hreach
  exact ⟨root, hroot, hname ▸ hlead⟩

theorem node?_name {p : Fin (build t).size} (h : (build t).Reachable p) :
    t.node? ((build t).name p) = some ((build t).slot p).node := by
  rw [node?_eq, position?_name_of_reachable h, slot_build]
  rfl

namespace SameFromRoot

theorem names_iff (h : t.SameFromRoot t') {id : String} (hid : t.Reaches id) :
    t'.Names id ↔ t.Names id := by
  rw [names_iff_node?, names_iff_node?, h.node id hid]

theorem joins_iff (h : t.SameFromRoot t') {a b : String} (ha : t.Reaches a) :
    t'.Joins a b ↔ t.Joins a b := by
  rw [Tree.joins_iff, Tree.joins_iff, h.names_iff ha]
  apply and_congr_right
  intro hnames
  rw [h.children a ha hnames]

theorem reaches (h : t.SameFromRoot t') {id : String} (hid : t'.Reaches id) : t.Reaches id := by
  obtain ⟨root, hroot, hreach⟩ := hid
  rw [h.root] at hroot
  induction hreach with
  | refl => exact ⟨root, hroot, .refl⟩
  | tail _ hstep ih => exact ih.step ((h.joins_iff ih).mp hstep)

theorem acyclicFromRoot (h : t.SameFromRoot t') (ht : t.AcyclicFromRoot) :
    t'.AcyclicFromRoot := by
  -- The trees need not agree on names that the root does not lead to, so a path is carried over
  -- together with the fact that the root leads to its end.
  have hpath : ∀ {a b}, t.Reaches a → TransGen t'.Joins a b → TransGen t.Joins a b ∧ t.Reaches b := by
    intro a b ha hab
    induction hab with
    | single hstep =>
      have hjoins := (h.joins_iff ha).mp hstep
      exact ⟨.single hjoins, ha.step hjoins⟩
    | tail _ hstep ih =>
      have hjoins := (h.joins_iff ih.2).mp hstep
      exact ⟨ih.1.tail hjoins, ih.2.step hjoins⟩
  intro id hid hcycle
  exact ht id (h.reaches hid) (hpath (h.reaches hid) hcycle).1

end SameFromRoot

/-- A name that occurs once stands for the node that bears it. -/
theorem node?_eq_some_iff (h : (t.nodes.map (·.id)).Nodup) {id : String} {n : Node} :
    t.node? id = some n ↔ n ∈ t.nodes ∧ n.id = id := by
  constructor
  · intro hn
    exact ⟨List.mem_of_find?_eq_some hn, id_of_node? hn⟩
  · rintro ⟨hmem, hid⟩
    obtain ⟨n', hn'⟩ := names_iff_node?.mp ⟨n, hmem, hid⟩
    have hsame : n' = n := List.inj_on_of_nodup_map h (List.mem_of_find?_eq_some hn') hmem
      ((id_of_node? hn').trans hid.symm)
    rw [hn', hsame]

theorem node?_perm {nodes : List Node} (h : nodes.Perm t.nodes)
    (hnodup : (t.nodes.map (·.id)).Nodup) (id : String) :
    ({ t with nodes := nodes } : Tree).node? id = t.node? id := by
  have hnodup' : (nodes.map (·.id)).Nodup := (h.map _).nodup_iff.mpr hnodup
  apply Option.ext
  intro n
  rw [node?_eq_some_iff hnodup', node?_eq_some_iff hnodup, h.mem_iff]

theorem sameFromRoot_perm {nodes : List Node} (h : nodes.Perm t.nodes)
    (hnodup : (t.nodes.map (·.id)).Nodup) : t.SameFromRoot { t with nodes := nodes } where
  root := rfl
  node id _ := node?_perm h hnodup id
  children id _ _ := by
    rw [childrenOf, childrenOf]
    simp only [node?_perm h hnodup]

theorem sameFromRoot_filter_nodes {keep : Node → Bool}
    (h : ∀ id n, t.Reaches id → t.node? id = some n → keep n) :
    t.SameFromRoot { t with nodes := t.nodes.filter keep } := by
  have hnode : ∀ id, t.Reaches id ∨ ¬ t.Names id →
      ({ t with nodes := t.nodes.filter keep } : Tree).node? id = t.node? id := by
    intro id hid
    simp only [node?, List.find?_filter]
    cases hn : t.nodes.find? (·.id == id) with
    | none =>
      rw [List.find?_eq_none] at hn ⊢
      intro n hmem hkeep
      have hid : keep n = true ∧ n.id = id := by simpa using hkeep
      exact hn n hmem (by simpa using hid.2)
    | some n =>
      have hreach := hid.resolve_right (not_not.mpr (names_iff_node?.mpr ⟨n, hn⟩))
      have hkeep := h id n hreach hn
      rw [List.find?_eq_some_iff_append] at hn ⊢
      obtain ⟨hid, before, after, hsplit, hbefore⟩ := hn
      refine ⟨by simpa [hkeep] using hid, before, after, hsplit, fun a ha => ?_⟩
      have hne := hbefore a ha
      simp_all
  refine ⟨rfl, fun id hid => hnode id (.inl hid), fun id hid hnames => ?_⟩
  rw [childrenOf, childrenOf]
  congr 1
  apply List.filterMap_congr
  intro c hc
  apply hnode
  by_cases hchild : t.Names c.child
  · simp only [Connection.sorted, List.mem_mergeSort, List.mem_filter, decide_eq_true_eq] at hc
    exact .inl (hid.step ⟨⟨c, hc.1, hc.2, rfl⟩, hnames, hchild⟩)
  · exact .inr hchild

theorem sameFromRoot_filter_connections {keep : Connection → Bool}
    (h : ∀ c ∈ t.connections, t.Names c.parent → t.Names c.child → keep c) :
    t.SameFromRoot { t with connections := t.connections.filter keep } := by
  refine ⟨rfl, fun id _ => rfl, fun id _ hnames => ?_⟩
  have hdropped : ∀ cs : List Connection, (∀ c ∈ cs, c ∈ t.connections ∧ c.parent = id) →
      (cs.filter keep).filterMap (t.node? ·.child) = cs.filterMap (t.node? ·.child) := by
    intro cs hcs
    rw [List.filterMap_filter]
    apply List.filterMap_congr
    intro c hc
    split
    · rfl
    · rename_i hkeep
      obtain ⟨hmem, hparent⟩ := hcs c hc
      cases hn : t.node? c.child with
      | none => rfl
      | some n =>
        have hchild := names_iff_node?.mpr ⟨n, hn⟩
        exact absurd (h c hmem (hparent ▸ hnames) hchild) hkeep
  rw [childrenOf, childrenOf]
  dsimp only
  rw [List.filter_comm, Connection.sorted_filter keep]
  congr 1
  apply hdropped
  intro c hc
  simpa [Connection.sorted] using hc

/-- Children may be numbered anew, those of each parent in the same order. -/
def renumber (t : Tree) (number : String → Int32 → Int32) : Tree :=
  { t with connections := t.connections.map fun c => { c with order := number c.parent c.order } }

theorem sameFromRoot_renumber {number : String → Int32 → Int32}
    (h : ∀ c ∈ t.connections, ∀ d ∈ t.connections, c.parent = d.parent → c.order < d.order →
      number c.parent c.order < number d.parent d.order) :
    t.SameFromRoot (t.renumber number) := by
  refine ⟨rfl, fun id _ => rfl, fun id _ _ => ?_⟩
  let anew (c : Connection) : Connection := { c with order := number c.parent c.order }
  have hfilter : (t.connections.map anew).filter (·.parent = id) =
      (t.connections.filter (·.parent = id)).map anew := by
    rw [List.filter_map]
    rfl
  have hsorted : Connection.sorted ((t.connections.filter (·.parent = id)).map anew) =
      (Connection.sorted (t.connections.filter (·.parent = id))).map anew := by
    rw [Connection.sorted, Connection.sorted]
    symm
    apply List.map_mergeSort
    intro c hc d hd
    obtain ⟨hc, hcid⟩ := List.mem_filter.mp hc
    obtain ⟨hd, hdid⟩ := List.mem_filter.mp hd
    have hparent : c.parent = d.parent := by simp_all
    rw [decide_eq_decide]
    constructor
    · intro hle
      rcases Int32.lt_or_eq_of_le hle with hlt | heq
      · exact Int32.le_of_lt (h c hc d hd hparent hlt)
      · dsimp only [anew]
        rw [hparent, heq]
        exact Int32.le_refl _
    · intro hle
      by_contra hlt
      have hback := h d hd c hc hparent.symm (Int32.not_le.mp hlt)
      exact Int32.not_lt.mpr hle hback
  rw [childrenOf, childrenOf]
  change ((Connection.sorted ((t.connections.map anew).filter (·.parent = id))).filterMap
    (t.node? ·.child)).map (·.id) = _
  rw [hfilter, hsorted, List.filterMap_map]
  rfl

end BehaviorTree.Tree
