import BehaviorTree.Proofs.Tick.Duality
import BehaviorTree.Proofs.Tick.Simulation
import BehaviorTree.Proofs.Tree.Reach
import Mathlib.Data.List.Sort

/-!
# Turning a composite round

An ordered composite of a tree can be replaced by an inverter of the dual composite, with an inverter
between that one and each of the children. What this does to the nodes and to the lists of children is
told here by names; positions of the other nodes stay related by their names.
-/

namespace BehaviorTree

namespace Catalog

def orderedTypes : List String := ["sequence", "selector", "random_sequence", "random_selector"]

/-- The type of ordered composites that end their runs on the opposite status. -/
def dualType (type : String) : String :=
  if type = "sequence" then "selector"
  else if type = "selector" then "sequence"
  else if type = "random_sequence" then "random_selector"
  else if type = "random_selector" then "random_sequence"
  else type

theorem lookup_dualType {type : String} (h : type ∈ orderedTypes) :
    ∃ d d' c stopOn shuffled, lookup type = some d ∧ d.kind = .composite c ∧
      lookup (dualType type) = some d' ∧ d'.kind = .composite c.dual ∧
        c.ordering? = some (stopOn, shuffled) := by
  simp only [orderedTypes, List.mem_cons, List.not_mem_nil, or_false] at h
  rcases h with rfl | rfl | rfl | rfl
  all_goals exact ⟨_, _, _, _, _, rfl, rfl, rfl, rfl, rfl⟩

theorem lookup_inverter : ∃ d, lookup "inverter" = some d ∧ d.kind = .decorator .inverter :=
  ⟨_, rfl, rfl⟩

end Catalog

namespace Tree

variable {t : Tree} {n : Node} {q : String} {wrap : Nat → String}

/-- Whether names are left for a node and for one more node to each connection. -/
structure Spares (t : Tree) (q : String) (wrap : Nat → String) : Prop where
  dual : ¬ t.Names q
  wraps : ∀ j, ¬ t.Names (wrap j)
  ne : ∀ j, wrap j ≠ q
  injective : Function.Injective wrap

def outgoing (t : Tree) (id : String) : List (Connection × Nat) :=
  t.connections.zipIdx.filter (·.1.parent = id)

/-- The tree in which a node is an inverter of a node of dual type, and its children are wrapped in
inverters. Connections keep their places. -/
def dualize (t : Tree) (n : Node) (q : String) (wrap : Nat → String) : Tree :=
  { t with
    nodes := t.nodes.map (fun m => if m.id = n.id then { m with type := "inverter" } else m) ++
      .create q (Catalog.dualType n.type) ::
        (t.outgoing n.id).map fun e => .create (wrap e.2) "inverter"
    connections := ⟨n.id, q, 0⟩ :: t.connections.zipIdx.flatMap fun e =>
      if e.1.parent = n.id then [⟨q, wrap e.2, e.1.order⟩, ⟨wrap e.2, e.1.child, 0⟩] else [e.1] }

theorem map_id_dualize : (t.dualize n q wrap).nodes.map (·.id) =
    t.nodes.map (·.id) ++ q :: (t.outgoing n.id).map (wrap ·.2) := by
  have hkept : ∀ m : Node,
      (if m.id = n.id then { m with type := "inverter" } else m : Node).id = m.id := by
    intro m
    split <;> rfl
  simp only [dualize, List.map_append, List.map_map, List.map_cons, Function.comp_def, hkept,
    Node.create]

theorem names_dualize {id : String} : (t.dualize n q wrap).Names id ↔
    t.Names id ∨ id = q ∨ ∃ e ∈ t.outgoing n.id, wrap e.2 = id := by
  have hmem : ∀ u : Tree, u.Names id ↔ id ∈ u.nodes.map (·.id) := fun u => List.mem_map.symm
  rw [hmem, map_id_dualize, List.mem_append, List.mem_cons, ← hmem, List.mem_map]

private theorem nodup_outgoing (t : Tree) (id : String) : ((t.outgoing id).map (·.2)).Nodup := by
  refine List.Nodup.sublist (List.filter_sublist.map _) ?_
  rw [List.zipIdx_map_snd]
  exact List.nodup_range'

theorem distinct_dualize (hdistinct : (t.nodes.map (·.id)).Nodup) (h : t.Spares q wrap) :
    ((t.dualize n q wrap).nodes.map (·.id)).Nodup := by
  have hmem : ∀ {id}, id ∈ t.nodes.map (·.id) → t.Names id := List.mem_map.mp
  have hwraps : ((t.outgoing n.id).map (wrap ·.2)).Nodup := by
    have hmap := (nodup_outgoing t n.id).map h.injective
    rwa [List.map_map] at hmap
  rw [map_id_dualize, List.nodup_append, List.nodup_cons]
  refine ⟨hdistinct, ⟨?_, hwraps⟩, ?_⟩
  · intro hq
    obtain ⟨e, -, he⟩ := List.mem_map.mp hq
    exact h.ne e.2 he
  · rintro a ha b hb rfl
    rcases List.mem_cons.mp hb with rfl | hb
    · exact h.dual (hmem ha)
    · obtain ⟨e, -, he⟩ := List.mem_map.mp hb
      exact h.wraps e.2 (he ▸ hmem ha)

private theorem flatMap_ite {α β : Type} (l : List α) (p : α → Prop) [DecidablePred p] (g : α → β) :
    (l.flatMap fun a => if p a then [g a] else []) = (l.filter p).map g := by
  induction l with
  | nil => rfl
  | cons a l ih =>
    rw [List.flatMap_cons, ih]
    by_cases ha : p a
    · rw [if_pos ha, List.filter_cons_of_pos (by simpa using ha), List.map_cons]
      rfl
    · rw [if_neg ha, List.filter_cons_of_neg (by simpa using ha)]
      rfl

private theorem filter_dualize {id : String} {p : Connection × Nat → Prop} [DecidablePred p]
    {g : Connection × Nat → Connection}
    (h : ∀ e ∈ t.connections.zipIdx,
      (if e.1.parent = n.id then [⟨q, wrap e.2, e.1.order⟩, ⟨wrap e.2, e.1.child, 0⟩]
        else [e.1] : List Connection).filter (·.parent = id) = if p e then [g e] else []) :
    (t.dualize n q wrap).connections.filter (·.parent = id) =
      (if n.id = id then [⟨n.id, q, 0⟩] else []) ++ (t.connections.zipIdx.filter p).map g := by
  rw [← flatMap_ite, ← List.flatMap_congr h, ← List.filter_flatMap, dualize, List.filter_cons]
  by_cases hid : n.id = id
  · simp [hid]
  · simp [hid]

theorem map_fst_outgoing (t : Tree) (id : String) :
    (t.outgoing id).map (·.1) = t.connections.filter (·.parent = id) := by
  conv_rhs => rw [← List.zipIdx_map_fst 0 t.connections, List.filter_map]
  rfl

private theorem mem_connections {e : Connection × Nat} (he : e ∈ t.connections.zipIdx) :
    e.1 ∈ t.connections := by
  rw [(List.mem_zipIdx' he).2]
  exact List.getElem_mem _

section Connections

variable (hjoined : ∀ c ∈ t.connections, t.Names c.parent ∧ t.Names c.child)
  (hn : t.Names n.id) (h : t.Spares q wrap)

include h in
private theorem filter_dualize_kept {id : String} (hid : t.Names id) (hne : id ≠ n.id) :
    (t.dualize n q wrap).connections.filter (·.parent = id) =
      t.connections.filter (·.parent = id) := by
  have hq := (hid.ne h.dual).symm
  have hwrap : ∀ j, wrap j ≠ id := fun j => (hid.ne (h.wraps j)).symm
  rw [filter_dualize (p := fun e => e.1.parent = id) (g := (·.1)), if_neg hne.symm, List.nil_append]
  · exact map_fst_outgoing t id
  · intro e _
    by_cases he : e.1.parent = n.id
    · simp [he, hq, hwrap, hne.symm]
    · simp [he, List.filter_cons]

include hn h in
private theorem filter_dualize_self :
    (t.dualize n q wrap).connections.filter (·.parent = n.id) = [⟨n.id, q, 0⟩] := by
  have hq := (hn.ne h.dual).symm
  have hwrap : ∀ j, wrap j ≠ n.id := fun j => (hn.ne (h.wraps j)).symm
  rw [filter_dualize (p := fun _ => False) (g := (·.1)), if_pos rfl]
  · simp
  · intro e _
    by_cases he : e.1.parent = n.id
    · simp [he, hq, hwrap]
    · simp [he]

include hjoined hn h in
private theorem filter_dualize_dual :
    (t.dualize n q wrap).connections.filter (·.parent = q) =
      (t.outgoing n.id).map fun e => ⟨q, wrap e.2, e.1.order⟩ := by
  rw [filter_dualize (p := fun e => e.1.parent = n.id), if_neg (hn.ne h.dual), List.nil_append]
  · rfl
  · intro e he
    have hparent := (hjoined e.1 (mem_connections he)).1.ne h.dual
    by_cases he : e.1.parent = n.id
    · simp [he, h.ne]
    · simp [he, hparent]

include hjoined hn h in
private theorem filter_dualize_wrap {e : Connection × Nat} (he : e ∈ t.outgoing n.id) :
    (t.dualize n q wrap).connections.filter (·.parent = wrap e.2) =
      [⟨wrap e.2, e.1.child, 0⟩] := by
  have hself := hn.ne (h.wraps e.2)
  have hone : (t.outgoing n.id).filter (·.2 = e.2) = [e] :=
    filter_eq_singleton (f := Prod.snd) (nodup_outgoing t n.id) he
  rw [outgoing, List.filter_filter] at hone
  rw [filter_dualize (p := fun a => a.2 = e.2 ∧ a.1.parent = n.id)
    (g := fun a => ⟨wrap a.2, a.1.child, 0⟩), if_neg hself, List.nil_append]
  · simp only [Bool.decide_and, hone, List.map_cons, List.map_nil]
  · intro a ha
    have hparent := (hjoined a.1 (mem_connections ha)).1.ne (h.wraps e.2)
    have hplace : wrap a.2 = wrap e.2 ↔ a.2 = e.2 := h.injective.eq_iff
    by_cases ha : a.1.parent = n.id
    · simp [ha, (h.ne e.2).symm, hplace, List.filter_cons]
    · simp [ha, hparent]

include hjoined in
private theorem joined_dualize : ∀ c ∈ (t.dualize n q wrap).connections,
    (t.dualize n q wrap).Names c.child := by
  intro c hc
  rw [names_dualize]
  rcases List.mem_cons.mp hc with rfl | hc
  · exact .inr (.inl rfl)
  · obtain ⟨e, he, hc⟩ := List.mem_flatMap.mp hc
    have hmem := mem_connections he
    by_cases hparent : e.1.parent = n.id
    · rw [if_pos hparent, List.mem_cons, List.mem_singleton] at hc
      rcases hc with rfl | rfl
      · exact .inr (.inr ⟨e, List.mem_filter.mpr ⟨he, by simpa using hparent⟩, rfl⟩)
      · exact .inl (hjoined e.1 hmem).2
    · rw [if_neg hparent, List.mem_singleton] at hc
      exact .inl (hc ▸ (hjoined e.1 hmem).2)

end Connections

theorem map_id_childrenOf (h : ∀ c ∈ t.connections, t.Names c.child) (id : String) :
    (t.childrenOf id).map (·.id) =
      (Connection.sorted (t.connections.filter (·.parent = id))).map (·.child) := by
  have hall : ∀ c ∈ Connection.sorted (t.connections.filter (·.parent = id)),
      (t.node? c.child).map (·.id) = some c.child := by
    intro c hc
    rw [Connection.sorted, List.mem_mergeSort] at hc
    obtain ⟨m, hm⟩ := names_iff_node?.mp (h c (List.mem_filter.mp hc).1)
    rw [hm, Option.map_some, id_of_node? hm]
  rw [childrenOf, List.map_filterMap, List.filterMap_congr hall, List.filterMap_eq_map']

def outgoingSorted (t : Tree) (id : String) : List (Connection × Nat) :=
  (t.outgoing id).mergeSort fun a b => a.1.order ≤ b.1.order

private theorem sorted_outgoing (id : String) {g : Connection × Nat → Connection}
    (hg : ∀ e, (g e).order = e.1.order) :
    Connection.sorted ((t.outgoing id).map g) = (t.outgoingSorted id).map g := by
  rw [Connection.sorted, outgoingSorted]
  symm
  apply List.map_mergeSort
  intro a _ b _
  rw [hg, hg]

theorem childrenOf_eq_outgoing (hwf : t.WellFormed) (id : String) :
    (t.childrenOf id).map (·.id) = (t.outgoingSorted id).map (·.1.child) := by
  rw [map_id_childrenOf (fun c hc => (hwf.joined c hc).2), ← map_fst_outgoing,
    sorted_outgoing id fun _ => rfl, List.map_map]
  rfl

section Dualized

variable (hwf : t.WellFormed) (h : t.Spares q wrap)

include hwf h

theorem childrenOf_dualize_kept {id : String} (hid : t.Names id) (hne : id ≠ n.id) :
    ((t.dualize n q wrap).childrenOf id).map (·.id) = (t.childrenOf id).map (·.id) := by
  rw [map_id_childrenOf (joined_dualize hwf.joined),
    map_id_childrenOf fun c hc => (hwf.joined c hc).2, filter_dualize_kept h hid hne]

theorem childrenOf_dualize_self (hn : n ∈ t.nodes) :
    ((t.dualize n q wrap).childrenOf n.id).map (·.id) = [q] := by
  rw [map_id_childrenOf (joined_dualize hwf.joined),
    filter_dualize_self ⟨n, hn, rfl⟩ h]
  simp [Connection.sorted]

theorem childrenOf_dualize_dual (hn : n ∈ t.nodes) :
    ((t.dualize n q wrap).childrenOf q).map (·.id) =
      (t.outgoingSorted n.id).map (wrap ·.2) := by
  rw [map_id_childrenOf (joined_dualize hwf.joined),
    filter_dualize_dual hwf.joined ⟨n, hn, rfl⟩ h,
    sorted_outgoing n.id (g := fun e => ⟨q, wrap e.2, e.1.order⟩) fun _ => rfl, List.map_map]
  rfl

theorem childrenOf_dualize_wrap (hn : n ∈ t.nodes) {e : Connection × Nat} (he : e ∈ t.outgoing n.id) :
    ((t.dualize n q wrap).childrenOf (wrap e.2)).map (·.id) = [e.1.child] := by
  rw [map_id_childrenOf (joined_dualize hwf.joined),
    filter_dualize_wrap hwf.joined ⟨n, hn, rfl⟩ h he]
  simp [Connection.sorted]

theorem node?_dualize_kept {id : String} (hid : t.Names id) (hne : id ≠ n.id) :
    (t.dualize n q wrap).node? id = t.node? id := by
  obtain ⟨m, hm⟩ := names_iff_node?.mp hid
  obtain ⟨hmem, rfl⟩ := (node?_eq_some_iff hwf.distinct).mp hm
  rw [hm, node?_eq_some_iff (distinct_dualize hwf.distinct h)]
  refine ⟨List.mem_append_left _ (List.mem_map.mpr ⟨m, hmem, if_neg hne⟩), rfl⟩

theorem node?_dualize_self (hn : n ∈ t.nodes) :
    (t.dualize n q wrap).node? n.id = some { n with type := "inverter" } := by
  rw [node?_eq_some_iff (distinct_dualize hwf.distinct h)]
  exact ⟨List.mem_append_left _ (List.mem_map.mpr ⟨n, hn, if_pos rfl⟩), rfl⟩

theorem node?_dualize_dual :
    (t.dualize n q wrap).node? q = some (.create q (Catalog.dualType n.type)) := by
  rw [node?_eq_some_iff (distinct_dualize hwf.distinct h)]
  exact ⟨List.mem_append_right _ List.mem_cons_self, rfl⟩

theorem node?_dualize_wrap {e : Connection × Nat} (he : e ∈ t.outgoing n.id) :
    (t.dualize n q wrap).node? (wrap e.2) = some (.create (wrap e.2) "inverter") := by
  rw [node?_eq_some_iff (distinct_dualize hwf.distinct h)]
  exact ⟨List.mem_append_right _ (List.mem_cons_of_mem _ (List.mem_map.mpr ⟨e, he, rfl⟩)), rfl⟩

end Dualized

end Tree

namespace Index

variable {t : Tree} {n : Node} {q : String} {wrap : Nat → String}

section Distinct

variable (hdistinct : (t.nodes.map (·.id)).Nodup)

include hdistinct

theorem position?_name_of_distinct (p : Fin (build t).size) :
    position? t.nodes ((build t).name p) = some p := by
  apply position?_name
  intro b hb hname
  rw [name_build, name_build] at hname
  have hsame := List.inj_on_of_nodup_map hdistinct (List.get_mem _ b) (List.get_mem _ p) hname
  exact absurd (hdistinct.of_map.get_inj_iff.mp hsame) (Fin.ne_of_lt hb)

theorem node_eq_of_node? {p : Fin (build t).size} {m : Node}
    (h : t.node? ((build t).name p) = some m) : ((build t).slot p).node = m := by
  rw [node?_eq, position?_name_of_distinct hdistinct p] at h
  rw [slot_build]
  exact Option.some.inj h

theorem map_name_children (p : Fin (build t).size) :
    ((build t).slot p).children.map (build t).name =
      (t.childrenOf ((build t).name p)).map (·.id) := by
  rw [← map_node_children (position?_name_of_distinct hdistinct p), List.map_map]
  rfl

end Distinct

theorem definition_build (p : Fin (build t).size) :
    ((build t).slot p).definition = ((build t).slot p).node.definition? := by
  rw [slot_build]

theorem names_name (p : Fin (build t).size) : t.Names ((build t).name p) :=
  ⟨t.nodes.get p, List.get_mem _ p, (name_build t p).symm⟩

private theorem forall₂_of_map_eq_map {α β γ δ ε : Type} {f : α → δ} {g : β → ε} {f' : γ → δ}
    {g' : γ → ε} {xs : List α} {ys : List β} {zs : List γ} (hxs : xs.map f = zs.map f')
    (hys : ys.map g = zs.map g') :
    List.Forall₂ (fun x y => ∃ z ∈ zs, f x = f' z ∧ g y = g' z) xs ys := by
  induction zs generalizing xs ys with
  | nil =>
    rw [List.map_nil, List.map_eq_nil_iff] at hxs hys
    subst hxs hys
    exact .nil
  | cons z zs ih =>
    rw [List.map_cons, List.map_eq_cons_iff] at hxs hys
    obtain ⟨x, xs, rfl, hx, hxs⟩ := hxs
    obtain ⟨y, ys, rfl, hy, hys⟩ := hys
    refine .cons ⟨z, List.mem_cons_self, hx, hy⟩ ((ih hxs hys).imp ?_)
    rintro x y ⟨z, hz, h⟩
    exact ⟨z, List.mem_cons_of_mem _ hz, h⟩

section Dualized

variable (hwf : t.WellFormed) (h : t.Spares q wrap)

include hwf h

theorem sameSlot_dualize {a : Fin (build t).size} {a' : Fin (build (t.dualize n q wrap)).size}
    (hname : (build t).name a = (build (t.dualize n q wrap)).name a')
    (hne : (build t).name a ≠ n.id) :
    SameSlot (fun c c' => (build t).Edge a c ∧
        (build t).name c = (build (t.dualize n q wrap)).name c')
      ((build t).slot a) ((build (t.dualize n q wrap)).slot a') := by
  have hdistinct := Tree.distinct_dualize hwf.distinct h (n := n)
  have hnames := names_name a
  obtain ⟨m, hm⟩ := Tree.names_iff_node?.mp hnames
  have hnode := node_eq_of_node? hwf.distinct hm
  rw [← Tree.node?_dualize_kept hwf h hnames hne, hname] at hm
  have hnode' := node_eq_of_node? hdistinct hm
  refine .of_node (hnode.trans hnode'.symm) ?_
    ((forall₂_of_map_eq ?_).imp fun _ _ h => ⟨h.2.1, h.1⟩)
  · rw [definition_build, definition_build, hnode, hnode']
  · rw [map_name_children hwf.distinct, map_name_children hdistinct, ← hname,
      Tree.childrenOf_dualize_kept hwf h hnames hne]

private theorem inverts_of_node? {w : Fin (build (t.dualize n q wrap)).size} {m : Node}
    (hnode : (t.dualize n q wrap).node? ((build (t.dualize n q wrap)).name w) = some m)
    (htype : m.type = "inverter") {id : String}
    (hchildren : ((t.dualize n q wrap).childrenOf ((build (t.dualize n q wrap)).name w)).map (·.id) =
      [id]) :
    ∃ c, (build (t.dualize n q wrap)).Inverts w c ∧ (build (t.dualize n q wrap)).name c = id := by
  have hdistinct := Tree.distinct_dualize hwf.distinct h (n := n)
  obtain ⟨d, hd, hkind⟩ := Catalog.lookup_inverter
  rw [← map_name_children hdistinct, List.map_eq_singleton_iff] at hchildren
  obtain ⟨c, hc, hname⟩ := hchildren
  refine ⟨c, ⟨⟨d, ?_, hkind⟩, hc⟩, hname⟩
  rw [definition_build, node_eq_of_node? hdistinct hnode, Node.definition?, htype, hd]

variable (hn : n ∈ t.nodes)

include hn

theorem exists_inverts_dual {a : Fin (build (t.dualize n q wrap)).size}
    (ha : (build (t.dualize n q wrap)).name a = n.id) :
    ∃ b, (build (t.dualize n q wrap)).Inverts a b ∧
      (build (t.dualize n q wrap)).name b = q := by
  have hnode := Tree.node?_dualize_self hwf h hn
  have hchildren := Tree.childrenOf_dualize_self hwf h hn
  rw [← ha] at hnode hchildren
  exact inverts_of_node? hwf h hnode rfl hchildren

theorem definition_dual (htype : n.type ∈ Catalog.orderedTypes) {a : Fin (build t).size}
    (ha : (build t).name a = n.id) {b : Fin (build (t.dualize n q wrap)).size}
    (hb : (build (t.dualize n q wrap)).name b = q) :
    ∃ d d' c stopOn shuffled, ((build t).slot a).definition = some d ∧ d.kind = .composite c ∧
      ((build (t.dualize n q wrap)).slot b).definition = some d' ∧
        d'.kind = .composite c.dual ∧ c.ordering? = some (stopOn, shuffled) := by
  have hnode : t.node? ((build t).name a) = some n :=
    (Tree.node?_eq_some_iff hwf.distinct).mpr ⟨hn, ha.symm⟩
  have hdual : (t.dualize n q wrap).node? ((build (t.dualize n q wrap)).name b) =
      some (.create q (Catalog.dualType n.type)) := by
    rw [hb]
    exact Tree.node?_dualize_dual hwf h
  rw [definition_build, definition_build, node_eq_of_node? hwf.distinct hnode,
    node_eq_of_node? (Tree.distinct_dualize hwf.distinct h) hdual]
  exact Catalog.lookup_dualType htype

theorem forall₂_children_dual {a : Fin (build t).size} (ha : (build t).name a = n.id)
    {b : Fin (build (t.dualize n q wrap)).size} (hb : (build (t.dualize n q wrap)).name b = q) :
    List.Forall₂ (fun c w => (∃ j, (build (t.dualize n q wrap)).name w = wrap j) ∧
        ∃ c', (build (t.dualize n q wrap)).Inverts w c' ∧
          (build t).name c = (build (t.dualize n q wrap)).name c')
      ((build t).slot a).children ((build (t.dualize n q wrap)).slot b).children := by
  have hdistinct := Tree.distinct_dualize hwf.distinct h (n := n)
  have hchildren := map_name_children hwf.distinct a
  rw [ha, Tree.childrenOf_eq_outgoing hwf] at hchildren
  have hwraps := map_name_children hdistinct b
  rw [hb, Tree.childrenOf_dualize_dual hwf h hn] at hwraps
  refine (forall₂_of_map_eq_map hchildren hwraps).imp ?_
  rintro c w ⟨e, he, hc, hw⟩
  have he : e ∈ t.outgoing n.id := List.mem_mergeSort.mp he
  have hnode := Tree.node?_dualize_wrap hwf h he
  have hchild := Tree.childrenOf_dualize_wrap hwf h hn he
  rw [← hw] at hnode hchild
  obtain ⟨c', hinverts, hc'⟩ := inverts_of_node? hwf h hnode rfl hchild
  exact ⟨⟨e.2, hw⟩, c', hinverts, hc.trans hc'.symm⟩

end Dualized

end Index

end BehaviorTree
