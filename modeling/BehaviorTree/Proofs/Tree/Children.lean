import BehaviorTree.Proofs.Tree.Link

/-!
# Children by position

The child index has at the position of a node what the tree lists for its name: sorting all
connections and then choosing those of a parent comes to the same as choosing them first, since the
sort is stable. A node behind another one of its name takes no part.
-/

namespace BehaviorTree

section

variable {α : Type} {le : α → α → Bool}

private theorem eq_of_append_eq_append {p : α → Bool} {k₁ k₂ l₁ l₂ : List α}
    (h : k₁ ++ k₂ = l₁ ++ l₂) (hk₁ : ∀ b ∈ k₁, p b) (hk₂ : ∀ b ∈ k₂, ¬ p b)
    (hl₁ : ∀ b ∈ l₁, p b) (hl₂ : ∀ b ∈ l₂, ¬ p b) : k₁ = l₁ ∧ k₂ = l₂ := by
  have hfirst := congrArg (List.filter p) h
  rw [List.filter_append, List.filter_append, List.filter_eq_self.mpr hk₁,
    List.filter_eq_self.mpr hl₁, List.filter_eq_nil_iff.mpr hk₂, List.filter_eq_nil_iff.mpr hl₂,
    List.append_nil, List.append_nil] at hfirst
  subst hfirst
  exact ⟨rfl, List.append_cancel_left h⟩

/-- A stable sort keeps the order of what is chosen. -/
theorem mergeSort_filter (trans : ∀ a b c, le a b → le b c → le a c)
    (total : ∀ a b, le a b || le b a) (p : α → Bool) (l : List α) :
    (l.filter p).mergeSort le = (l.mergeSort le).filter p := by
  induction l with
  | nil => simp
  | cons a l ih =>
    obtain ⟨l₁, l₂, hcons, hl, hl₁⟩ := List.mergeSort_cons trans total a l
    have hsorted := List.pairwise_mergeSort trans total (a :: l)
    rw [hcons] at hsorted
    have hl₂ : ∀ b ∈ l₂, le a b :=
      (List.pairwise_cons.mp (List.pairwise_append.mp hsorted).2.1).1
    rw [hcons, List.filter_append]
    by_cases ha : p a
    · rw [List.filter_cons_of_pos ha, List.filter_cons_of_pos ha]
      obtain ⟨k₁, k₂, hcons', hk, hk₁⟩ := List.mergeSort_cons trans total a (l.filter p)
      have hsorted' := List.pairwise_mergeSort trans total (a :: l.filter p)
      rw [hcons'] at hsorted'
      have hk₂ : ∀ b ∈ k₂, le a b :=
        (List.pairwise_cons.mp (List.pairwise_append.mp hsorted').2.1).1
      have hsplit : k₁ ++ k₂ = l₁.filter p ++ l₂.filter p := by
        rw [← hk, ih, hl, List.filter_append]
      have heq := eq_of_append_eq_append (p := fun b => !le a b) hsplit hk₁
        (fun b hb => by simp [hk₂ b hb]) (fun b hb => hl₁ b (List.mem_filter.mp hb).1)
        (fun b hb => by simp [hl₂ b (List.mem_filter.mp hb).1])
      rw [hcons', heq.1, heq.2]
    · rw [List.filter_cons_of_neg ha, List.filter_cons_of_neg ha, ih, hl, List.filter_append]

end

theorem forall₂_of_map_eq {α β γ : Type} {f : α → γ} {g : β → γ} {xs : List α} {ys : List β}
    (h : xs.map f = ys.map g) :
    List.Forall₂ (fun x y => f x = g y ∧ x ∈ xs ∧ y ∈ ys) xs ys := by
  induction xs generalizing ys with
  | nil =>
    rw [List.map_nil, eq_comm, List.map_eq_nil_iff] at h
    subst h
    exact .nil
  | cons x xs ih =>
    rw [List.map_cons, eq_comm, List.map_eq_cons_iff] at h
    obtain ⟨y, ys, rfl, hy, hrest⟩ := h
    refine .cons ⟨hy.symm, List.mem_cons_self, List.mem_cons_self⟩ ((ih hrest.symm).imp ?_)
    rintro x y ⟨heq, hx, hy⟩
    exact ⟨heq, List.mem_cons_of_mem _ hx, List.mem_cons_of_mem _ hy⟩

theorem filter_eq_singleton {α β : Type} [DecidableEq β] {f : α → β} {l : List α}
    (hnodup : (l.map f).Nodup) {e : α} (he : e ∈ l) : l.filter (f · = f e) = [e] := by
  induction l with
  | nil => cases he
  | cons a l ih =>
    rw [List.map_cons, List.nodup_cons] at hnodup
    rcases List.mem_cons.mp he with rfl | he
    · have hothers : l.filter (f · = f e) = [] := by
        rw [List.filter_eq_nil_iff]
        intro b hb heq
        exact hnodup.1 (of_decide_eq_true heq ▸ List.mem_map_of_mem hb)
      rw [List.filter_cons_of_pos (by simp), hothers]
    · have hne : f a ≠ f e := fun heq => hnodup.1 (heq ▸ List.mem_map_of_mem he)
      rw [List.filter_cons_of_neg (by simpa using hne), ih hnodup.2 he]

namespace Connection

theorem order_trans (a b c : Connection) (hab : decide (a.order ≤ b.order))
    (hbc : decide (b.order ≤ c.order)) : decide (a.order ≤ c.order) := by
  simp only [decide_eq_true_eq] at hab hbc ⊢
  exact Int32.le_trans hab hbc

theorem order_total (a b : Connection) :
    decide (a.order ≤ b.order) || decide (b.order ≤ a.order) := by
  simpa using Int32.le_total a.order b.order

theorem sorted_filter (p : Connection → Bool) (cs : List Connection) :
    sorted (cs.filter p) = (sorted cs).filter p :=
  mergeSort_filter order_trans order_total p cs

end Connection

namespace Index

variable {t : Tree}

theorem node?_eq (t : Tree) (id : String) :
    t.node? id = (position? t.nodes id).map t.nodes.get := by
  cases hp : position? t.nodes id with
  | none =>
    rw [position?, List.findFinIdx?_eq_none_iff] at hp
    exact List.find?_eq_none.mpr fun n hn => hp n hn
  | some p =>
    obtain ⟨hname, hfirst⟩ := position?_eq_some_iff.mp hp
    rw [Tree.node?, Option.map_some, List.find?_eq_some_iff_getElem]
    refine ⟨by simpa using hname, p, p.isLt, rfl, ?_⟩
    intro j hj
    simpa using hfirst ⟨j, hj.trans p.isLt⟩ hj

theorem rel_position? {t t' : Tree} {id : String} {C : Fin t.nodes.length → Fin t'.nodes.length → Prop}
    (h : (t.node? id).isSome = (t'.node? id).isSome)
    (hC : ∀ p p', position? t.nodes id = some p → position? t'.nodes id = some p' → C p p') :
    Option.Rel C (position? t.nodes id) (position? t'.nodes id) := by
  rw [node?_eq, node?_eq, Option.isSome_map, Option.isSome_map] at h
  cases hp : position? t.nodes id with
  | none =>
    cases hp' : position? t'.nodes id with
    | none => exact .none
    | some p' => simp [hp, hp'] at h
  | some p =>
    cases hp' : position? t'.nodes id with
    | none => simp [hp, hp'] at h
    | some p' => exact .some (hC p p' hp hp')

theorem position?_name {p : Fin (build t).size}
    (h : ∀ q < p, (build t).name q ≠ (build t).name p) :
    position? t.nodes ((build t).name p) = some p := by
  refine position?_eq_some_iff.mpr ⟨(name_build t p).symm, fun q hq => ?_⟩
  have hne := h q hq
  rwa [name_build t q] at hne

theorem position?_ne {p q : Fin (build t).size} (hq : q < p)
    (hname : (build t).name q = (build t).name p) (id : String) :
    position? t.nodes id ≠ some p := by
  intro h
  obtain ⟨hid, hfirst⟩ := position?_eq_some_iff.mp h
  apply hfirst q hq
  rw [← name_build t q, hname, name_build, hid]

private theorem childrenAt_filterMap {id : String} {p : Fin t.nodes.length}
    (hp : position? t.nodes id = some p) (cs : List Connection) :
    childrenAt (cs.filterMap (link? t.nodes)) p =
      (cs.filter (·.parent = id)).filterMap (position? t.nodes ·.child) := by
  induction cs with
  | nil => rfl
  | cons c cs ih =>
    rw [childrenAt] at ih ⊢
    by_cases hc : c.parent = id
    · rw [List.filter_cons_of_pos (by simpa using hc)]
      cases hchild : position? t.nodes c.child with
      | none =>
        rw [List.filterMap_cons_none (by rw [link?, hchild]; cases position? t.nodes c.parent <;> rfl),
          List.filterMap_cons_none (by exact hchild), ih]
      | some q =>
        rw [List.filterMap_cons_some (link?_eq_some_iff.mpr ⟨hc ▸ hp, hchild⟩),
          List.filterMap_cons_some (by exact hchild), List.filter_cons_of_pos (by simp),
          List.map_cons, ih]
    · rw [List.filter_cons_of_neg (by simpa using hc), ← ih]
      cases hlink : link? t.nodes c with
      | none => rw [List.filterMap_cons_none hlink]
      | some l =>
        rw [List.filterMap_cons_some hlink, List.filter_cons_of_neg]
        intro hl
        have hparent := (link?_eq_some_iff.mp hlink).1
        rw [of_decide_eq_true hl] at hparent
        apply hc
        rw [← (position?_eq_some_iff.mp hparent).1, (position?_eq_some_iff.mp hp).1]

/-- The children at the position of a name. -/
theorem childrenAt_links {id : String} {p : Fin t.nodes.length}
    (hp : position? t.nodes id = some p) :
    childrenAt (links t) p = (Connection.sorted (t.connections.filter (·.parent = id))).filterMap
      (position? t.nodes ·.child) := by
  rw [links, childrenAt_filterMap hp, Connection.sorted_filter]

theorem children_build {id : String} {p : Fin (build t).size}
    (hp : position? t.nodes id = some p) : ((build t).slot p).children =
      (Connection.sorted (t.connections.filter (·.parent = id))).filterMap
        (position? t.nodes ·.child) := by
  rw [slot_build]
  exact childrenAt_links hp

private theorem node_build (t : Tree) :
    (fun p => ((build t).slot p).node) = (t.nodes.get : Fin t.nodes.length → Node) :=
  funext fun p => congrArg (·.node) (slot_build t p)

theorem map_node_children {id : String} {p : Fin (build t).size}
    (hp : position? t.nodes id = some p) :
    ((build t).slot p).children.map (fun c => ((build t).slot c).node) = t.childrenOf id := by
  have hget : ∀ cs : List Connection, (cs.filterMap (position? t.nodes ·.child)).map t.nodes.get =
      cs.filterMap (t.node? ·.child) := by
    intro cs
    rw [List.map_filterMap]
    simp only [node?_eq]
  rw [children_build hp, node_build]
  exact hget _

theorem position?_of_mem_children {p c : Fin (build t).size}
    (h : c ∈ ((build t).slot p).children) :
    position? t.nodes ((build t).name c) = some c := by
  obtain ⟨l, -, -, hc⟩ := edge_iff.mp h
  rw [name_build, (position?_eq_some_iff.mp hc).1]
  exact hc

theorem map_node_root (t : Tree) :
    (build t).root.map (fun p => ((build t).slot p).node) = t.rootNode? := by
  rw [node_build, Tree.rootNode?]
  change (t.root.bind (position? t.nodes)).map t.nodes.get = _
  cases t.root with
  | none => rfl
  | some id => exact (node?_eq t id).symm

theorem exists_root {t : Tree} {n : Node} (h : t.rootNode? = some n) :
    ∃ root, (build t).root = some root ∧ ((build t).slot root).node = n := by
  rw [← map_node_root] at h
  exact Option.map_eq_some_iff.mp h

/-- The child index of a tree lists the children that the tree does, for the first node of each
name; other nodes of the name have no children, are no child and are not the root. -/
theorem build_lists_childrenOf (t : Tree) :
    (∀ p, (∀ q < p, (build t).name q ≠ (build t).name p) →
      ((build t).slot p).children.map (fun c => ((build t).slot c).node) =
        t.childrenOf ((build t).name p)) ∧
    (∀ p, (∃ q < p, (build t).name q = (build t).name p) →
      ((build t).slot p).children = [] ∧ (∀ q, p ∉ ((build t).slot q).children) ∧
        (build t).root ≠ some p) ∧
    (build t).root.map (fun p => ((build t).slot p).node) = t.rootNode? := by
  refine ⟨fun p hfirst => map_node_children (position?_name hfirst), ?_, map_node_root t⟩
  rintro p ⟨q, hq, hname⟩
  refine ⟨?_, ?_, ?_⟩
  · rw [List.eq_nil_iff_forall_not_mem]
    intro c hc
    obtain ⟨l, -, hparent, -⟩ := edge_iff.mp hc
    exact position?_ne hq hname l.parent hparent
  · intro r hr
    exact position?_ne hq hname _ (position?_of_mem_children hr)
  · intro hroot
    obtain ⟨id, -, hid⟩ := Option.bind_eq_some_iff.mp hroot
    exact position?_ne hq hname id hid

theorem build_lists_childrenOf_twice :
    let t : Tree :=
      { Tree.create "" "" with
        root := some "root"
        nodes := [⟨"root", "sequence", ∅⟩, ⟨"leaf", "wait", ∅⟩, ⟨"root", "idle", ∅⟩]
        connections := [⟨"root", "root", 2⟩, ⟨"root", "none", 0⟩, ⟨"root", "leaf", -1⟩,
          ⟨"root", "leaf", 2⟩] }
    let first : Fin (build t).size := ⟨0, by decide⟩
    let again : Fin (build t).size := ⟨2, by decide⟩
    (∀ q < first, (build t).name q ≠ (build t).name first) ∧
      ((build t).slot first).children.map (fun c => ((build t).slot c).node) =
        t.childrenOf ((build t).name first) ∧
      t.childrenOf ((build t).name first) =
        [⟨"leaf", "wait", ∅⟩, ⟨"root", "sequence", ∅⟩, ⟨"leaf", "wait", ∅⟩] ∧
      (∃ q < again, (build t).name q = (build t).name again) ∧
      ((build t).slot again).children = [] := by
  intro t first again
  have hfirst : ∀ q < first, (build t).name q ≠ (build t).name first :=
    fun q hq => absurd hq (Nat.not_lt_zero q)
  have hagain : ∃ q < again, (build t).name q = (build t).name again :=
    ⟨first, by decide, by decide⟩
  have hsorted : Connection.sorted (t.connections.filter (·.parent = "root")) =
      [⟨"root", "leaf", -1⟩, ⟨"root", "none", 0⟩, ⟨"root", "root", 2⟩, ⟨"root", "leaf", 2⟩] := by
    simp [t, Connection.sorted, List.mergeSort]
  have hchildren : t.childrenOf "root" =
      [⟨"leaf", "wait", ∅⟩, ⟨"root", "sequence", ∅⟩, ⟨"leaf", "wait", ∅⟩] := by
    rw [Tree.childrenOf, hsorted]
    decide
  have hall := build_lists_childrenOf t
  exact ⟨hfirst, hall.1 first hfirst, hchildren, hagain, (hall.2.1 again hagain).1⟩

end Index

end BehaviorTree
