import BehaviorTree.Proofs.Tree.WellFormed
import BehaviorTree.Tree.Index
import Mathlib.Data.List.Nodup

/-!
# Links between positions

The child index of a tree links the positions of nodes as its connections join their names. Only
the first node of a name takes part, so among the nodes that can be reached from the root a name
stands for one position.
-/

namespace BehaviorTree

open Relation

def Tree.Joins (t : Tree) (a b : String) : Prop := t.Connects a b ∧ t.Names a ∧ t.Names b

namespace Index

/-- Whether a position lists another one among its children. -/
def Edge (ix : Index) (p q : Fin ix.size) : Prop := q ∈ (ix.slot p).children

def Reachable (ix : Index) (p : Fin ix.size) : Prop :=
  ∃ root, ix.root = some root ∧ ReflTransGen ix.Edge root p

/-- No cycle can be reached from the root. -/
def CycleFree (ix : Index) : Prop := ∀ p, ix.Reachable p → ¬ TransGen ix.Edge p p

def name (ix : Index) (p : Fin ix.size) : String := (ix.slot p).node.id

theorem slot_build (t : Tree) (p : Fin (build t).size) : (build t).slot p =
    ⟨t.nodes.get p, (t.nodes.get p).definition?, childrenAt (links t) p⟩ :=
  Vector.getElem_ofFn p.isLt

theorem name_build (t : Tree) (p : Fin (build t).size) :
    (build t).name p = (t.nodes.get p).id := by
  rw [name, slot_build]

theorem position?_eq_some_iff {nodes : List Node} {id : String} {p : Fin nodes.length} :
    position? nodes id = some p ↔ (nodes.get p).id = id ∧ ∀ q < p, (nodes.get q).id ≠ id := by
  simp [position?]

theorem exists_position? {t : Tree} {id : String} (h : t.Names id) :
    ∃ p, position? t.nodes id = some p := by
  rw [← Option.ne_none_iff_exists', position?, ne_eq, List.findFinIdx?_eq_none_iff]
  obtain ⟨n, hn, hid⟩ := h
  exact fun hnone => hnone n hn (beq_iff_eq.mpr hid)

theorem names_of_position? {t : Tree} {id : String} {p : Fin t.nodes.length}
    (h : position? t.nodes id = some p) : t.Names id :=
  ⟨t.nodes.get p, List.get_mem _ p, (position?_eq_some_iff.mp h).1⟩

theorem link?_eq_some_iff {nodes : List Node} {c : Connection} {p q : Fin nodes.length} :
    link? nodes c = some (p, q) ↔
      position? nodes c.parent = some p ∧ position? nodes c.child = some q := by
  rw [link?]
  cases position? nodes c.parent <;> cases position? nodes c.child <;> simp

theorem mem_links {t : Tree} {p q : Fin t.nodes.length} :
    (p, q) ∈ links t ↔ ∃ c ∈ t.connections,
      position? t.nodes c.parent = some p ∧ position? t.nodes c.child = some q := by
  simp only [links, List.mem_filterMap, Connection.sorted, List.mem_mergeSort, link?_eq_some_iff]

theorem mem_childrenAt {n : Nat} {links : List (Fin n × Fin n)} {p q : Fin n} :
    q ∈ childrenAt links p ↔ (p, q) ∈ links := by
  simp [childrenAt]

theorem edge_iff {t : Tree} {p q : Fin (build t).size} :
    (build t).Edge p q ↔ ∃ c ∈ t.connections,
      position? t.nodes c.parent = some p ∧ position? t.nodes c.child = some q := by
  rw [Edge, slot_build]
  exact mem_childrenAt.trans mem_links

theorem joins_of_edge {t : Tree} {p q : Fin (build t).size} (h : (build t).Edge p q) :
    t.Joins ((build t).name p) ((build t).name q) := by
  obtain ⟨c, hc, hp, hq⟩ := edge_iff.mp h
  rw [name_build, name_build]
  have hparent := (position?_eq_some_iff.mp hp).1
  have hchild := (position?_eq_some_iff.mp hq).1
  refine ⟨⟨c, hc, hparent.symm, hchild.symm⟩, ?_, ?_⟩
  · exact hparent ▸ names_of_position? hp
  · exact hchild ▸ names_of_position? hq

theorem cycleFree_of_acyclic {t : Tree} (h : t.Acyclic) : (build t).CycleFree :=
  fun p _ hp => h ((build t).name p) <|
    TransGen.lift (build t).name (fun _ _ he => (joins_of_edge he).1) p p hp

theorem exists_cycle_of_not_cycleFree {t : Tree} (h : ¬ (build t).CycleFree) :
    ∃ root, t.root = some root ∧
      ∃ id, ReflTransGen t.Joins root id ∧ TransGen t.Joins id id := by
  simp only [CycleFree, not_forall, not_not] at h
  obtain ⟨p, ⟨start, hstart, hreach⟩, hcycle⟩ := h
  obtain ⟨root, hroot, hposition⟩ := Option.bind_eq_some_iff.mp hstart
  have hname : (build t).name start = root := by
    rw [name_build]
    exact (position?_eq_some_iff.mp hposition).1
  have hlead := ReflTransGen.lift (build t).name (fun _ _ => joins_of_edge) start p hreach
  have hback := TransGen.lift (build t).name (fun _ _ => joins_of_edge) p p hcycle
  exact ⟨root, hroot, (build t).name p, hname ▸ hlead, hback⟩

theorem position?_name_of_reachable {t : Tree} {p : Fin (build t).size}
    (h : (build t).Reachable p) : position? t.nodes ((build t).name p) = some p := by
  have hfirst : ∀ {id : String} {q : Fin (build t).size}, position? t.nodes id = some q →
      position? t.nodes ((build t).name q) = some q := by
    intro id q hq
    have hid := (position?_eq_some_iff.mp hq).1
    rw [name_build, hid]
    exact hq
  obtain ⟨root, hroot, hreach⟩ := h
  rcases hreach.cases_tail with heq | ⟨q, -, hedge⟩
  · obtain ⟨id, -, hid⟩ := Option.bind_eq_some_iff.mp hroot
    exact heq ▸ hfirst hid
  · obtain ⟨c, -, -, hchild⟩ := edge_iff.mp hedge
    exact hfirst hchild

/-- Among the nodes that the root leads to, a name stands for one position. -/
theorem name_injective_of_reachable {t : Tree} {p q : Fin (build t).size}
    (hp : (build t).Reachable p) (hq : (build t).Reachable q)
    (h : (build t).name p = (build t).name q) : p = q := by
  have hfound := position?_name_of_reachable hp
  rw [h, position?_name_of_reachable hq] at hfound
  exact (Option.some.inj hfound).symm

theorem reachable_leads {ix : Index} {p q : Fin ix.size} (hp : ix.Reachable p)
    (h : ReflTransGen ix.Edge p q) : ix.Reachable q := by
  obtain ⟨root, hroot, hreach⟩ := hp
  exact ⟨root, hroot, hreach.trans h⟩

theorem reachable_step {ix : Index} {p q : Fin ix.size} (hp : ix.Reachable p) (h : ix.Edge p q) :
    ix.Reachable q :=
  reachable_leads hp (.single h)

end Index

namespace Tree.WellFormed

open Index

variable {t : Tree}

theorem root_build (h : t.WellFormed) : ∃ root, (build t).root = some root := by
  obtain ⟨id, hid, hnames⟩ := h.rooted
  obtain ⟨p, hp⟩ := exists_position? hnames
  exact ⟨p, (congrArg (·.bind (position? t.nodes)) hid).trans hp⟩

theorem definition_build (h : t.WellFormed) (p : Fin (build t).size) :
    ∃ d, ((build t).slot p).definition = some d := by
  rw [slot_build]
  exact h.known (t.nodes.get p) (List.get_mem _ p)

private theorem position?_eq_some_iff_id (h : t.WellFormed) {id : String}
    {p : Fin t.nodes.length} : position? t.nodes id = some p ↔ (t.nodes.get p).id = id := by
  rw [position?_eq_some_iff]
  refine and_iff_left_of_imp ?_
  rintro rfl q hq hid
  have hinj := List.nodup_iff_injective_getElem.mp h.distinct
  have heq := @hinj ⟨q, by simp⟩ ⟨p, by simp⟩ (by simpa using hid)
  rw [Fin.mk.injEq] at heq
  omega

private theorem length_childrenAt_links (h : t.WellFormed) (p : Fin t.nodes.length) :
    (childrenAt (links t) p).length = t.outdegree (t.nodes.get p).id := by
  have hlink : ∀ c ∈ t.connections,
      ((link? t.nodes c).map fun l => decide (l.1 = p)).getD false =
        decide (c.parent = (t.nodes.get p).id) := by
    intro c hc
    obtain ⟨i, hi⟩ := exists_position? (h.joined c hc).1
    obtain ⟨j, hj⟩ := exists_position? (h.joined c hc).2
    rw [link?_eq_some_iff.mpr ⟨hi, hj⟩, Option.map_some, Option.getD_some, decide_eq_decide]
    have hname : position? t.nodes c.parent = some p ↔ (t.nodes.get p).id = c.parent :=
      position?_eq_some_iff_id h
    rw [hi, Option.some.injEq] at hname
    exact hname.trans eq_comm
  rw [childrenAt, List.length_map, ← List.countP_eq_length_filter, links,
    List.countP_filterMap, Connection.sorted, (List.mergeSort_perm _ _).countP_eq, Tree.outdegree]
  exact List.countP_congr fun c hc => by rw [hlink c hc]

/-- In a well-formed tree every connection counts as a link. -/
theorem length_children_build (h : t.WellFormed) (p : Fin (build t).size) :
    ((build t).slot p).children.length = t.outdegree ((build t).name p) := by
  rw [name_build, slot_build]
  exact length_childrenAt_links h p

end Tree.WellFormed

end BehaviorTree
