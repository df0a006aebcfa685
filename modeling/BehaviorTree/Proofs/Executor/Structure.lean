import BehaviorTree.Proofs.Executor.Play
import BehaviorTree.Proofs.Tick.Depth
import BehaviorTree.Proofs.Tree.Reach

/-!
# Plays of trees with the same structure

A play shows nothing of a tree but what the root leads to. Two trees that are the same from the root
have child indexes that need not agree in any position or in the number of nodes; they are related by
the names that both roots lead to, and by the length of a walk that leads there on both sides.
-/

namespace BehaviorTree

variable {t t' : Tree}

namespace Index

/-- Whether positions stand for one name that the root leads to. -/
def Twins (t t' : Tree) (p : Fin (build t).size) (p' : Fin (build t').size) : Prop :=
  ∃ id, t.Reaches id ∧ position? t.nodes id = some p ∧ position? t'.nodes id = some p'

theorem Twins.node (h : t.SameFromRoot t') {p : Fin (build t).size} {p' : Fin (build t').size}
    (htwins : Twins t t' p p') : ((build t).slot p).node = ((build t').slot p').node := by
  obtain ⟨id, hid, hp, hp'⟩ := htwins
  have hnode := h.node id hid
  rw [node?_eq, node?_eq, hp, hp'] at hnode
  rw [slot_build, slot_build]
  exact (Option.some.inj hnode).symm

theorem Twins.children (h : t.SameFromRoot t') {p : Fin (build t).size} {p' : Fin (build t').size}
    (htwins : Twins t t' p p') :
    List.Forall₂ (fun c c' => Twins t t' c c' ∧ (build t).Edge p c ∧ (build t').Edge p' c')
      ((build t).slot p).children ((build t').slot p').children := by
  obtain ⟨id, hid, hp, hp'⟩ := htwins
  have hname : (build t).name p = id := (name_build t p).trans (position?_eq_some_iff.mp hp).1
  have hnames := h.children id hid (names_of_position? hp)
  rw [← map_node_children hp, ← map_node_children hp', List.map_map, List.map_map] at hnames
  refine (forall₂_of_map_eq hnames.symm).imp ?_
  rintro c c' ⟨heq, hedge, hedge'⟩
  have heq : (build t).name c = (build t').name c' := heq
  refine ⟨⟨_, ?_, position?_of_mem_children hedge, ?_⟩, hedge, hedge'⟩
  · exact hid.step (hname ▸ joins_of_edge hedge)
  · rw [heq]
    exact position?_of_mem_children hedge'

theorem exists_twin (h : t.SameFromRoot t') {id : String} (hid : t.Reaches id) :
    Option.Rel (Twins t t') (position? t.nodes id) (position? t'.nodes id) := by
  apply rel_position?
  · rw [h.node id hid]
  · intro p p' hp hp'
    exact ⟨id, hid, hp, hp'⟩

/-- Twins at the end of walks of one length from the roots, with the room that is left there. -/
def Level (t t' : Tree) (root : Fin (build t).size) (root' : Fin (build t').size) (room : Nat)
    (p : Fin (build t).size) (room' : Nat) (p' : Fin (build t').size) : Prop :=
  Twins t t' p p' ∧ ∃ k, Walk (build t).Edge k root p ∧ Walk (build t').Edge k root' p' ∧
    room + k = (build t).size + 1 ∧ room' + k = (build t').size + 1

/-- Trees that are the same from the root, which leads to no cycle, are ticked the same: walks from
the root end before the room does. -/
theorem simulates_level (h : t.SameFromRoot t') (hacyclic : t.AcyclicFromRoot)
    {root : Fin (build t).size} {root' : Fin (build t').size} (hroot : (build t).root = some root)
    (hroot' : (build t').root = some root') :
    Simulates (build t) (build t') (· = ·) (· = ·) (Level t t' root root') where
  room := by
    rintro room p room' p' ⟨-, k, hwalk, hwalk', hroom, hroom'⟩
    -- Neither side gets to the end of its room, however different the numbers of nodes are.
    have hlt := lt_size_of_cycleFree hroot hacyclic.cycleFree hwalk
    have hlt' := lt_size_of_cycleFree hroot' (h.acyclicFromRoot hacyclic).cycleFree hwalk'
    omega
  slot := by
    rintro room p room' p' ⟨htwins, k, hwalk, hwalk', hroom, hroom'⟩
    have hnode := htwins.node h
    refine .of_node hnode ?_ ((htwins.children h).imp ?_)
    · rw [slot_build, slot_build] at hnode ⊢
      exact congrArg Node.definition? hnode
    · rintro c c' ⟨htwins, hedge, hedge'⟩
      exact ⟨htwins, k + 1, hwalk.snoc hedge, hwalk'.snoc hedge', by omega, by omega⟩
  shows _ := Store.shows_eq _
  draws _ _ _ _ := rfl

theorem rootsAlike_of_sameFromRoot (h : t.SameFromRoot t') (hacyclic : t.AcyclicFromRoot) :
    Executor.RootsAlike (· = ·) (· = ·) (build t) (build t') := by
  have hroots : Option.Rel (Twins t t') (build t).root (build t').root := by
    change Option.Rel _ (t.root.bind (position? t.nodes)) (t'.root.bind (position? t'.nodes))
    rw [h.root]
    cases hroot : t.root with
    | none => exact .none
    | some id => exact exists_twin h ⟨id, hroot, .refl⟩
  rw [Executor.RootsAlike]
  cases hroot : (build t).root with
  | none =>
    rw [hroot] at hroots
    cases hroot' : (build t').root with
    | none => exact .none
    | some root' => simp [hroot'] at hroots
  | some root =>
    rw [hroot] at hroots
    cases hroot' : (build t').root with
    | none => simp [hroot'] at hroots
    | some root' =>
      rw [hroot'] at hroots
      obtain ⟨htwins⟩ := hroots
      refine .some fun m f g hf => ?_
      exact (simulates_level h hacyclic hroot hroot').alike_tick
        ⟨htwins, 0, .here root, .here root', rfl, rfl⟩ hf

end Index

/-- Whether executors of two trees play the same from the same states and generator, whatever has
been done with them before. -/
def Tree.PlaysAs (t t' : Tree) : Prop :=
  ∀ e e' : Executor, e.Reachable → e'.Reachable → e.tree = t → e'.tree = t' →
    e.store = e'.store → e.generator = e'.generator → ∀ scene turns,
      List.Forall₂ (Executed.Like (· = ·) (· = ·)) (e.play scene turns) (e'.play scene turns)

theorem Tree.SameFromRoot.playsAs (h : t.SameFromRoot t') (hacyclic : t.AcyclicFromRoot)
    (hsaved : t.blackboard = t'.blackboard) : t.PlaysAs t' := by
  rintro e e' he he' rfl rfl hstore hgenerator scene turns
  exact Executor.like_play he.currentIndex_eq he'.currentIndex_eq
    (Index.rootsAlike_of_sameFromRoot h hacyclic) ⟨hsaved, hstore, hgenerator⟩ scene turns

namespace Executor

/-- A play depends on nothing but the nodes that the root leads to, where it leads to no cycle. So
nodes may change places, nodes that are not reached and connections without an end may go, and
children may be numbered anew. -/
theorem play_congr_structure :
    (∀ t t' : Tree, t.SameFromRoot t' → t.AcyclicFromRoot → t.blackboard = t'.blackboard →
      t.PlaysAs t') ∧
    ∀ t : Tree, t.AcyclicFromRoot →
      (∀ nodes, nodes.Perm t.nodes → (t.nodes.map (·.id)).Nodup →
        t.PlaysAs { t with nodes := nodes }) ∧
      (∀ keep : Node → Bool, (∀ id n, t.Reaches id → t.node? id = some n → keep n) →
        t.PlaysAs { t with nodes := t.nodes.filter keep }) ∧
      (∀ keep : Connection → Bool,
        (∀ c ∈ t.connections, t.Names c.parent → t.Names c.child → keep c) →
          t.PlaysAs { t with connections := t.connections.filter keep }) ∧
      (∀ number : String → Int32 → Int32,
        (∀ c ∈ t.connections, ∀ d ∈ t.connections, c.parent = d.parent → c.order < d.order →
          number c.parent c.order < number d.parent d.order) → t.PlaysAs (t.renumber number)) := by
  refine ⟨fun t t' h hacyclic => h.playsAs hacyclic, fun t hacyclic => ⟨?_, ?_, ?_, ?_⟩⟩
  · intro nodes hperm hnodup
    exact (Tree.sameFromRoot_perm hperm hnodup).playsAs hacyclic rfl
  · intro keep hkeep
    exact (Tree.sameFromRoot_filter_nodes hkeep).playsAs hacyclic rfl
  · intro keep hkeep
    exact (Tree.sameFromRoot_filter_connections hkeep).playsAs hacyclic rfl
  · intro number hnumber
    exact (Tree.sameFromRoot_renumber hnumber).playsAs hacyclic rfl

theorem play_congr_structure_spare :
    let t : Tree :=
      { Tree.create "" "" with
        root := some "root"
        nodes := [⟨"root", "sequence", ∅⟩, ⟨"first", "always", ∅⟩, ⟨"second", "wait", ∅⟩,
          ⟨"spare", "idle", ∅⟩]
        connections := [⟨"root", "second", 2⟩, ⟨"root", "none", 0⟩, ⟨"root", "first", 1⟩] }
    let t' : Tree :=
      { Tree.create "" "" with
        root := some "root"
        nodes := [⟨"second", "wait", ∅⟩, ⟨"root", "sequence", ∅⟩, ⟨"first", "always", ∅⟩]
        connections := [⟨"root", "first", 7⟩, ⟨"root", "second", 7⟩] }
    let other := ((ofGenerator (.single "wait" []) ⟨0⟩).execute "" 1 ⟨∅, ∅⟩).executor
    let turn : Turn := ⟨"", 1, id⟩
    t.SameFromRoot t' ∧ t.AcyclicFromRoot ∧ other.store ≠ ∅ ∧
      List.Forall₂ (Executed.Like (· = ·) (· = ·))
        (((ofGenerator t ⟨0⟩).restore other.store).play ⟨∅, ∅⟩ [turn, turn])
        (((ofGenerator t' ⟨0⟩).restore other.store).play ⟨∅, ∅⟩ [turn, turn]) ∧
      t.PlaysAs { t with nodes := t.nodes.reverse } ∧
      t.PlaysAs { t with nodes := t.nodes.filter (·.id ≠ "spare") } ∧
      t.PlaysAs { t with connections := t.connections.filter (·.child ≠ "none") } ∧
      t.PlaysAs (t.renumber fun _ order => if order = 2 then 9 else order) := by
  intro t t' other turn
  have hreach : ∀ id, t.Reaches id → id = "root" ∨ id = "first" ∨ id = "second" := by
    rintro id ⟨root, hroot, hreach⟩
    rcases hreach.cases_tail with rfl | ⟨b, -, ⟨c, hc, -, rfl⟩, -, hchild⟩
    · exact .inl (Option.some.inj hroot).symm
    · have hends : ∀ c ∈ t.connections, t.Names c.child → c.child = "first" ∨ c.child = "second" := by
        unfold Tree.Names
        decide
      exact .inr (hends c hc hchild)
  have hsame : t.SameFromRoot t' := by
    have hsorted : Connection.sorted (t.connections.filter (·.parent = "root")) =
        [⟨"root", "none", 0⟩, ⟨"root", "first", 1⟩, ⟨"root", "second", 2⟩] := by
      simp [t, Connection.sorted, List.mergeSort]
    have hsorted' : Connection.sorted (t'.connections.filter (·.parent = "root")) =
        [⟨"root", "first", 7⟩, ⟨"root", "second", 7⟩] := by
      simp [t', Connection.sorted, List.mergeSort]
    refine ⟨rfl, fun id hid => ?_, fun id hid _ => ?_⟩
    · rcases hreach id hid with rfl | rfl | rfl <;> rfl
    · rcases hreach id hid with rfl | rfl | rfl
      · rw [Tree.childrenOf, Tree.childrenOf, hsorted, hsorted']
        rfl
      · simp [Tree.childrenOf, Connection.sorted, t, t']
      · simp [Tree.childrenOf, Connection.sorted, t, t']
  have hacyclic : t.AcyclicFromRoot :=
    ((Tree.cycleNode?_eq_none_iff (by decide)).mp (by decide)).fromRoot
  have hstore : other.store ≠ ∅ := by decide +kernel
  obtain ⟨hgeneral, hspecial⟩ := play_congr_structure
  obtain ⟨hperm, hnodes, hconnections, hnumber⟩ := hspecial t hacyclic
  have hother : other.Reachable := .execute _ _ _ (.new _ _)
  refine ⟨hsame, hacyclic, hstore, ?_, ?_, ?_, ?_, ?_⟩
  · exact hgeneral t t' hsame hacyclic rfl _ _ (.restore (.new _ _) hother)
      (.restore (.new _ _) hother) rfl rfl rfl rfl _ _
  · exact hperm _ (List.reverse_perm _) (by decide)
  · refine hnodes _ fun id n hid hn => ?_
    have hname : n.id ≠ "spare" := by
      rw [Tree.id_of_node? hn]
      rcases hreach id hid with rfl | rfl | rfl <;> decide
    simpa using hname
  · refine hconnections _ ?_
    unfold Tree.Names
    decide
  · exact hnumber _ (by decide)

end Executor

end BehaviorTree
