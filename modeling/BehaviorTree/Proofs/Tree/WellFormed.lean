import BehaviorTree.Proofs.Tree.Cycle

/-!
# Well-formed trees

The validity check accepts exactly the trees in which every name, type and end of a connection
resolves, every node has a fitting number of children, and nothing is its own descendant.
-/

namespace BehaviorTree.Tree

def Names (t : Tree) (id : String) : Prop := ∃ n ∈ t.nodes, n.id = id

theorem Names.ne {t : Tree} {id other : String} (h : t.Names id) (hother : ¬ t.Names other) :
    id ≠ other := by
  rintro rfl
  exact hother h

def outdegree (t : Tree) (id : String) : Nat := t.connections.countP (·.parent = id)

def Fits (d : Definition) (count : Nat) : Prop :=
  d.category.minChildren ≤ count ∧ ∀ most ∈ d.category.maxChildren, count ≤ most

/-- What a host may rely on in a tree. -/
structure WellFormed (t : Tree) : Prop where
  distinct : (t.nodes.map (·.id)).Nodup
  known : ∀ n ∈ t.nodes, ∃ d, Catalog.lookup n.type = some d
  rooted : ∃ root, t.root = some root ∧ t.Names root
  joined : ∀ c ∈ t.connections, t.Names c.parent ∧ t.Names c.child
  acyclic : t.Acyclic
  fitting : ∀ n ∈ t.nodes, ∀ d, Catalog.lookup n.type = some d → Fits d (t.outdegree n.id)

theorem accepts_iff {d : Definition} {count : Nat} :
    d.category.accepts count = true ↔ Fits d count := by
  simp only [Category.accepts, Fits, Bool.and_eq_true, decide_eq_true_eq, Option.all_eq_true,
    Option.mem_def]

theorem length_successors (t : Tree) (id : String) :
    (t.successors id).length = t.outdegree id := by
  rw [successors, outdegree, List.length_map, List.countP_eq_length_filter]

private theorem names_iff {t : Tree} {id : String} :
    (t.nodes.map (·.id)).contains id = true ↔ t.Names id := by
  simp [Names]

theorem nodeFault?_eq_none_iff {seen : List String} {nodes : List Node} :
    nodeFault? seen nodes = none ↔ (nodes.map (·.id)).Nodup ∧
      ∀ n ∈ nodes, n.id ∉ seen ∧ ∃ d, Catalog.lookup n.type = some d := by
  induction nodes generalizing seen with
  | nil => simp [nodeFault?]
  | cons n rest ih =>
    rw [nodeFault?]
    split
    · rename_i hseen
      refine ⟨fun h => (Option.some_ne_none _ h).elim, fun h => ?_⟩
      exact absurd hseen (h.2 n List.mem_cons_self).1
    · rename_i hseen
      split
      · rename_i htype
        refine ⟨fun h => (Option.some_ne_none _ h).elim, fun h => ?_⟩
        obtain ⟨d, hd⟩ := (h.2 n List.mem_cons_self).2
        rw [hd] at htype
        cases htype
      · rename_i htype
        have hknown : ∃ d, Catalog.lookup n.type = some d := by
          rw [Option.isNone_iff_eq_none] at htype
          exact Option.ne_none_iff_exists'.mp htype
        rw [ih, List.map_cons, List.nodup_cons, List.mem_map, List.forall_mem_cons]
        constructor
        · rintro ⟨hn, hall⟩
          refine ⟨⟨?_, hn⟩, ⟨hseen, hknown⟩, fun m hm => ⟨?_, (hall m hm).2⟩⟩
          · rintro ⟨m, hm, hid⟩
            exact (hall m hm).1 (hid ▸ List.mem_cons_self)
          · exact fun h => (hall m hm).1 (List.mem_cons_of_mem _ h)
        · rintro ⟨⟨hfresh, hn⟩, -, hall⟩
          refine ⟨hn, fun m hm => ⟨?_, (hall m hm).2⟩⟩
          intro h
          rcases List.mem_cons.mp h with hid | h
          · exact hfresh ⟨m, hm, hid⟩
          · exact (hall m hm).1 h

theorem rootFault?_eq_none_iff {t : Tree} :
    t.rootFault? = none ↔ ∃ root, t.root = some root ∧ t.Names root := by
  rw [rootFault?]
  cases t.root with
  | none => simp
  | some root =>
    by_cases h : (t.nodes.map (·.id)).contains root = true
    · simp only [if_pos h, Option.some.injEq, exists_eq_left', true_iff]
      exact names_iff.mp h
    · simp only [if_neg h, Option.some.injEq, exists_eq_left', reduceCtorEq, false_iff]
      exact fun hn => h (names_iff.mpr hn)

theorem connectionFault?_eq_none_iff {t : Tree} :
    t.connectionFault? = none ↔ ∀ c ∈ t.connections, t.Names c.parent ∧ t.Names c.child := by
  rw [connectionFault?, Option.map_eq_none_iff, List.find?_eq_none]
  refine forall₂_congr fun c _ => ?_
  rw [Bool.not_eq_true, Bool.not_eq_false', Bool.and_eq_true, names_iff, names_iff]

theorem childCountFault?_eq_none_iff {t : Tree} {nodes : List Node} :
    t.childCountFault? nodes = none ↔
      ∀ n ∈ nodes, ∀ d, Catalog.lookup n.type = some d → Fits d (t.outdegree n.id) := by
  induction nodes with
  | nil => simp [childCountFault?]
  | cons n rest ih =>
    rw [childCountFault?, List.forall_mem_cons]
    cases hd : Catalog.lookup n.type with
    | none => simpa using ih
    | some d =>
      simp only [Option.some.injEq, forall_eq']
      rw [← length_successors, ← accepts_iff]
      split
      · rename_i h
        simp [ih, h]
      · rename_i h
        simp [h]

theorem validate_eq_ok_iff {t : Tree} : t.validate = .ok () ↔ t.fault? = none := by
  rw [validate]
  cases t.fault? <;> simp

theorem fault?_eq_none_iff {t : Tree} : t.fault? = none ↔ t.WellFormed := by
  rw [fault?]
  simp only [Option.orElse_eq_orElse, Option.orElse_eq_or, Option.or_eq_none_iff,
    Option.map_eq_none_iff, nodeFault?_eq_none_iff, rootFault?_eq_none_iff,
    connectionFault?_eq_none_iff, childCountFault?_eq_none_iff]
  constructor
  · rintro ⟨⟨hdistinct, hknown⟩, hrooted, hjoined, hcycle, hfitting⟩
    refine ⟨hdistinct, fun n hn => (hknown n hn).2, hrooted, hjoined, ?_, hfitting⟩
    exact (cycleNode?_eq_none_iff fun c hc => (hjoined c hc).1).mp hcycle
  · intro h
    refine ⟨⟨h.distinct, fun n hn => ⟨by simp, h.known n hn⟩⟩, h.rooted, h.joined, ?_, h.fitting⟩
    exact (cycleNode?_eq_none_iff fun c hc => (h.joined c hc).1).mpr h.acyclic

/-- The check accepts exactly the well-formed trees. -/
theorem validate_eq_ok_iff_wellFormed (t : Tree) : t.validate = .ok () ↔ t.WellFormed :=
  validate_eq_ok_iff.trans fault?_eq_none_iff

end BehaviorTree.Tree
