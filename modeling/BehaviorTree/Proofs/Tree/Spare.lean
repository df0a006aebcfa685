import BehaviorTree.Proofs.Executor.Run
import BehaviorTree.Proofs.Store
import BehaviorTree.Proofs.Tree.Codec

/-!
# Spare fields

A record reads the fields that it knows and no others. So whatever else is added to the objects of a
tree, of its nodes and of its connections, the tree that is read stays the same.
-/

namespace BehaviorTree

namespace Json

def members? (v : Json) : Option (Dict Json) :=
  match v.document with
  | .object members => some (ofMembers ∅ members)
  | _ => none

def items? (v : Json) : Option (List Json) :=
  match v.document with
  | .array items => some (ofItems items)
  | _ => none

/-- An object in which a member has a value; other values have no members and stay as they are. -/
def setMember (name : String) (x v : Json) : Json :=
  match v.members? with
  | some members => object (members.insert name x)
  | none => v

def atMember (name : String) (change : Json → Json) (v : Json) : Json :=
  match v.members? with
  | some members => object (members.modify name change)
  | none => v

def atItem (place : Nat) (change : Json → Json) (v : Json) : Json :=
  match v.items? with
  | some items => array (items.modify place change)
  | none => v

theorem eq_object_of_members? {v : Json} {members : Dict Json} (h : v.members? = some members) :
    v = object members := by
  obtain ⟨d, hd⟩ := v
  cases d with
  | object entries =>
    cases h
    exact (ofDocument_document ⟨.object entries, hd⟩).symm
  | _ => cases h

theorem eq_array_of_items? {v : Json} {items : List Json} (h : v.items? = some items) :
    v = array items := by
  obtain ⟨d, hd⟩ := v
  cases d with
  | array entries =>
    cases h
    exact (ofDocument_document ⟨.array entries, hd⟩).symm
  | _ => cases h

end Json

/-- Whether a record that is read stays the same under a change of the value that it is read from. -/
def Ignores {α : Type} (read : Document → Option α) (change : Json → Json) : Prop :=
  ∀ v : Json, read (change v).document = read v.document

namespace Ignores

variable {α : Type} {read : Document → Option α} {change : Json → Json}

/-- A record that is read from an object by name ignores a change of members, if it ignores it on
objects. -/
private theorem of_members {edit : Dict Json → Dict Json}
    (hchange : ∀ v, change v = match v.members? with
      | some members => Json.object (edit members)
      | none => v)
    (h : ∀ members, read (Json.object (edit members)).document = read (Json.object members).document) :
    Ignores read change := by
  intro v
  rw [hchange]
  cases hmembers : v.members? with
  | none => rfl
  | some members => rw [h, ← Json.eq_object_of_members? hmembers]

theorem setMember {name : String} {x : Json}
    (h : ∀ members, read (Json.object (members.insert name x)).document =
      read (Json.object members).document) : Ignores read (Json.setMember name x) :=
  of_members (fun _ => rfl) h

theorem atMember {name : String}
    (h : ∀ members, read (Json.object (members.modify name change)).document =
      read (Json.object members).document) : Ignores read (Json.atMember name change) :=
  of_members (fun _ => rfl) h

theorem atItem (h : Ignores read change) (place : Nat) :
    Ignores (Source.listOf? read) (Json.atItem place change) := by
  have hitems : ∀ (items : List Json) (place : Nat),
      ((items.modify place change).map (·.document)).mapM read =
        (items.map (·.document)).mapM read := by
    intro items
    induction items with
    | nil => intro place; cases place <;> rfl
    | cons v rest ih =>
      intro place
      cases place with
      | zero => simp [h v]
      | succ place => simp [ih]
  intro v
  rw [Json.atItem]
  cases harray : v.items? with
  | none => rfl
  | some items =>
    rw [Json.eq_array_of_items? harray]
    exact hitems items place

end Ignores

namespace Fields

theorem of?_members (names : List String) (members : Dict Json) :
    ∃ fields, of? names (Json.object members).document = some fields ∧
      ∀ name ∈ names, fields.lookup name = (members.get? name).map (·.document) := by
  have hnodup : ((members.entries.map fun e => (e.1, e.2.document)).map (·.1)).Nodup := by
    rw [List.map_map]
    exact members.nodup_keys
  obtain ⟨fields, hfields, hlookup⟩ := of?_object names hnodup
  refine ⟨fields, hfields, fun name hname => ?_⟩
  rw [hlookup name hname, Dict.lookup_map, Dict.lookup_entries]

end Fields

/-- Whether a record is read from an object by some members only. -/
def ReadsOnly {α : Type} (names : List String) (read : Document → Option α) : Prop :=
  ∀ members members' : Dict Json, (∀ name ∈ names, members'.get? name = members.get? name) →
    read (Json.object members').document = read (Json.object members).document

theorem ReadsOnly.ignores_setMember {α : Type} {names : List String} {read : Document → Option α}
    (h : ReadsOnly names read) {name : String} (hname : name ∉ names) (x : Json) :
    Ignores read (Json.setMember name x) := by
  apply Ignores.setMember
  intro members
  apply h
  intro known hknown
  have hne : known ≠ name := fun heq => hname (heq ▸ hknown)
  exact Dict.get?_insert_of_ne members x hne

def Node.fieldNames : List String := ["id", "type", "data"]

theorem Node.readsOnly : ReadsOnly fieldNames read := by
  intro members members' h
  obtain ⟨fields, hfields, hlookup⟩ := Fields.of?_members ["id", "type", "data"] members
  obtain ⟨fields', hfields', hlookup'⟩ := Fields.of?_members ["id", "type", "data"] members'
  rw [fieldNames] at h
  simp [read, hfields, hfields', Fields.required, Fields.optional, hlookup, hlookup', h]

def Connection.fieldNames : List String := ["parentId", "childId", "order"]

theorem Connection.readsOnly : ReadsOnly fieldNames read := by
  intro members members' h
  obtain ⟨fields, hfields, hlookup⟩ := Fields.of?_members ["parentId", "childId", "order"] members
  obtain ⟨fields', hfields', hlookup'⟩ :=
    Fields.of?_members ["parentId", "childId", "order"] members'
  rw [fieldNames] at h
  simp [read, hfields, hfields', Fields.required, Fields.optional, hlookup, hlookup', h]

namespace Tree

def fieldNames : List String := ["id", "name", "rootId", "nodes", "connections", "blackboard"]

theorem read_congr {members members' : Dict Json}
    (h : ∀ name ∈ ["id", "name", "rootId", "blackboard"], members'.get? name = members.get? name)
    (hnodes : (members'.get? "nodes").map (Source.listOf? Node.read ·.document) =
      (members.get? "nodes").map (Source.listOf? Node.read ·.document))
    (hconnections : (members'.get? "connections").map (Source.listOf? Connection.read ·.document) =
      (members.get? "connections").map (Source.listOf? Connection.read ·.document)) :
    read (Json.object members').document = read (Json.object members).document := by
  obtain ⟨fields, hfields, hlookup⟩ := Fields.of?_members
    ["id", "name", "rootId", "nodes", "connections", "blackboard"] members
  obtain ⟨fields', hfields', hlookup'⟩ := Fields.of?_members
    ["id", "name", "rootId", "nodes", "connections", "blackboard"] members'
  have hnodes' : fields'.optional "nodes" (Source.listOf? Node.read) [] =
      fields.optional "nodes" (Source.listOf? Node.read) [] := by
    rw [Fields.optional, Fields.optional, hlookup "nodes" (by simp), hlookup' "nodes" (by simp)]
    cases hv : members.get? "nodes" <;> cases hv' : members'.get? "nodes" <;> simp_all
  have hconnections' : fields'.optional "connections" (Source.listOf? Connection.read) [] =
      fields.optional "connections" (Source.listOf? Connection.read) [] := by
    rw [Fields.optional, Fields.optional, hlookup "connections" (by simp),
      hlookup' "connections" (by simp)]
    cases hv : members.get? "connections" <;> cases hv' : members'.get? "connections" <;> simp_all
  rw [read, read, hfields, hfields']
  simp only [Option.bind_eq_bind, Option.bind_some, hnodes', hconnections']
  simp [Fields.required, Fields.optional, hlookup, hlookup', h]

theorem readsOnly : ReadsOnly fieldNames read := by
  intro members members' h
  rw [fieldNames] at h
  apply read_congr
  · intro name hname
    apply h
    revert hname
    simp only [List.mem_cons]
    tauto
  · rw [h "nodes" (by simp)]
  · rw [h "connections" (by simp)]

variable {change : Json → Json}

theorem ignores_node (h : Ignores Node.read change) (place : Nat) :
    Ignores read (Json.atMember "nodes" (Json.atItem place change)) := by
  apply Ignores.atMember
  intro members
  apply read_congr
  · intro name hname
    have hne : name ≠ "nodes" := by rintro rfl; simp at hname
    rw [Dict.get?_modify, if_neg hne]
  · have hitems := h.atItem place
    rw [Dict.get?_modify, if_pos rfl, Option.map_map]
    cases members.get? "nodes" with
    | none => rfl
    | some v => exact congrArg some (hitems v)
  · rw [Dict.get?_modify, if_neg (by decide)]

theorem ignores_connection (h : Ignores Connection.read change) (place : Nat) :
    Ignores read (Json.atMember "connections" (Json.atItem place change)) := by
  apply Ignores.atMember
  intro members
  apply read_congr
  · intro name hname
    have hne : name ≠ "connections" := by rintro rfl; simp at hname
    rw [Dict.get?_modify, if_neg hne]
  · rw [Dict.get?_modify, if_neg (by decide)]
  · have hitems := h.atItem place
    rw [Dict.get?_modify, if_pos rfl, Option.map_map]
    cases members.get? "connections" with
    | none => rfl
    | some v => exact congrArg some (hitems v)

/-- One more field in the object of a tree, of one of its nodes or of one of its connections, under a
name that the record does not know. -/
inductive AddsSpare (v : Json) : Json → Prop
  | tree {name : String} (h : name ∉ fieldNames) (x : Json) : AddsSpare v (Json.setMember name x v)
  | node (place : Nat) {name : String} (h : name ∉ Node.fieldNames) (x : Json) :
    AddsSpare v (Json.atMember "nodes" (Json.atItem place (Json.setMember name x)) v)
  | connection (place : Nat) {name : String} (h : name ∉ Connection.fieldNames) (x : Json) :
    AddsSpare v (Json.atMember "connections" (Json.atItem place (Json.setMember name x)) v)

theorem AddsSpare.ofValue?_eq {v v' : Json} (h : AddsSpare v v') : ofValue? v' = ofValue? v := by
  cases h with
  | tree h x => exact readsOnly.ignores_setMember h x v
  | node place h x => exact ignores_node (Node.readsOnly.ignores_setMember h x) place v
  | connection place h x =>
    exact ignores_connection (Connection.readsOnly.ignores_setMember h x) place v

end Tree

/-- Trees and finite states come back from their values as they were. A tree also comes back when any
number of spare fields are added to its value. -/
theorem Json.values_lossless :
    (∀ t : Tree, Tree.ofValue? t.toValue = some t) ∧
    (∀ (t : Tree) v, Relation.ReflTransGen Tree.AddsSpare t.toValue v → Tree.ofValue? v = some t) ∧
    ∀ s : Store, s.Keepable → Store.read (ofDocument s.document).document = some s := by
  refine ⟨Tree.ofValue?_toValue, fun t v h => ?_, fun s h => Store.read_kept h⟩
  induction h with
  | refl => exact t.ofValue?_toValue
  | tail _ hstep ih => rw [hstep.ofValue?_eq, ih]

theorem Json.values_lossless_waiting :
    let t := Tree.single "wait" []
    let s := ((Executor.ofSeed t 1).execute "" 0.5 ⟨∅, ∅⟩).executor.store
    let v := atMember "nodes" (atItem 0 (setMember "position" (integer 7))) t.toValue
    v ≠ t.toValue ∧ "position" ∉ Node.fieldNames ∧ Tree.ofValue? v = some t ∧
      s ≠ ∅ ∧ s.Keepable ∧ Store.read (ofDocument s.document).document = some s := by
  intro t s v
  have hvalue : v ≠ t.toValue := by decide +kernel
  have hname : "position" ∉ Node.fieldNames := by decide
  have hstore : s ≠ ∅ := by decide +kernel
  have hkeepable : s.Keepable := by decide +kernel
  have hadds : Relation.ReflTransGen Tree.AddsSpare t.toValue v :=
    .single (.node 0 hname (integer 7))
  exact ⟨hvalue, hname, values_lossless.2.1 t v hadds, hstore, hkeepable,
    values_lossless.2.2 s hkeepable⟩

end BehaviorTree
