import BehaviorTree.Tree.Codec
import BehaviorTree.Proofs.Record

/-!
# Trees read back

A tree comes back from the free value that it is written to.
-/

namespace BehaviorTree

open Document

theorem Blackboard.read_kept (b : Blackboard) : read b.document.kept = some b := by
  apply Source.dictOf?_kept
  intro e _
  rw [kept_of_canonical e.2.canonical]
  exact Json.value?_document e.2

namespace Node

variable {members : List (String × Document)} {n : Node}

theorem read_object (hnodup : (members.map (·.1)).Nodup)
    (hid : members.lookup "id" = some (.string n.id))
    (htype : members.lookup "type" = some (.string n.type)) {data : Document}
    (hdata : members.lookup "data" = some data) (hread : Blackboard.read data = some n.data) :
    read (.object members) = some n := by
  obtain ⟨fields, hfields, hlookup⟩ := Fields.of?_object ["id", "type", "data"] hnodup
  rw [read, hfields]
  simp [Fields.required, Fields.optional, hlookup, hid, htype, hdata, hread]

theorem read_kept (n : Node) : read n.document.kept = some n := by
  rw [document, kept_object]
  apply read_object (nodup_keptMembers _)
  · exact lookup_keptMembers (by simp) "id"
  · exact lookup_keptMembers (by simp) "type"
  · exact lookup_keptMembers (by simp) "data"
  · exact Blackboard.read_kept n.data

end Node

namespace Source

theorem fitsSigned_int32 (n : Int32) : fitsSigned 32 n.toInt ∧ fitsSigned 64 n.toInt := by
  have hlow := n.le_toInt
  have hhigh := n.toInt_lt
  simp only [fitsSigned, Bool.and_eq_true, decide_eq_true_eq]
  constructor
  · exact ⟨hlow, hhigh⟩
  · exact ⟨Int.le_trans (by decide) hlow, Int.lt_of_lt_of_le hhigh (by decide)⟩

theorem fits_int32 (n : Int32) : fits 64 n.toInt := by
  rw [fits, (fitsSigned_int32 n).2, Bool.true_or]

theorem int32?_integer (n : Int32) : int32? (Document.number (.integer n.toInt)) = some n := by
  obtain ⟨hfits32, hfits64⟩ := fitsSigned_int32 n
  have hinteger : integer? (Document.number (.integer n.toInt)) = some n.toInt := if_pos hfits64
  rw [int32?, hinteger, Option.filter_some, if_pos hfits32, Option.map_some, Int32.ofInt_toInt]

theorem int32?_kept (n : Int32) :
    int32? (Document.number (.integer n.toInt)).kept = some n := by
  rw [kept_integer (fits_int32 n), int32?_integer]

end Source

namespace Connection

variable {members : List (String × Document)} {c : Connection}

theorem read_object (hnodup : (members.map (·.1)).Nodup)
    (hparent : members.lookup "parentId" = some (.string c.parent))
    (hchild : members.lookup "childId" = some (.string c.child)) {order : Document}
    (horder : members.lookup "order" = some order) (hread : Source.int32? order = some c.order) :
    read (.object members) = some c := by
  obtain ⟨fields, hfields, hlookup⟩ := Fields.of?_object ["parentId", "childId", "order"] hnodup
  rw [read, hfields]
  simp [Fields.required, Fields.optional, hlookup, hparent, hchild, horder, hread]

theorem read_kept (c : Connection) : read c.document.kept = some c := by
  rw [document, kept_object]
  apply read_object (nodup_keptMembers _)
  · exact lookup_keptMembers (by simp) "parentId"
  · exact lookup_keptMembers (by simp) "childId"
  · exact lookup_keptMembers (by simp) "order"
  · exact Source.int32?_kept c.order

end Connection

namespace Tree

variable {members : List (String × Document)} {t : Tree}

theorem read_object (hnodup : (members.map (·.1)).Nodup)
    (hid : members.lookup "id" = some (.string t.id))
    (hname : members.lookup "name" = some (.string t.name)) {root nodes connections saved : Document}
    (hroot : members.lookup "rootId" = some root)
    (hroot' : Source.nullable Source.string? root = some t.root)
    (hnodes : members.lookup "nodes" = some nodes)
    (hnodes' : Source.listOf? Node.read nodes = some t.nodes)
    (hconnections : members.lookup "connections" = some connections)
    (hconnections' : Source.listOf? Connection.read connections = some t.connections)
    (hsaved : members.lookup "blackboard" = some saved)
    (hsaved' : Blackboard.read saved = some t.blackboard) : read (.object members) = some t := by
  obtain ⟨fields, hfields, hlookup⟩ := Fields.of?_object
    ["id", "name", "rootId", "nodes", "connections", "blackboard"] hnodup
  rw [read, hfields]
  simp [Fields.required, Fields.optional, hlookup, hid, hname, hroot, hroot', hnodes, hnodes',
    hconnections, hconnections', hsaved, hsaved']

theorem ofValue?_toValue (t : Tree) : ofValue? t.toValue = some t := by
  change read t.document.kept = some t
  rw [document, kept_object]
  refine read_object (nodup_keptMembers _) (lookup_keptMembers (by simp) "id")
    (lookup_keptMembers (by simp) "name") (lookup_keptMembers (by simp) "rootId") ?_
    (lookup_keptMembers (by simp) "nodes") ?_ (lookup_keptMembers (by simp) "connections") ?_
    (lookup_keptMembers (by simp) "blackboard") ?_
  · cases t.root with
    | none => rfl
    | some root => rfl
  · exact Source.listOf?_kept fun n _ => n.read_kept
  · exact Source.listOf?_kept fun c _ => c.read_kept
  · exact t.blackboard.read_kept

end Tree

end BehaviorTree
