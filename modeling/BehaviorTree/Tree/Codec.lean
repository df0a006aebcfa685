import BehaviorTree.Tree.Basic
import BehaviorTree.Json.Parser

/-!
# Trees as documents

How trees are written to documents and texts, and read from them.
-/

namespace BehaviorTree

/-- Reads a whole number that fits 32 bits with a sign. -/
def Source.int32? {δ : Type} [Source δ] (d : δ) : Option Int32 :=
  ((Source.integer? d).filter (fitsSigned 32)).map .ofInt

namespace Node

def document (n : Node) : Document :=
  .object [("id", .string n.id), ("type", .string n.type), ("data", Blackboard.document n.data)]

def read (d : Document) : Option Node := do
  let fields ← Fields.of? ["id", "type", "data"] d
  return {
    id := ← fields.required "id" Source.string?
    type := ← fields.required "type" Source.string?
    data := ← fields.optional "data" Blackboard.read ∅ }

end Node

namespace Connection

def document (c : Connection) : Document :=
  .object [("parentId", .string c.parent), ("childId", .string c.child),
    ("order", .number (.integer c.order.toInt))]

def read (d : Document) : Option Connection := do
  let fields ← Fields.of? ["parentId", "childId", "order"] d
  return {
    parent := ← fields.required "parentId" Source.string?
    child := ← fields.required "childId" Source.string?
    order := ← fields.optional "order" Source.int32? 0 }

end Connection

namespace Tree

def document (t : Tree) : Document :=
  .object [
    ("id", .string t.id),
    ("name", .string t.name),
    ("rootId", t.root.elim .null .string),
    ("nodes", .array (t.nodes.map Node.document)),
    ("connections", .array (t.connections.map Connection.document)),
    ("blackboard", t.blackboard.document)]

def read (d : Document) : Option Tree := do
  let fields ← Fields.of? ["id", "name", "rootId", "nodes", "connections", "blackboard"] d
  return {
    id := ← fields.required "id" Source.string?
    name := ← fields.optional "name" Source.string? ""
    root := ← fields.optional "rootId" (Source.nullable Source.string?) none
    nodes := ← fields.optional "nodes" (Source.listOf? Node.read) []
    connections := ← fields.optional "connections" (Source.listOf? Connection.read) []
    blackboard := ← fields.optional "blackboard" Blackboard.read ∅ }

def toText (t : Tree) (codec : NumberCodec) : String := t.document.toText codec .compact

def toPrettyText (t : Tree) (codec : NumberCodec) : String := t.document.toText codec .pretty

def toValue (t : Tree) : Json := .ofDocument t.document

def ofText? (codec : NumberCodec) (text : String) : Option Tree :=
  (Document.ofText? codec text).bind read

def ofValue? (v : Json) : Option Tree := read v.document

end Tree

end BehaviorTree
