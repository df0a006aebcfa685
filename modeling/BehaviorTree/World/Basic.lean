import BehaviorTree.World.Entity

/-!
# Worlds

The entities by name, and the log of what has happened to them. A world never holds an entity
under another name than its own.
-/

namespace BehaviorTree

/-- Something that a tree made happen, for the host to learn of. -/
structure Event where
  name : String
  payload : Json
deriving DecidableEq

/-- Entities by name, and the events not yet taken, oldest first. -/
structure World where
  entities : Dict Entity
  events : List Event
deriving DecidableEq

namespace World

def empty : World := ⟨∅, []⟩

instance : EmptyCollection World := ⟨empty⟩
instance : Inhabited World := ⟨empty⟩

def get? (w : World) (name : String) : Option Entity := w.entities.get? name

/-- Puts an entity under its name, in place of the one there. -/
def insert (w : World) (e : Entity) : World :=
  { w with entities := w.entities.insert e.name e }

def remove (w : World) (name : String) : World :=
  { w with entities := w.entities.erase name }

/-- Makes a partial change to an entity, if there is one of that name. -/
def update (w : World) (name : String) (p : Patch) : World :=
  { w with entities := w.entities.modify name (·.apply p) }

def emit (w : World) (name : String) (payload : Json) : World :=
  { w with events := w.events ++ [⟨name, payload⟩] }

def clearEvents (w : World) : World := { w with events := [] }

/-- The entities in the order of their names. -/
def list (w : World) : List Entity := w.entities.values

/-- The world of a list of entities, of which the last of each name counts. -/
def ofEntities (es : List Entity) : World := es.foldl insert ∅

/-- The document of a world holds its entities, not its log. -/
def document (w : World) : Document :=
  .object [("entities", .array (w.list.map Entity.document))]

def read {δ : Type} [Source δ] (d : δ) : Option World := do
  let fields ← Fields.of? ["entities"] d
  return .ofEntities (← fields.optional "entities" (Source.listOf? Entity.read) [])

end World

namespace Event

def document (e : Event) : Document :=
  .object [("name", .string e.name), ("payload", e.payload.document)]

def read (d : Document) : Option Event := do
  let fields ← Fields.of? ["name", "payload"] d
  return {
    name := ← fields.required "name" Source.string?
    payload := ← fields.required "payload" Source.value? }

end Event

end BehaviorTree
