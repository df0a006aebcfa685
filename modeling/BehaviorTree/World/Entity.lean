import BehaviorTree.World.Vec2

/-!
# Entities

The named actors of a world, and partial changes to them.
-/

namespace BehaviorTree

/-- A named actor. -/
structure Entity where
  name : String
  position : Vec2
  health : Float32
  maxHealth : Float32
  sightRange : Option Float32
  /-- Further fields that are kept but mean nothing to a tree. -/
  extra : Dict Json
deriving DecidableEq

/-- A partial change of an entity: absent fields stay as they are. -/
structure Patch where
  position : Option Vec2
  health : Option Float32
  maxHealth : Option Float32
  sightRange : Option Float32
deriving DecidableEq

namespace Patch

def none : Patch := ⟨.none, .none, .none, .none⟩

def ofPosition (position : Vec2) : Patch := { none with position := some position }

def ofHealth (health : Float32) : Patch := { none with health := some health }

end Patch

namespace Entity

/-- The health, and the greatest health, of an entity that states none. -/
def defaultHealth : Float32 := 100

/-- How far an entity sees that states no range. -/
def defaultSightRange : Float32 := 300

/-- An entity with defaults for all but its name and position. -/
def create (name : String) (position : Vec2) : Entity :=
  ⟨name, position, defaultHealth, defaultHealth, .none, ∅⟩

/-- The health as a percentage of the greatest health, if that is positive. -/
def healthPercent (e : Entity) : Option Float32 :=
  if 0 < e.maxHealth then some (e.health / e.maxHealth * 100) else .none

def sight (e : Entity) : Float32 := e.sightRange.getD defaultSightRange

def apply (e : Entity) (p : Patch) : Entity :=
  { e with
    position := p.position.getD e.position
    health := p.health.getD e.health
    maxHealth := p.maxHealth.getD e.maxHealth
    sightRange := p.sightRange <|> e.sightRange }

@[simp] theorem name_apply (e : Entity) (p : Patch) : (e.apply p).name = e.name := rfl

@[simp] theorem extra_apply (e : Entity) (p : Patch) : (e.apply p).extra = e.extra := rfl

end Entity

/-- The member for a value that may be absent, left out when it is. -/
def Document.optionalMember {α : Type} (name : String) (write : α → Document) :
    Option α → List (String × Document)
  | some a => [(name, write a)]
  | none => []

def Document.single (x : Float32) : Document := .number (.single x)

namespace Patch

def document (p : Patch) : Document :=
  .object <|
    Document.optionalMember "position" Vec2.document p.position ++
    Document.optionalMember "health" .single p.health ++
    Document.optionalMember "maxHealth" .single p.maxHealth ++
    Document.optionalMember "sightRange" .single p.sightRange

def read {δ : Type} [Source δ] (d : δ) : Option Patch := do
  let fields ← Fields.of? ["position", "health", "maxHealth", "sightRange"] d
  return {
    position := ← fields.optional "position" (Source.nullable Vec2.read) .none
    health := ← fields.optional "health" (Source.nullable Source.real?) .none
    maxHealth := ← fields.optional "maxHealth" (Source.nullable Source.real?) .none
    sightRange := ← fields.optional "sightRange" (Source.nullable Source.real?) .none }

end Patch

namespace Entity

def fieldNames : List String := ["name", "position", "health", "maxHealth", "sightRange"]

def document (e : Entity) : Document :=
  .object <|
    [("name", .string e.name), ("position", e.position.document), ("health", .single e.health),
      ("maxHealth", .single e.maxHealth)] ++
    Document.optionalMember "sightRange" .single e.sightRange ++
    e.extra.entries.map fun (name, v) => (name, v.document)

/-- Reads an entity; it is never written as a list, and fields that are not its own are kept, of
those of one name the last. -/
def read {δ : Type} [Source δ] (d : δ) : Option Entity := do
  let members ← Source.members? d
  let fields ← Fields.of? fieldNames d
  let others ← (members.filter fun (name, _) => !fieldNames.contains name).mapM
    fun (name, d) => (Source.value? d).map (name, ·)
  return {
    name := ← fields.required "name" Source.string?
    position := ← fields.optional "position" Vec2.read .zero
    health := ← fields.optional "health" Source.real? defaultHealth
    maxHealth := ← fields.optional "maxHealth" Source.real? defaultHealth
    sightRange := ← fields.optional "sightRange" (Source.nullable Source.real?) .none
    extra := .ofList others }

end Entity

end BehaviorTree
