import BehaviorTree.Record

/-!
# Points in the plane

Positions, offsets and velocities, in single precision.
-/

namespace BehaviorTree

/-- A point or an offset in the plane. -/
structure Vec2 where
  x : Float32
  y : Float32
deriving DecidableEq

namespace Vec2

def zero : Vec2 := ⟨0, 0⟩

instance : Inhabited Vec2 := ⟨zero⟩
instance : Add Vec2 := ⟨fun a b => ⟨a.x + b.x, a.y + b.y⟩⟩
instance : Sub Vec2 := ⟨fun a b => ⟨a.x - b.x, a.y - b.y⟩⟩
instance : HMul Vec2 Float32 Vec2 := ⟨fun a k => ⟨a.x * k, a.y * k⟩⟩

/-- Whether the coordinates compare equal as numbers. -/
def same (a b : Vec2) : Bool := a.x == b.x && a.y == b.y

/-- The Euclidean length. -/
def length (a : Vec2) : Float32 := (a.x * a.x + a.y * a.y).sqrt

def distance (a b : Vec2) : Float32 := (b - a).length

/-- The gap between one and the next single-precision number. -/
def unitGap : Float32 := Float32.ofBits 0x34000000

/-- The unit vector of the same direction; a vector no longer than `unitGap` has none. -/
def normalized (a : Vec2) : Option Vec2 :=
  if a.length ≤ unitGap then none else some ⟨a.x / a.length, a.y / a.length⟩

def document (a : Vec2) : Document :=
  .object [("x", .number (.single a.x)), ("y", .number (.single a.y))]

def read {δ : Type} [Source δ] (d : δ) : Option Vec2 := do
  let fields ← Fields.of? ["x", "y"] d
  return { x := ← fields.required "x" Source.real?, y := ← fields.required "y" Source.real? }

end Vec2

end BehaviorTree
