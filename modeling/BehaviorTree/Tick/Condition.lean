import BehaviorTree.Tick.Comparison
import BehaviorTree.Tick.Frame

/-!
# Conditions

Leaves that look at the world and the blackboard of the tick. They change neither and are never
running; one of them draws a random number.
-/

namespace BehaviorTree.Condition

/-- The speed along an axis above which an actor counts as moving. -/
def movingThreshold : Float := 0.1

/-- Compares a measured number with the node's threshold. -/
def measured (s : Settings) (x : Float32) : Bool :=
  s.comparison.numbers (widen x) (widen (s.number "threshold"))

/-- The acting entity and the target, when both are in the world. -/
def pair? (agent : String) (s : Settings) (w : World) : Option (Entity × Entity) :=
  match w.get? agent, w.get? (s.text "targetEntity") with
  | some me, some target => some (me, target)
  | _, _ => none

/-- Whether the blackboard variable compares as set; an absent variable is only different. -/
def checks (s : Settings) (b : Blackboard) : Bool :=
  match b.get? (s.text "key") with
  | none => s.comparison = .notEquals
  | some v => s.comparison = .present || s.comparison.values v ((s.value? "expectedValue").getD .null)

/-- Whether a condition holds. A random condition is decided by a draw instead. -/
def holds (c : Condition) (agent : String) (s : Settings) (w : World) (b : Blackboard) : Bool :=
  match c with
  | always => true
  | never | random => false
  | distance | inRange =>
    (pair? agent s w).any fun (me, target) => measured s (me.position.distance target.position)
  | health => ((w.get? agent).bind (·.healthPercent)).any (measured s)
  | targetHealth =>
    ((w.get? (s.text "targetEntity")).bind (·.healthPercent)).any (measured s)
  | hasTarget => (w.get? (s.text "targetEntity")).isSome
  | isMoving =>
    let speed (name : String) : Float := ((Blackboard.number? b name).getD 0).abs
    movingThreshold < speed velocityX || movingThreshold < speed velocityY
  | canSee =>
    (pair? agent s w).any fun (me, target) => me.position.distance target.position ≤ me.sight
  | checkBlackboard => checks s b

/-- Draws a percentage and compares it with the node's threshold. -/
def draw (s : Settings) (f : Frame) : Status × Frame :=
  let (unit, generator) := f.generator.nextUnit
  (.ofBool (unit * 100 < s.number "threshold"), { f with generator := generator })

def run (c : Condition) (m : Moment) (s : Settings) (f : Frame) : Status × Frame :=
  match c with
  | random => draw s f
  | c => (.ofBool (c.holds m.agent s f.world f.blackboard), f)

end BehaviorTree.Condition
