import BehaviorTree.Decimal.Numeral
import BehaviorTree.Text.Blank
import BehaviorTree.World.Vec2

/-!
# Waypoints

The route of a patrol is a text `x,y;x,y;...`. White space around segments and numbers does not
count and empty segments are passed over, but one bad segment makes the whole text bad.
-/

namespace BehaviorTree.Waypoint

/-- The coordinate that a text stands for once trimmed. -/
def coordinate? (text : List Char) : Option Float32 :=
  (Numeral.ofText? (Text.trim text)).map (·.toSingle)

/-- The point of a segment: exactly two numbers with a comma between them. -/
def point? (segment : List Char) : Option Vec2 :=
  match Text.splitAt ',' segment with
  | [x, y] => do return { x := ← coordinate? x, y := ← coordinate? y }
  | _ => none

/-- The segments of a route that are not empty, trimmed. -/
def segments (text : List Char) : List (List Char) :=
  ((Text.splitAt ';' text).map Text.trim).filter (!·.isEmpty)

/-- The points of a route, if all its segments are points and there is at least one. -/
def route? (text : String) : Option (List Vec2) :=
  ((segments text.toList).mapM point?).filter (!·.isEmpty)

end BehaviorTree.Waypoint
