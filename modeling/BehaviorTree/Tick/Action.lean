import BehaviorTree.Tick.Frame
import BehaviorTree.Tick.Waypoint

/-!
# Actions

Leaves that act for the acting entity: they move it, let it attack, make it wait, send messages
and set variables. Whoever moves publishes its velocity, which conditions look at.
-/

namespace BehaviorTree.Action

/-- Moves the acting entity towards a point, at most as far as its speed allows and not beyond. At
the point itself nothing changes. -/
def stepToward (m : Moment) (start goal : Vec2) (speed : Float32) (f : Frame) : Frame :=
  let offset := goal - start
  match offset.normalized with
  | none => f
  | some direction =>
    let step := lesser (speed * m.delta) offset.length
    (f.updateEntity m.agent (.ofPosition (start + direction * step))).setVelocity
      (direction * speed)

/-- Moves to the target point; done within the arrival threshold. -/
def moveTo (m : Moment) (s : Settings) (me : Entity) (f : Frame) : Status × Frame :=
  let target : Vec2 := ⟨s.number "targetX", s.number "targetY"⟩
  if me.position.distance target ≤ s.number "arrivalThreshold" then (.success, f)
  else (.running, stepToward m me.position target (s.number "speed") f)

/-- Whether the attack of a node must still wait after its last one. -/
def coolingDown (s : Settings) (state : NodeState) : Bool :=
  state.memory.lastAttackTime.any fun last =>
    state.runningTime - last < s.number "attackCooldown"

/-- What an attack tells the host. -/
def attackReport (attacker target : String) (damage health : Float32) : Json :=
  .object <| .ofList [("attacker", .string attacker), ("target", .string target),
    ("damage", .single damage), ("targetHealth", .single health)]

/-- Takes health from a target within range, once a cooldown. -/
def strike (m : Moment) (s : Settings) (me : Entity) (f : Frame) : Status × Frame :=
  let state := f.state s.node.id
  let targetName := s.text "targetEntity"
  if coolingDown s state then (.running, f)
  else
    match f.world.get? targetName with
    | none => (.failure, f)
    | some target =>
      if s.number "attackRange" < me.position.distance target.position then (.failure, f)
      else
        let damage := s.number "damage"
        let health := target.health - damage
        let f := f.updateEntity targetName (.ofHealth health)
        let f := f.emit "attack" (attackReport m.agent targetName damage health)
        (.success, f.updateMemory s.node.id fun memory =>
          { memory with lastAttackTime := some state.runningTime })

/-- Moves straight away from the target until it is far enough; with no target there is nothing
to do. An actor in the place of its target flees along the first axis. -/
def fleeFrom (m : Moment) (s : Settings) (me : Entity) (f : Frame) : Status × Frame :=
  match f.world.get? (s.text "targetEntity") with
  | none => (.success, f)
  | some threat =>
    let away := me.position - threat.position
    if s.number "safeDistance" ≤ away.length then (.success, f.setVelocity .zero)
    else
      let direction := away.normalized.getD ⟨1, 0⟩
      let speed := s.number "speed"
      let step := speed * m.delta
      (.running, (f.updateEntity m.agent (.ofPosition (me.position + direction * step))).setVelocity
        (direction * speed))

/-- Goes on waiting at a waypoint, and turns to the next one when the time is over. -/
def lingering (delta waitTime : Float32) (count : Nat) (memory : Memory) : Memory :=
  let elapsed := memory.waitElapsed + delta
  if waitTime ≤ elapsed then
    { memory with
      waiting := false, waitElapsed := 0, waypointIndex := (memory.waypointIndex + 1) % count }
  else { memory with waitElapsed := elapsed }

/-- Walks the waypoints round and round, waiting at each. -/
def walkRoute (m : Moment) (s : Settings) (me : Entity) (f : Frame) : Status × Frame :=
  let id := s.node.id
  match Waypoint.route? (s.text "waypoints") with
  | none => (.failure, f)
  | some route =>
    let index := (f.memory id).waypointIndex % route.length
    let f := f.updateMemory id fun memory => { memory with waypointIndex := index }
    if (f.memory id).waiting then
      let f := f.updateMemory id (lingering m.delta (s.number "waitTime") route.length)
      (.running, f.setVelocity .zero)
    else
      match route[index]? with
      | none => (.failure, f)
      | some target =>
        if me.position.distance target ≤ s.number "arrivalThreshold" then
          let f := f.updateMemory id fun memory => { memory with waiting := true, waitElapsed := 0 }
          (.running, f.setVelocity .zero)
        else (.running, stepToward m me.position target (s.number "speed") f)

/-- Is running for `duration` seconds and then succeeds. -/
def pause (m : Moment) (s : Settings) (f : Frame) : Status × Frame :=
  let elapsed := (f.memory s.node.id).elapsed + m.delta
  if s.number "duration" ≤ elapsed then
    (.success, f.updateMemory s.node.id fun memory => { memory with elapsed := 0 })
  else (.running, f.updateMemory s.node.id fun memory => { memory with elapsed := elapsed })

/-- The level of a message: `info` for all but the known ones. -/
def level (text : String) : String := if Catalog.logLevels.contains text then text else "info"

def sendMessage (m : Moment) (s : Settings) (f : Frame) : Status × Frame :=
  (.success, f.note (.logged ⟨level (s.text "level"), m.agent, s.node.id, s.text "message"⟩))

/-- Sets a variable of the tick and of the tree; an empty name sets none. -/
def setVariables (s : Settings) (f : Frame) : Status × Frame :=
  let key := s.text "key"
  if key.isEmpty then (.success, f)
  else
    let value := (s.value? "value").getD .null
    (.success, (f.setVariable key value).saveVariable key value)

def run (a : Action) (m : Moment) (s : Settings) (me : Entity) (f : Frame) : Status × Frame :=
  match a with
  | move => moveTo m s me f
  | attack => strike m s me f
  | flee => fleeFrom m s me f
  | patrol => walkRoute m s me f
  | idle => pause m s (f.setVelocity .zero)
  | wait => pause m s f
  | log => sendMessage m s f
  | setBlackboard => setVariables s f

end BehaviorTree.Action
