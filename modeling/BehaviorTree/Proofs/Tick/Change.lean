import BehaviorTree.Proofs.Tick.Locality
import BehaviorTree.Proofs.World.Change

/-!
# Changes that ticks make

What the actions of a tree make of a world, change by change: they move the acting entity, and take
health from the targets that they report to have hit.
-/

namespace BehaviorTree

open World (Change)

namespace Action

variable {m : Moment} {s : Settings}

/-- The changes that a step towards a point makes. -/
def stepChanges (m : Moment) (start goal : Vec2) (speed : Float32) : List Change :=
  let offset := goal - start
  match offset.normalized with
  | none => []
  | some direction =>
    let step := lesser (speed * m.delta) offset.length
    [.patch m.agent (.ofPosition (start + direction * step))]

def moveChanges (m : Moment) (s : Settings) (me : Entity) : List Change :=
  let target : Vec2 := ⟨s.number "targetX", s.number "targetY"⟩
  if me.position.distance target ≤ s.number "arrivalThreshold" then []
  else stepChanges m me.position target (s.number "speed")

def strikeChanges (m : Moment) (s : Settings) (me : Entity) (f : Frame) : List Change :=
  let targetName := s.text "targetEntity"
  if coolingDown s (f.state s.node.id) then []
  else
    match f.world.get? targetName with
    | none => []
    | some target =>
      if s.number "attackRange" < me.position.distance target.position then []
      else
        let damage := s.number "damage"
        let health := target.health - damage
        [.patch targetName (.ofHealth health),
          .emit "attack" (attackReport m.agent targetName damage health)]

def fleeChanges (m : Moment) (s : Settings) (me : Entity) (f : Frame) : List Change :=
  match f.world.get? (s.text "targetEntity") with
  | none => []
  | some threat =>
    let away := me.position - threat.position
    if s.number "safeDistance" ≤ away.length then []
    else
      let direction := away.normalized.getD ⟨1, 0⟩
      [.patch m.agent (.ofPosition (me.position + direction * (s.number "speed" * m.delta)))]

def routeChanges (m : Moment) (s : Settings) (me : Entity) (f : Frame) : List Change :=
  match Waypoint.route? (s.text "waypoints") with
  | none => []
  | some route =>
    if (f.memory s.node.id).waiting then []
    else
      match route[(f.memory s.node.id).waypointIndex % route.length]? with
      | none => []
      | some target =>
        if me.position.distance target ≤ s.number "arrivalThreshold" then []
        else stepChanges m me.position target (s.number "speed")

/-- The changes that an action makes to the world, in order. -/
def changes (a : Action) (m : Moment) (s : Settings) (me : Entity) (f : Frame) : List Change :=
  match a with
  | move => moveChanges m s me
  | attack => strikeChanges m s me f
  | flee => fleeChanges m s me f
  | patrol => routeChanges m s me f
  | idle | wait | log | setBlackboard => []

private theorem world_stepToward (start goal : Vec2) (speed : Float32) (f : Frame) :
    (stepToward m start goal speed f).world = f.world.made (stepChanges m start goal speed) := by
  rw [stepToward, stepChanges]
  dsimp only
  cases (goal - start).normalized <;> rfl

private theorem world_moveTo (me : Entity) (f : Frame) :
    (moveTo m s me f).2.world = f.world.made (moveChanges m s me) := by
  rw [moveTo, moveChanges]
  split
  · rfl
  · exact world_stepToward _ _ _ f

private theorem world_strike (me : Entity) (f : Frame) :
    (strike m s me f).2.world = f.world.made (strikeChanges m s me f) := by
  rw [strike, strikeChanges]
  dsimp only
  split
  · rfl
  · cases f.world.get? (s.text "targetEntity") with
    | none => rfl
    | some target =>
      dsimp only
      split <;> rfl

private theorem world_fleeFrom (me : Entity) (f : Frame) :
    (fleeFrom m s me f).2.world = f.world.made (fleeChanges m s me f) := by
  rw [fleeFrom, fleeChanges]
  cases f.world.get? (s.text "targetEntity") with
  | none => rfl
  | some threat =>
    dsimp only
    split <;> rfl

private theorem world_walkRoute (me : Entity) (f : Frame) :
    (walkRoute m s me f).2.world = f.world.made (routeChanges m s me f) := by
  rw [walkRoute, routeChanges]
  dsimp only
  cases Waypoint.route? (s.text "waypoints") with
  | none => rfl
  | some route =>
    dsimp only
    rw [Frame.memory_updateMemory_self]
    split
    · rfl
    · cases route[(f.memory s.node.id).waypointIndex % route.length]? with
      | none => rfl
      | some target =>
        dsimp only
        split
        · rfl
        · exact world_stepToward _ _ _ _

private theorem world_pause (f : Frame) : (pause m s f).2.world = f.world := by
  rw [pause]
  split <;> rfl

private theorem world_setVariables (f : Frame) : (setVariables s f).2.world = f.world := by
  rw [setVariables]
  dsimp only
  split <;> rfl

theorem world_run (a : Action) (m : Moment) (s : Settings) (me : Entity) (f : Frame) :
    (a.run m s me f).2.world = f.world.made (a.changes m s me f) := by
  cases a with
  | move => exact world_moveTo me f
  | attack => exact world_strike me f
  | flee => exact world_fleeFrom me f
  | patrol => exact world_walkRoute me f
  | idle => exact world_pause (f.setVelocity .zero)
  | wait => exact world_pause f
  | log => rfl
  | setBlackboard => exact world_setVariables f

end Action

namespace Index

variable {ix : Index} {m : Moment}

/-- The frame in which a node is about to do what its type does in a visit. -/
def entered (ix : Index) (m : Moment) (v : Visit ix.size) : Frame :=
  (v.before.note (.began (ix.name v.node) v.depth)).updateState (ix.name v.node) fun s =>
    { s with runningTime := s.runningTime + m.delta }

def changes (ix : Index) (m : Moment) (v : Visit ix.size) : List Change :=
  match (ix.slot v.node).definition with
  | none => []
  | some d =>
    match d.kind, v.before.world.get? m.agent with
    | .action a, some me => a.changes m ⟨(ix.slot v.node).node, d⟩ me (ix.entered m v)
    | _, _ => []

private theorem world_visit {p : Fin ix.size} {d : Definition} {a : Action}
    (hd : (ix.slot p).definition = some d) (ha : d.kind = .action a) (room : Nat) (f : Frame) :
    let v := ix.visit m room p f
    v.after.world = f.world.made (ix.changes m v) := by
  intro v
  obtain ⟨hfails, hacts⟩ := surroundings_visit (m := m) hd ha room f
  have hdefinition : (ix.slot v.node).definition = some d := hd
  have hbefore : v.before = f := rfl
  rw [changes, hdefinition]
  dsimp only
  rw [ha, hbefore]
  cases hme : f.world.get? m.agent with
  | none => exact congrArg (·.world) (hfails hme).2
  | some me =>
    have hafter := congrArg (·.world) (hacts me hme).2
    exact hafter.trans (a.world_run m ⟨(ix.slot p).node, d⟩ me (ix.enter m room p f))

private theorem changes_of_inward {v : Visit ix.size}
    (h : ∀ d a, (ix.slot v.node).definition = some d → d.kind ≠ .action a) :
    ix.changes m v = [] := by
  rw [changes]
  split
  · rfl
  · rename_i d hd
    split
    · rename_i a _ ha _
      exact absurd ha (h d a hd)
    · rfl

/-- A tick makes the changes of its visits, one after the other. -/
theorem world_tick (ix : Index) (m : Moment) (room : Nat) (p : Fin ix.size) (f : Frame) :
    (tick ix m room p f).2.world = f.world.made ((ix.visits m room p f).flatMap (ix.changes m)) :=
  surroundings_tell (r := fun o changes o' => o'.world = o.world.made changes) (fun _ => rfl)
    (fun h h' => by rw [World.made_append, ← h, h']) (fun hd ha => world_visit hd ha)
    (fun _ => changes_of_inward) room p f

end Index

namespace Executor

def changes (e : Executor) (i : Input) : List Change :=
  (e.visits e.currentIndex i).flatMap (e.currentIndex.changes ⟨i.agent, clampStep i.dt⟩)

theorem world_execute (e : Executor) (i : Input) :
    (e.execute i.agent i.dt i.scene).scene.world = i.scene.world.made (e.changes i) := by
  rw [changes, visits]
  cases hroot : e.currentIndex.root with
  | none =>
    rw [execute_of_rootless hroot]
    rfl
  | some root =>
    rw [execute_of_root hroot]
    exact Index.world_tick _ _ _ root (e.start i.scene)

end Executor

end BehaviorTree
