import BehaviorTree.Proofs.Executor.Sound

/-!
# Checked lookups

Ticking once more, with every lookup by number in range or else a breach, every remainder by a number
that is not zero, and every sum within its width. What is not said here is as in the ticks of the
same names.
-/

namespace BehaviorTree

/-- What a lookup, a remainder or a sum comes to grief on. -/
inductive Breach where
  | node | definition | children | order | child | exchange | waypoint | modulus | overflow

namespace Checked

abbrev Ticker := Nat → Frame → Except Breach (Status × Frame)

def lookUp {α : Type} (breach : Breach) (xs : List α) (i : Nat) : Except Breach α :=
  match xs[i]? with
  | some x => .ok x
  | none => .error breach

def remainder (a b : Nat) : Except Breach Nat :=
  if b = 0 then .error .modulus else .ok (a % b)

def increment (x : UInt32) : Except Breach UInt32 :=
  if x.toNat + 1 < UInt32.size then .ok (x + 1) else .error .overflow

def swap (order : List Nat) (i j : Nat) : Except Breach (List Nat) := do
  let a ← lookUp .exchange order i
  let b ← lookUp .exchange order j
  return (order.set i b).set j a

def shuffleFrom : Nat → List Nat → Generator → Except Breach (List Nat × Generator)
  | 0, order, g => .ok (order, g)
  | i + 1, order, g => do
    let drawn := g.nextBelow (i + 2)
    shuffleFrom i (← swap order (i + 1) drawn.1) drawn.2

def shuffle (n : Nat) (g : Generator) : Except Breach (List Nat × Generator) :=
  shuffleFrom (n - 1) (List.range n) g

def drawnOrder (id : String) (count : Nat) (f : Frame) : Except Breach (List Nat × Frame) :=
  match (f.memory id).shuffledIndices.filter (·.length = count) with
  | some order => .ok (order, f)
  | none => do
    let (order, generator) ← shuffle count f.generator
    let f := { f with generator := generator }.note (.shuffled id count)
    return (order, f.updateMemory id fun m =>
      { m with currentIndex := 0, shuffledIndices := some order })

/-- The place of the child at a position of the run: by an order, or as the children stand. -/
def placeAt (order? : Option (List Nat)) (position : Nat) : Except Breach Nat :=
  match order? with
  | some order => lookUp .order order position
  | none => .ok position

/-- Ticks the children from a position of the run on, of which so many remain. -/
def runFrom (id : String) (stopOn : Status) (children : List Nat) (order? : Option (List Nat))
    (tick : Ticker) : (remaining : Nat) → (position : Nat) → Frame →
      Except Breach (Status × Frame)
  | 0, _, f => .ok (stopOn.invert, f.updateMemory id .endRun)
  | remaining + 1, position, f => do
    let child ← lookUp .child children (← placeAt order? position)
    match ← tick child f with
    | (.running, f) =>
      return (.running, f.updateMemory id fun m => { m with currentIndex := position })
    | (status, f) =>
      if status = stopOn then return (stopOn, f.updateMemory id .endRun)
      else runFrom id stopOn children order? tick remaining (position + 1) f

def ordered (id : String) (stopOn : Status) (shuffled : Bool) (children : List Nat)
    (tick : Ticker) (f : Frame) : Except Breach (Status × Frame) := do
  let (order?, f) ←
    if shuffled then
      let (order, f) ← drawnOrder id children.length f
      pure (some order, f)
    else pure (none, f)
  let saved := (f.memory id).currentIndex
  let position := if saved < children.length then saved else 0
  runFrom id stopOn children order? tick (children.length - position) position f

def tickAll (tick : Ticker) : List Nat → Frame → Except Breach (List Status × Frame)
  | [], f => .ok ([], f)
  | child :: rest, f => do
    let (status, f) ← tick child f
    let (statuses, f) ← tickAll tick rest f
    return (status :: statuses, f)

def abreast (s : Settings) (children : List Nat) (tick : Ticker) (f : Frame) :
    Except Breach (Status × Frame) :=
  if children.isEmpty then .ok (.success, f)
  else do
    let (statuses, f) ← tickAll tick children f
    return (Composite.verdict (s.text "successPolicy" = "one") (s.text "failurePolicy" = "all")
      statuses, f)

def composite (c : Composite) (s : Settings) (children : List Nat) (tick : Ticker) (f : Frame) :
    Except Breach (Status × Frame) :=
  match c with
  | .sequence => ordered s.node.id .failure false children tick f
  | .selector => ordered s.node.id .success false children tick f
  | .parallel => abreast s children tick f
  | .randomSelector => ordered s.node.id .success true children tick f
  | .randomSequence => ordered s.node.id .failure true children tick f

def countRun (id : String) (limit : UInt32) (outcome : Status) (f : Frame) :
    Except Breach (Status × Frame) := do
  let iteration ← increment (f.memory id).iteration
  if limit ≤ iteration then
    return (outcome, f.updateMemory id fun m => { m with iteration := 0 })
  else return (.running, f.updateMemory id fun m => { m with iteration := iteration })

def afterRun (child : Nat) (tick : Ticker) (f : Frame)
    (done : Status → Frame → Except Breach (Status × Frame)) : Except Breach (Status × Frame) := do
  match ← tick child f with
  | (.running, f) => return (.running, f)
  | (status, f) => done status f

def untilDone (awaited : Status) (s : Settings) (status : Status) (f : Frame) :
    Except Breach (Status × Frame) :=
  if status = awaited then
    .ok (.success, f.updateMemory s.node.id fun m => { m with iteration := 0 })
  else countRun s.node.id (s.count "maxIterations") awaited.invert f

def gate (s : Settings) (child? : Option Nat) (tick : Ticker) (f : Frame) :
    Except Breach (Status × Frame) :=
  let state := f.state s.node.id
  if state.runningTime - state.memory.lastExecutionTime < s.number "duration" then .ok (.failure, f)
  else
    match child? with
    | none => .ok (.failure, f)
    | some child => afterRun child tick f fun status f =>
        .ok (status, f.updateState s.node.id fun state =>
          { state with memory := { state.memory with lastExecutionTime := state.runningTime } })

def limitTime (m : Moment) (s : Settings) (child? : Option Nat) (tick : Ticker) (f : Frame) :
    Except Breach (Status × Frame) :=
  let state := f.state s.node.id
  let before := if state.status = .running then state.memory.elapsed else 0
  let elapsed := before + m.delta
  if s.number "timeout" ≤ elapsed then
    .ok (.failure, f.updateMemory s.node.id fun m => { m with elapsed := 0 })
  else
    let f := f.updateMemory s.node.id fun m => { m with elapsed := elapsed }
    match child? with
    | none => .ok (.failure, f)
    | some child => tick child f

def decorator (d : Decorator) (m : Moment) (s : Settings) (children : List Nat) (tick : Ticker)
    (f : Frame) : Except Breach (Status × Frame) :=
  match d, children.head? with
  | .inverter, some child => do
    let (status, f) ← tick child f
    return (status.invert, f)
  | .succeeder, some child => afterRun child tick f fun _ f => .ok (.success, f)
  | .failer, some child => afterRun child tick f fun _ f => .ok (.failure, f)
  | .repeater, some child =>
    afterRun child tick f fun _ f => countRun s.node.id (s.count "count") .success f
  | .repeatUntilFail, some child => afterRun child tick f (untilDone .failure s)
  | .repeatUntilSuccess, some child => afterRun child tick f (untilDone .success s)
  | .cooldown, child? => gate s child? tick f
  | .timeout, child? => limitTime m s child? tick f
  | .succeeder, none => .ok (.success, f)
  | .inverter, none | .failer, none | .repeater, none | .repeatUntilFail, none
  | .repeatUntilSuccess, none => .ok (.failure, f)

def lingering (delta waitTime : Float32) (count : Nat) (memory : Memory) : Except Breach Memory :=
  let elapsed := memory.waitElapsed + delta
  if waitTime ≤ elapsed then do
    let next ← remainder (memory.waypointIndex + 1) count
    return { memory with waiting := false, waitElapsed := 0, waypointIndex := next }
  else .ok { memory with waitElapsed := elapsed }

def walkRoute (m : Moment) (s : Settings) (me : Entity) (f : Frame) :
    Except Breach (Status × Frame) :=
  let id := s.node.id
  match Waypoint.route? (s.text "waypoints") with
  | none => .ok (.failure, f)
  | some route => do
    let index ← remainder (f.memory id).waypointIndex route.length
    let f := f.updateMemory id fun memory => { memory with waypointIndex := index }
    if (f.memory id).waiting then
      let memory ← lingering m.delta (s.number "waitTime") route.length (f.memory id)
      return (.running, (f.updateMemory id fun _ => memory).setVelocity .zero)
    else
      let target ← lookUp .waypoint route index
      if me.position.distance target ≤ s.number "arrivalThreshold" then
        let f := f.updateMemory id fun memory => { memory with waiting := true, waitElapsed := 0 }
        return (.running, f.setVelocity .zero)
      else return (.running, Action.stepToward m me.position target (s.number "speed") f)

def action (a : Action) (m : Moment) (s : Settings) (me : Entity) (f : Frame) :
    Except Breach (Status × Frame) :=
  match a with
  | .patrol => walkRoute m s me f
  | a => .ok (a.run m s me f)

end Checked

end BehaviorTree
