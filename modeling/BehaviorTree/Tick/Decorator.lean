import BehaviorTree.Tick.Frame

/-!
# Decorators

Nodes that tick their first child, at most once a tick: to turn its result round, to force a
result, to count its runs, or to hold it back for some time. Further children are never ticked.
-/

namespace BehaviorTree.Decorator

variable {n : Nat}

/-- Ticks the child and exchanges success and failure. -/
def invert (child : Fin n) (tick : Ticker n) (f : Frame) : Status × Frame :=
  let (status, f) := tick child f
  (status.invert, f)

/-- Ticks the child and replaces the result of a run that ended. -/
def force (outcome : Status) (child : Fin n) (tick : Ticker n) (f : Frame) : Status × Frame :=
  match tick child f with
  | (.running, f) => (.running, f)
  | (_, f) => (outcome, f)

/-- Counts one more run of the child, and ends with an outcome when there are enough. The greatest
count goes on at zero, where a checked sum would break off the tick; no tick stores it, so only a
restored store can hold it. -/
def countRun (id : String) (limit : UInt32) (outcome : Status) (f : Frame) : Status × Frame :=
  let iteration := (f.memory id).iteration + 1
  if limit ≤ iteration then (outcome, f.updateMemory id fun m => { m with iteration := 0 })
  else (.running, f.updateMemory id fun m => { m with iteration := iteration })

/-- Runs the child `count` times, ending at most one run a tick. -/
def repeatTimes (s : Settings) (child : Fin n) (tick : Ticker n) (f : Frame) : Status × Frame :=
  match tick child f with
  | (.running, f) => (.running, f)
  | (_, f) => countRun s.node.id (s.count "count") .success f

/-- Runs the child until it returns a status, which is a success, or `maxIterations` runs have
ended otherwise. Giving up is a success when waiting for a failure and a failure when waiting for
a success. -/
def repeatUntil (awaited : Status) (s : Settings) (child : Fin n) (tick : Ticker n) (f : Frame) :
    Status × Frame :=
  match tick child f with
  | (.running, f) => (.running, f)
  | (status, f) =>
    if status = awaited then
      (.success, f.updateMemory s.node.id fun m => { m with iteration := 0 })
    else countRun s.node.id (s.count "maxIterations") awaited.invert f

/-- Fails until `duration` seconds have gone by since the child last ended a run, counted from
zero before its first; then ticks the child. -/
def gate (s : Settings) (child? : Option (Fin n)) (tick : Ticker n) (f : Frame) :
    Status × Frame :=
  let state := f.state s.node.id
  if state.runningTime - state.memory.lastExecutionTime < s.number "duration" then (.failure, f)
  else
    match child? with
    | none => (.failure, f)
    | some child =>
      match tick child f with
      | (.running, f) => (.running, f)
      | (status, f) =>
        (status, f.updateState s.node.id fun state =>
          { state with memory := { state.memory with lastExecutionTime := state.runningTime } })

/-- Ticks the child unless it has been running for `timeout` seconds, which fails. The seconds
are counted anew whenever the tick before was not running. -/
def limitTime (m : Moment) (s : Settings) (child? : Option (Fin n)) (tick : Ticker n) (f : Frame) :
    Status × Frame :=
  let state := f.state s.node.id
  let before := if state.status = .running then state.memory.elapsed else 0
  let elapsed := before + m.delta
  if s.number "timeout" ≤ elapsed then
    (.failure, f.updateMemory s.node.id fun m => { m with elapsed := 0 })
  else
    let f := f.updateMemory s.node.id fun m => { m with elapsed := elapsed }
    match child? with
    | none => (.failure, f)
    | some child => tick child f

/-- Ticks a decorator. Without a child those that force a result return it, and others fail. -/
def run (d : Decorator) (m : Moment) (s : Settings) (children : List (Fin n)) (tick : Ticker n)
    (f : Frame) : Status × Frame :=
  match d, children.head? with
  | inverter, some child => invert child tick f
  | succeeder, some child => force .success child tick f
  | failer, some child => force .failure child tick f
  | repeater, some child => repeatTimes s child tick f
  | repeatUntilFail, some child => repeatUntil .failure s child tick f
  | repeatUntilSuccess, some child => repeatUntil .success s child tick f
  | cooldown, child? => gate s child? tick f
  | timeout, child? => limitTime m s child? tick f
  | succeeder, none => (.success, f)
  | inverter, none | failer, none | repeater, none | repeatUntilFail, none
  | repeatUntilSuccess, none => (.failure, f)

end BehaviorTree.Decorator
