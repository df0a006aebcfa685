import BehaviorTree.Record

/-!
# Configurations of simulations

How long a simulation runs, in what steps, and for whom.
-/

namespace BehaviorTree

/-- The settings of a simulation. -/
structure Configuration where
  /-- The most ticks to run. -/
  ticks : Nat
  /-- The seconds of a tick. -/
  deltaTime : Float32
  /-- The seed of what trees draw; without one they draw differently every time. -/
  seed : Option UInt64
  /-- The acting entity; without one it is the first of the world. -/
  agent : Option String
  /-- Whether to stop at the first tick that is not running. -/
  untilDone : Bool
deriving DecidableEq

namespace Configuration

/-- A hundred ticks at sixty a second. -/
def standard : Configuration := ⟨100, 1 / 60, none, none, false⟩

instance : Inhabited Configuration := ⟨standard⟩

def read {δ : Type} [Source δ] (d : δ) : Option Configuration := do
  let fields ← Fields.of? ["ticks", "delta_time", "seed", "agent", "until_done"] d
  let seed := fun d => (Source.natural? (δ := δ) d).map UInt64.ofNat
  return {
    ticks := ← fields.optional "ticks" Source.natural? standard.ticks
    deltaTime := ← fields.optional "delta_time" Source.real? standard.deltaTime
    seed := ← fields.optional "seed" (Source.nullable seed) standard.seed
    agent := ← fields.optional "agent" (Source.nullable Source.string?) standard.agent
    untilDone := ← fields.optional "until_done" Source.bool? standard.untilDone }

end Configuration

end BehaviorTree
