import BehaviorTree.CommandLine.Basic

/-!
# The program

Connects the command line with the file system, the clock and the standard streams.
-/

open BehaviorTree

def systemFiles : Files IO where
  read path := do
    try return some (← IO.FS.readFile path) catch _ => return none
  has path := do
    try
      let _ ← IO.FS.Handle.mk path .read
      return true
    catch _ => return false

/-- Runs the command that the arguments ask for. -/
def main (args : List String) : IO UInt32 := do
  let unseeded : Generator := ⟨mix64 (UInt64.ofNat (← IO.monoNanosNow))⟩
  let outcome ← CommandLine.run systemFiles unseeded usualConfigurationFile args
  match outcome with
  | .printed text => IO.print text
  | .failed failure => IO.eprint failure.text
  | .misused misuse => IO.eprintln s!"error: {misuse.message}"
  return outcome.code.toUInt32
