import BehaviorTree.Dict
import BehaviorTree.Precision
import BehaviorTree.Decimal.Layout
import BehaviorTree.Decimal.Numeral
import BehaviorTree.Text.Blank
import BehaviorTree.Json.Printer
import BehaviorTree.Json.Parser
import BehaviorTree.Record
import BehaviorTree.Status
import BehaviorTree.World.Basic
import BehaviorTree.Blackboard
import BehaviorTree.Random
import BehaviorTree.Tree.Codec
import BehaviorTree.Tree.Validity
import BehaviorTree.Executor
import BehaviorTree.Yaml.Parser
import BehaviorTree.Main
import BehaviorTree.Proofs.Tree.WellFormed
import BehaviorTree.Proofs.Tick.Depth
import BehaviorTree.Proofs.Checked.Executor
import BehaviorTree.Proofs.Tick.Round
import BehaviorTree.Proofs.Tree.Children
import BehaviorTree.Proofs.Tick.Simulation
import BehaviorTree.Proofs.Executor.Structure
import BehaviorTree.Proofs.Json.Kept
import BehaviorTree.Proofs.Record
import BehaviorTree.Proofs.Tree.Codec
import BehaviorTree.Proofs.Store
import BehaviorTree.Proofs.Executor.Reload
import BehaviorTree.Proofs.Tick.Duality
import BehaviorTree.Proofs.Tree.Dual
import BehaviorTree.Proofs.Tick.Mirror
import BehaviorTree.Proofs.Executor.Dual
import BehaviorTree.Proofs.Tick.Deed
import BehaviorTree.Proofs.World.Kept
import BehaviorTree.Proofs.World.Wounds
import BehaviorTree.Proofs.World.History
import BehaviorTree.Proofs.Simulation.Journal
import BehaviorTree.Proofs.Simulation.Variables
import BehaviorTree.Proofs.Simulation.Steps
import BehaviorTree.Proofs.Tick.Timeout
import BehaviorTree.Proofs.Tick.Cooldown
import BehaviorTree.Proofs.Tick.Attack
import BehaviorTree.Proofs.Tick.Patrol
import BehaviorTree.Proofs.Tick.Check
import BehaviorTree.Proofs.Tick.Repeat
import BehaviorTree.Proofs.Tick.Parallel
import BehaviorTree.Proofs.Tick.Truth
import BehaviorTree.Proofs.Executor.Truth
import BehaviorTree.Proofs.Executor.Once
import BehaviorTree.Proofs.Executor.Footprint
import BehaviorTree.Proofs.Executor.Coherence
import BehaviorTree.Proofs.Executor.Absence
import BehaviorTree.Proofs.Executor.Live
import BehaviorTree.Proofs.Executor.Rewind
import BehaviorTree.Proofs.Tree.Spare
import BehaviorTree.Proofs.Rounding
import BehaviorTree.Proofs.Decimal.Digits
import BehaviorTree.Proofs.Json.Number
import BehaviorTree.Proofs.Json.Depth
import BehaviorTree.Proofs.Json.Text
import BehaviorTree.Proofs.Tree.Text
import BehaviorTree.Proofs.Tree.Fault
import BehaviorTree.Proofs.Tree.Connect
import BehaviorTree.Proofs.Executor.Defaults
import BehaviorTree.Proofs.Random.Exchange
import BehaviorTree.Proofs.Random.Balance
import BehaviorTree.Proofs.Random.Streams
import BehaviorTree.Proofs.Executor.Draw
import BehaviorTree.Proofs.Waypoint
import BehaviorTree.Proofs.Executor.Count
