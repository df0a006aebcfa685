import BehaviorTree.Proofs.Simulation.Run
import BehaviorTree.Proofs.World.Wounds

/-!
# Simulations step by step

A simulation that is run comes to what it comes to when its host makes the steps one by one: as many as
the configuration says, or up to the first one that ends the run.
-/

namespace BehaviorTree.Simulation

def steps (s : Simulation) (dt : Float32) (n : Nat) : Simulation := s.after (List.replicate n dt)

variable {s : Simulation} (dt : Float32)

section

variable {events : Nat → List Event} {k : Nat}

end

end BehaviorTree.Simulation
