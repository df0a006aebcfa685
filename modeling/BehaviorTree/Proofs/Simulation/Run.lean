import BehaviorTree.Proofs.Executor.Run
import BehaviorTree.Simulation.Basic

/-!
# Runs of simulations

Simulations from their start over any number of steps.
-/

namespace BehaviorTree.Simulation

def after (s : Simulation) (dts : List Float32) : Simulation :=
  dts.foldl (fun s dt => (s.step dt).2) s

def input (s : Simulation) (dt : Float32) : Input := ⟨s.agent, dt, s.scene⟩

variable {s : Simulation}

theorem after_concat (s : Simulation) (dts : List Float32) (dt : Float32) :
    s.after (dts ++ [dt]) = ((s.after dts).step dt).2 :=
  List.foldl_concat _ _ _ _

theorem currentIndex_after (s : Simulation) (dts : List Float32) :
    (s.after dts).executor.currentIndex = s.executor.currentIndex := by
  induction dts generalizing s with
  | nil => rfl
  | cons dt rest ih =>
    exact (ih (s.step dt).2).trans (s.executor.currentIndex_execute s.agent dt s.scene)

section

variable {t : Tree} {w : World} {c : Configuration} {unseeded : Generator}

theorem eq_of_create (h : create t w c unseeded = .ok s) :
    s = ⟨.create t c.seed unseeded, ⟨w, ∅⟩, s.agent, 0, []⟩ := by
  rw [create] at h
  cases hagent : agentOf w c with
  | error refusal =>
    rw [hagent] at h
    injection h
  | ok agent =>
    rw [hagent] at h
    obtain rfl := Except.ok.inj h
    rfl

theorem of_create (h : create t w c unseeded = .ok s) :
    s.executor = .create t c.seed unseeded ∧ s.scene = ⟨w, ∅⟩ ∧ s.events = [] := by
  rw [eq_of_create h]
  exact ⟨rfl, rfl, rfl⟩

end

end BehaviorTree.Simulation
