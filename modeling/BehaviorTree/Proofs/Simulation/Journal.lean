import BehaviorTree.Proofs.Simulation.Run
import BehaviorTree.Proofs.World.Wounds

/-!
# The events of a simulation

A simulation takes the events of its world after every step. What it has collected tells of the health
of every entity since the start.
-/

namespace BehaviorTree.Simulation

variable {s : Simulation}

private theorem told_step (h : s.scene.world.events = []) (dt : Float32) :
    ∃ reports, (s.step dt).2.events = s.events ++ reports ∧
      s.scene.world.Told (reports.map (·.event)) (s.step dt).2.scene.world := by
  obtain ⟨events, hevents, htold⟩ := s.executor.told_execute (s.input dt)
  rw [input, h, List.nil_append] at hevents
  refine ⟨events.map (TimedEvent.mk s.tick), ?_, ?_⟩
  · simp only [step, hevents]
  · have hreports : (events.map (TimedEvent.mk s.tick)).map (·.event) = events := by
      simp [Function.comp_def]
    rw [hreports]
    exact htold

theorem told_after (h : s.scene.world.events = []) (dts : List Float32) :
    ∃ reports, (s.after dts).events = s.events ++ reports ∧
      s.scene.world.Told (reports.map (·.event)) (s.after dts).scene.world := by
  induction dts generalizing s with
  | nil => exact ⟨[], (List.append_nil _).symm, .refl _⟩
  | cons dt rest ih =>
    obtain ⟨reports, hevents, htold⟩ := told_step h dt
    obtain ⟨reports', hevents', htold'⟩ := ih (s := (s.step dt).2) rfl
    refine ⟨reports ++ reports', ?_, ?_⟩
    · exact hevents'.trans (by rw [hevents, List.append_assoc])
    · rw [List.map_append]
      exact htold.trans htold'

/-- The collected events with an entity for their target tell of its health: nothing else changes it,
the last one has what is left, and each takes its damage from what the one before it left. -/
theorem journals_after {t : Tree} {w : World} {c : Configuration} {unseeded : Generator}
    (hs : create t w c unseeded = .ok s) (hw : w.events = []) (dts : List Float32)
    (name : String) : Option.Rel
      (fun a b => Journals a.health
        (((s.after dts).events.map (·.event)).filter (Event.targets name)) b.health)
      (w.get? name) ((s.after dts).scene.world.get? name) := by
  obtain ⟨-, hscene, hnone⟩ := of_create hs
  have hclear : s.scene.world.events = [] := by rw [hscene, hw]
  obtain ⟨reports, hevents, htold⟩ := told_after hclear dts
  rw [hevents, hnone, List.nil_append]
  have hname := htold name
  rw [hscene] at hname
  exact rel_mono (fun h => h.journals) hname

/-- Two hits, the second after the cooldown of the first, take ten each. -/
theorem journals_after_two_hits :
    let w := World.ofEntities [.create "Guard" .zero, .create "Player" .zero]
    let s : Simulation := ⟨.ofGenerator (.single "attack" []) ⟨0⟩, ⟨w, ∅⟩, "Guard", 0, []⟩
    let events := ((s.after [0.5, 0.5, 0.5]).events.map (·.event)).filter (Event.targets "Player")
    create (.single "attack" []) w .standard ⟨0⟩ = .ok s ∧ w.events = [] ∧ events.length = 2 ∧
      Option.Rel (fun a b => Journals a.health events b.health) (w.get? "Player")
        ((s.after [0.5, 0.5, 0.5]).scene.world.get? "Player") := by
  intro w s events
  have hs : create (.single "attack" []) w .standard ⟨0⟩ = .ok s := rfl
  have hw : w.events = [] := rfl
  have hlength : events.length = 2 := by decide +kernel
  exact ⟨hs, hw, hlength, journals_after hs hw [0.5, 0.5, 0.5] "Player"⟩

end BehaviorTree.Simulation
