import BehaviorTree.Proofs.Tick.Chronicle
import BehaviorTree.Proofs.Tick.Once
import Mathlib.Data.List.DropRight

/-!
# Times told by chronicles

The running time of a node is the sum of the time steps of its ticks, and the ticks before a visit tell
when something last happened at the node, or what has happened since.
-/

namespace BehaviorTree

section

variable {n : Nat}

/-- The seconds of some ticks, added up in order. -/
def seconds (ticks : List (Moment × Visit n)) : Float32 :=
  (ticks.map (·.1.delta)).foldl (· + ·) 0

/-- The ticks of a node since the last one that was not running. -/
def sinceEnded (past : List (Moment × Visit n)) : List (Moment × Visit n) :=
  past.rtakeWhile (·.2.status = .running)

/-- The seconds of the ticks of a node up to the last one of a kind, if there is one. -/
def lastTime (kind : Visit n → Bool) (past : List (Moment × Visit n)) : Option Float32 :=
  match past.rdropWhile (!kind ·.2) with
  | [] => none
  | ticks => some (seconds ticks)

theorem seconds_concat (ticks : List (Moment × Visit n)) (x : Moment × Visit n) :
    seconds (ticks ++ [x]) = seconds ticks + x.1.delta := by
  rw [seconds, List.map_append]
  exact List.foldl_concat _ _ _ _

theorem sinceEnded_concat (past : List (Moment × Visit n)) (x : Moment × Visit n) :
    sinceEnded (past ++ [x]) = if x.2.status = .running then sinceEnded past ++ [x] else [] := by
  simp [sinceEnded, List.rtakeWhile_concat]

theorem lastTime_concat (kind : Visit n → Bool) (past : List (Moment × Visit n))
    (x : Moment × Visit n) : lastTime kind (past ++ [x]) =
      if kind x.2 then some (seconds (past ++ [x])) else lastTime kind past := by
  rw [lastTime, List.rdropWhile_concat]
  by_cases hx : kind x.2
  · rw [if_neg (by simp [hx]), if_pos hx]
    cases past <;> rfl
  · rw [if_pos (by simp [hx]), if_neg hx]
    rfl

end

namespace Executor

/-- In a run that starts without states, the running time of a node is the sum of the time steps of its
ticks, and a law of its visits may be told of that. -/
theorem clocked_law {t : Tree} (hfree : (Index.build t).CycleFree) {g : Generator}
    {inputs : List Input} {p : Fin (Index.build t).size}
    {P : List (Moment × Visit (Index.build t).size) → NodeState → Prop}
    {Q : List (Moment × Visit (Index.build t).size) → Moment → Visit (Index.build t).size → Prop}
    (start : P [] .initial)
    (step : ∀ past m room f, (f.state ((Index.build t).name p)).runningTime = seconds past →
      P past (f.state ((Index.build t).name p)) →
        let v := (Index.build t).visit m room p f
        Q past m v ∧ P (past ++ [(m, v)]) (v.after.state ((Index.build t).name p)))
    {i : Nat} {m : Moment} {v : Visit (Index.build t).size}
    (h : (chronicleOf (.build t) (ofGenerator t g) inputs p)[i]? = some (m, v)) :
    let past := (chronicleOf (.build t) (ofGenerator t g) inputs p).take i
    (v.after.state ((Index.build t).name p)).runningTime = seconds (past ++ [(m, v)]) ∧
      P past (v.before.state ((Index.build t).name p)) ∧ Q past m v := by
  intro past
  have hp := (mem_chronicleOf (List.mem_of_getElem? h)).1
  have hall := chronicle_law hfree
    (P := fun past s => s.runningTime = seconds past ∧ P past s)
    (Q := fun past m v => (v.after.state ((Index.build t).name p)).runningTime =
      seconds (past ++ [(m, v)]) ∧ Q past m v) ⟨rfl, start⟩ ?_ h
  · obtain ⟨hbefore, hnow, hlaw⟩ := hall
    exact ⟨hnow, hbefore.2, hlaw⟩
  · rintro past m room f ⟨htime, hpast⟩ v
    obtain ⟨hlaw, hnext⟩ := step past m room f htime hpast
    have hnow : (v.after.state ((Index.build t).name p)).runningTime =
        seconds (past ++ [(m, v)]) := by
      rw [(Index.state_visit hfree hp room f).2, htime, seconds_concat]
    exact ⟨⟨hnow, hlaw⟩, hnow, hnext⟩

end Executor

end BehaviorTree
