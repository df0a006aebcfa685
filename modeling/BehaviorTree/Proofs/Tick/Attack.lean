import BehaviorTree.Proofs.Tick.Clock
import BehaviorTree.Proofs.World.Wounds

/-!
# Attacks

An attack hits its target or leaves everything around the tree as it is. Between two hits its cooldown
goes by, by its own running time; until then it is running, and afterwards it fails if there is nothing
to hit.
-/

namespace BehaviorTree

namespace Settings

/-- What an attack finds to hit: its target, unless that is out of range. -/
def victim? (s : Settings) (me : Entity) (w : World) : Option Entity :=
  (w.get? (s.text "targetEntity")).filter fun target =>
    ¬ s.number "attackRange" < me.position.distance target.position

def Cooling (s : Settings) (last : Option Float32) (now : Float32) : Prop :=
  ∃ t ∈ last, now - t < s.number "attackCooldown"

end Settings

/-- Whether all that happens between two frames around a tree is a hit: the target loses the damage, and
one event reports that. -/
structure Frame.Hit (agent target : String) (damage : Float32) (victim : Entity) (f g : Frame) :
    Prop where
  entities : ∀ name, g.world.get? name =
    if name = target then some { victim with health := victim.health - damage }
    else f.world.get? name
  events : g.world.events =
    f.world.events ++ [.attack agent target damage (victim.health - damage)]
  blackboard : g.blackboard = f.blackboard
  saved : g.saved = f.saved

/-- What a tick of an attack at a running time comes to, after a last hit. -/
structure Visit.Attacks {n : Nat} (id agent : String) (s : Settings) (last : Option Float32)
    (now : Float32) (v : Visit n) : Prop where
  hits : v.status = .success → ∃ me victim, v.before.world.get? agent = some me ∧
    s.victim? me v.before.world = some victim ∧
    v.before.Hit agent (s.text "targetEntity") (s.number "damage") victim v.after ∧
    (v.after.memory id).lastAttackTime = some now
  spares : v.status ≠ .success → v.after.surroundings = v.before.surroundings ∧
    (v.after.memory id).lastAttackTime = (v.before.memory id).lastAttackTime
  spaced : v.status = .success → ¬ s.Cooling last now
  gated : v.status = .running ↔ (v.before.world.get? agent).isSome ∧ s.Cooling last now
  misses : ∀ me, v.before.world.get? agent = some me → ¬ s.Cooling last now →
    (v.status = .failure ↔ s.victim? me v.before.world = none)

theorem Visit.Attacks.lastAttackTime {n : Nat} {id agent : String} {s : Settings}
    {last : Option Float32} {now : Float32} {v : Visit n} (h : v.Attacks id agent s last now) :
    (v.after.memory id).lastAttackTime =
      if v.status.isSuccess then some now else (v.before.memory id).lastAttackTime := by
  by_cases hsuccess : v.status = .success
  · obtain ⟨-, -, -, -, -, hremembered⟩ := h.hits hsuccess
    rw [hremembered, hsuccess]
    rfl
  · rw [(h.spares hsuccess).2, if_neg (by simpa [Status.isSuccess] using hsuccess)]

namespace Action

end Action

namespace Index

variable {ix : Index} {p : Fin ix.size} {d : Definition} {m : Moment}

end Index

namespace Executor

end Executor

end BehaviorTree
