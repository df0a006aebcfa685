import BehaviorTree.Proofs.Precision
import BehaviorTree.Proofs.World.Kept

/-!
# The log of a world as a journal of health

An entity loses health to hits only, and each hit is reported with the damage and the health that is
left. Whoever collects the reports can follow the health of every entity.
-/

namespace BehaviorTree

def recorded (x : Float32) : Document :=
  if x.isFinite then .number (.double (widen x)) else .null

theorem Json.document_single (x : Float32) : (single x).document = recorded x := by
  rw [single, double, recorded]
  by_cases hx : x.isFinite
  · rw [dif_pos (isFinite_widen hx), if_pos hx]
  · rw [dif_neg fun h => hx (isFinite_of_widen h), if_neg hx]
    rfl

theorem eq_of_real?_recorded {x y : Float32} (h : Source.real? (recorded x) = some y) : y = x := by
  rw [recorded] at h
  by_cases hx : x.isFinite
  · rw [if_pos hx] at h
    have hy : narrow (widen x) = y := Option.some.inj h
    rw [← hy, narrow_widen hx]
  · rw [if_neg hx] at h
    exact absurd h (Option.some_ne_none y).symm

namespace Event

def member? (e : Event) (name : String) : Option Document :=
  (Source.members? e.payload.document).bind (·.lookup name)

def number? (e : Event) (name : String) : Option Float32 := (e.member? name).bind Source.real?

def targets (name : String) (e : Event) : Bool := e.member? "target" = some (.string name)

def attack (attacker target : String) (damage health : Float32) : Event :=
  ⟨"attack", Action.attackReport attacker target damage health⟩

variable {attacker target : String} {damage health x : Float32}

private theorem member?_attack (name : String) :
    (attack attacker target damage health).member? name =
      ([("attacker", Json.string attacker), ("target", .string target), ("damage", .single damage),
        ("targetHealth", .single health)].lookup name).map (·.document) := by
  rw [← Dict.get?_ofList (by simp), ← Dict.lookup_entries, ← Dict.lookup_map]
  rfl

theorem targets_attack (name : String) :
    (attack attacker target damage health).targets name = decide (target = name) := by
  rw [targets, member?_attack]
  simp [List.lookup, Json.string]

theorem health_attack :
    (attack attacker target damage health).member? "targetHealth" = some (recorded health) := by
  rw [member?_attack, ← Json.document_single]
  rfl

theorem damage_attack :
    (attack attacker target damage health).member? "damage" = some (recorded damage) := by
  rw [member?_attack, ← Json.document_single]
  rfl

theorem eq_of_number? {e : Event} {name : String} {y : Float32}
    (h : e.member? name = some (recorded x)) (hy : e.number? name = some y) : y = x := by
  rw [number?, h] at hy
  exact eq_of_real?_recorded hy

end Event

/-- How the reports of hits lead from one health of an entity to another: a hit on the entity takes its
damage, a hit on others takes nothing. -/
inductive Wounds (name : String) : Float32 → List Event → Float32 → Prop where
  | done (health : Float32) : Wounds name health [] health
  | spare {attacker target : String} {damage left health health' : Float32} {events : List Event}
      (h : target ≠ name) (rest : Wounds name health events health') :
      Wounds name health (.attack attacker target damage left :: events) health'
  | hit {attacker : String} {damage health health' : Float32} {events : List Event}
      (rest : Wounds name (health - damage) events health') :
      Wounds name health (.attack attacker name damage (health - damage) :: events) health'

/-- Whether the events that have one target tell of its health between a time before them and a time
after them: the last one has what is left, and each one has what the one before it left less its own
damage. -/
structure Journals (before : Float32) (events : List Event) (after : Float32) : Prop where
  last : match events.getLast? with
    | none => after = before
    | some e => e.member? "targetHealth" = some (recorded after)
  first : ∀ e ∈ events.head?, ∀ damage, e.number? "damage" = some damage →
    e.member? "targetHealth" = some (recorded (before - damage))
  next : events.IsChain fun e e' => ∀ health damage,
    e.number? "targetHealth" = some health → e'.number? "damage" = some damage →
      e'.member? "targetHealth" = some (recorded (health - damage))

theorem Journals.cons {before after damage : Float32} {attacker target : String}
    {events : List Event} (h : Journals (before - damage) events after) :
    Journals before (.attack attacker target damage (before - damage) :: events) after where
  last := by
    have hlast := h.last
    rw [List.getLast?_cons]
    cases hevents : events.getLast? with
    | none =>
      rw [hevents] at hlast
      rw [hlast]
      exact Event.health_attack
    | some e =>
      rw [hevents] at hlast
      exact hlast
  first := by
    intro e he x hx
    obtain rfl := Option.some.inj he
    rw [Event.eq_of_number? Event.damage_attack hx]
    exact Event.health_attack
  next := by
    apply List.isChain_cons.mpr
    refine ⟨?_, h.next⟩
    intro e he health x hhealth hx
    rw [Event.eq_of_number? Event.health_attack hhealth]
    exact h.first e he x hx

namespace Wounds

variable {name : String} {a b c : Float32} {events events' : List Event}

theorem append (h : Wounds name a events b) (h' : Wounds name b events' c) :
    Wounds name a (events ++ events') c := by
  induction h with
  | done _ => exact h'
  | spare hne _ ih => exact .spare hne (ih h')
  | hit _ ih => exact .hit (ih h')

theorem journals (h : Wounds name a events b) :
    Journals a (events.filter (Event.targets name)) b := by
  induction h with
  | done health => exact ⟨rfl, by simp, .nil⟩
  | spare hne _ ih =>
    rw [List.filter_cons_of_neg (by simpa [Event.targets_attack] using hne)]
    exact ih
  | hit _ ih =>
    rw [List.filter_cons_of_pos (by simp [Event.targets_attack])]
    exact ih.cons

end Wounds

namespace World

/-- Whether events tell of the health of every entity between two states of a world. -/
def Told (w : World) (events : List Event) (w' : World) : Prop :=
  ∀ name, Option.Rel (fun a b => Wounds name a.health events b.health) (w.get? name) (w'.get? name)

variable {w w' w'' : World} {events events' : List Event}

theorem Told.refl (w : World) : w.Told [] w :=
  fun _ => rel_refl (fun a => .done a.health) _

theorem Told.trans (h : w.Told events w') (h' : w'.Told events' w'') :
    w.Told (events ++ events') w'' :=
  fun name => rel_trans .append (h name) (h' name)

end World

namespace Surroundings

variable {agent : String} {o o' : Surroundings} {ds : List Deed}

theorem Step.told (h : Step agent o ds o') :
    ∃ events, o'.world.events = o.world.events ++ events ∧ o.world.Told events o'.world := by
  cases h with
  | steer _ | write _ _ => exact ⟨[], (List.append_nil _).symm, .refl _⟩
  | move position =>
    refine ⟨[], (List.append_nil _).symm, fun name => World.rel_update ?_ fun _ a => .done a.health⟩
    intro _ a _
    exact .done a.health
  | @strike target victim hvictim damage =>
    refine ⟨[.attack agent target damage (victim.health - damage)], rfl, fun name => ?_⟩
    apply World.rel_update
    · intro hname a ha
      rw [hvictim] at ha
      obtain rfl := Option.some.inj ha
      rw [hname]
      exact .hit (.done _)
    · intro hname a
      exact .spare (Ne.symm hname) (.done a.health)

theorem Course.told (h : Course agent o ds o') :
    ∃ events, o'.world.events = o.world.events ++ events ∧ o.world.Told events o'.world := by
  induction h with
  | done o => exact ⟨[], (List.append_nil _).symm, .refl _⟩
  | step first _ ih =>
    obtain ⟨events, hevents, htold⟩ := first.told
    obtain ⟨events', hevents', htold'⟩ := ih
    refine ⟨events ++ events', ?_, htold.trans htold'⟩
    rw [hevents', hevents, List.append_assoc]

end Surroundings

theorem Executor.told_execute (e : Executor) (i : Input) :
    ∃ events, (e.execute i.agent i.dt i.scene).scene.world.events = i.scene.world.events ++ events ∧
      i.scene.world.Told events (e.execute i.agent i.dt i.scene).scene.world := by
  cases hroot : e.currentIndex.root with
  | none =>
    rw [execute_of_rootless hroot]
    exact ⟨[], (List.append_nil _).symm, .refl _⟩
  | some root => exact (e.course_execute i hroot).told

end BehaviorTree
