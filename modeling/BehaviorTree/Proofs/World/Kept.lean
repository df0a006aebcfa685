import BehaviorTree.Proofs.Dict
import BehaviorTree.Proofs.Tick.Deed

/-!
# What a tick keeps of a world

A tick moves the acting entity, takes health from those that its attacks hit, and reports every hit.
All else in the world stays.
-/

namespace BehaviorTree

/-- Whether an entity has changed in its position at most where it may move, and in its health at
most where it may be hurt. -/
structure Entity.Kept (mayMove mayHurt : Prop) (a b : Entity) : Prop where
  name : b.name = a.name
  maxHealth : b.maxHealth = a.maxHealth
  sightRange : b.sightRange = a.sightRange
  extra : b.extra = a.extra
  position : ¬ mayMove → b.position = a.position
  health : ¬ mayHurt → b.health = a.health

namespace Entity

variable {p q q' : Prop} {a b c : Entity}

theorem Kept.refl (a : Entity) : a.Kept p q a :=
  ⟨rfl, rfl, rfl, rfl, fun _ => rfl, fun _ => rfl⟩

theorem Kept.trans (h : a.Kept p q b) (h' : b.Kept p q' c) : a.Kept p (q ∨ q') c where
  name := h'.name.trans h.name
  maxHealth := h'.maxHealth.trans h.maxHealth
  sightRange := h'.sightRange.trans h.sightRange
  extra := h'.extra.trans h.extra
  position hp := (h'.position hp).trans (h.position hp)
  health hq := by
    rw [not_or] at hq
    exact (h'.health hq.2).trans (h.health hq.1)

theorem kept_ofPosition (hp : p) (a : Entity) (position : Vec2) :
    a.Kept p q (a.apply (.ofPosition position)) :=
  ⟨rfl, rfl, rfl, rfl, fun h => absurd hp h, fun _ => rfl⟩

theorem kept_ofHealth (hq : q) (a : Entity) (health : Float32) :
    a.Kept p q (a.apply (.ofHealth health)) :=
  ⟨rfl, rfl, rfl, rfl, fun _ => rfl, fun h => absurd hq h⟩

end Entity

section

variable {α : Type} {r r' r'' : α → α → Prop}

theorem rel_refl (h : ∀ a, r a a) (x : Option α) : Option.Rel r x x := by
  cases x with
  | none => exact .none
  | some a => exact .some (h a)

theorem rel_mono (h : ∀ {a b}, r a b → r' a b) {x y : Option α} (hxy : Option.Rel r x y) :
    Option.Rel r' x y := by
  cases hxy with
  | none => exact .none
  | some hab => exact .some (h hab)

theorem rel_trans (h : ∀ {a b c}, r a b → r' b c → r'' a c) {x y z : Option α}
    (hxy : Option.Rel r x y) (hyz : Option.Rel r' y z) : Option.Rel r'' x z := by
  cases hxy with
  | none =>
    cases hyz
    exact .none
  | some hab =>
    cases hyz with
    | some hbc => exact .some (h hab hbc)

end

def Deed.blow? : Deed → Option (String × Float32)
  | .strike target damage => some (target, damage)
  | .write _ _ => none

/-- Whether an event reports a blow. -/
def Event.Reports (agent : String) (blow : String × Float32) (e : Event) : Prop :=
  e.name = "attack" ∧ ∃ health, e.payload = Action.attackReport agent blow.1 blow.2 health

namespace World

theorem get?_update (w : World) (name name' : String) (p : Patch) : (w.update name p).get? name' =
    if name' = name then (w.get? name).map (·.apply p) else w.get? name' :=
  w.entities.get?_modify name name' (·.apply p)

/-- A partial change relates the entities before and after it, the one that it is made to and the
others. -/
theorem rel_update {r : Entity → Entity → Prop} {w : World} {name name' : String} {p : Patch}
    (hit : name' = name → ∀ a, w.get? name = some a → r a (a.apply p))
    (spare : name' ≠ name → ∀ a, r a a) :
    Option.Rel r (w.get? name') ((w.update name p).get? name') := by
  rw [get?_update]
  by_cases hname : name' = name
  · rw [if_pos hname, hname]
    cases ha : w.get? name with
    | none => exact .none
    | some a => exact .some (hit hname a ha)
  · rw [if_neg hname]
    exact rel_refl (spare hname) _

/-- Whether all of a world is kept but the position of the acting entity and the health of those that
are hit, and every blow is reported. -/
structure Framed (agent : String) (blows : List (String × Float32)) (w w' : World) : Prop where
  entity (name : String) : Option.Rel (Entity.Kept (name = agent) (name ∈ blows.map (·.1)))
    (w.get? name) (w'.get? name)
  events : ∃ reports, w'.events = w.events ++ reports ∧
    List.Forall₂ (Event.Reports agent) blows reports

variable {agent : String} {blows blows' : List (String × Float32)} {w w' w'' : World}

theorem Framed.refl (w : World) : w.Framed agent [] w :=
  ⟨fun _ => rel_refl Entity.Kept.refl _, [], (List.append_nil _).symm, .nil⟩

theorem Framed.trans (h : w.Framed agent blows w') (h' : w'.Framed agent blows' w'') :
    w.Framed agent (blows ++ blows') w'' := by
  refine ⟨fun name => ?_, ?_⟩
  · simp only [List.map_append, List.mem_append]
    exact rel_trans (fun h h' => h.trans h') (h.entity name) (h'.entity name)
  · obtain ⟨reports, hevents, hreports⟩ := h.events
    obtain ⟨reports', hevents', hreports'⟩ := h'.events
    refine ⟨reports ++ reports', ?_, List.rel_append hreports hreports'⟩
    rw [hevents', hevents, List.append_assoc]

end World

namespace Surroundings

variable {agent : String} {o o' : Surroundings} {ds : List Deed}

theorem Step.framed (h : Step agent o ds o') :
    o.world.Framed agent (ds.filterMap Deed.blow?) o'.world := by
  cases h with
  | steer _ | write _ _ => exact .refl _
  | move position =>
    refine ⟨fun name => World.rel_update ?_ fun _ => .refl, [], (List.append_nil _).symm, .nil⟩
    intro hname a _
    exact Entity.kept_ofPosition hname a position
  | @strike target victim hvictim damage =>
    refine ⟨fun name => World.rel_update ?_ fun _ => .refl, _, rfl, .cons ⟨rfl, _, rfl⟩ .nil⟩
    intro hname a _
    exact Entity.kept_ofHealth (by simp [Deed.blow?, hname]) a _

theorem Course.framed (h : Course agent o ds o') :
    o.world.Framed agent (ds.filterMap Deed.blow?) o'.world := by
  induction h with
  | done o => exact .refl o.world
  | step first _ ih =>
    rw [List.filterMap_append]
    exact first.framed.trans ih

end Surroundings

namespace Executor

/-- The blows of one tick of a tree: those of the attacks that succeed, in order. -/
def blows (e : Executor) (i : Input) : List (String × Float32) :=
  (e.deeds i).filterMap Deed.blow?

/-- A tick of a tree keeps the world but for the position of the acting entity and the health of those
that an attack of the tick hits, and reports the attacks that succeed, each by one event. -/
theorem framed_execute (e : Executor) (i : Input) :
    i.scene.world.Framed i.agent (e.blows i) (e.execute i.agent i.dt i.scene).scene.world := by
  cases hroot : e.currentIndex.root with
  | none =>
    have hblows : e.blows i = [] := by
      rw [blows, deeds, visits, hroot]
      rfl
    rw [execute_of_rootless hroot, hblows]
    exact .refl _
  | some root => exact (e.course_execute i hroot).framed

end Executor

end BehaviorTree
