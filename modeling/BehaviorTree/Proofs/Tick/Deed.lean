import BehaviorTree.Proofs.Tick.Visit

/-!
# Deeds

What surrounds a tree changes in small steps only: the acting entity moves or publishes its velocity,
an attack strikes its target, a variable is set. The last two are deeds, told by the visits of nodes
that succeed in them, in the order of the visits.
-/

namespace BehaviorTree

/-- What an action does to others, or to what outlasts the tick. -/
inductive Deed where
  | strike (target : String) (damage : Float32)
  | write (key : String) (value : Json)
deriving DecidableEq

def Action.deeds (a : Action) (s : Settings) (status : Status) : List Deed :=
  match a, status with
  | attack, .success => [.strike (s.text "targetEntity") (s.number "damage")]
  | setBlackboard, .success =>
    if (s.text "key").isEmpty then [] else [.write (s.text "key") ((s.value? "value").getD .null)]
  | _, _ => []

namespace Surroundings

/-- One change by the acting entity, and what deed it is. -/
inductive Step (agent : String) (o : Surroundings) : List Deed → Surroundings → Prop where
  | steer (velocity : Vec2) : Step agent o []
      { o with
        blackboard := (o.blackboard.insert velocityX (.single velocity.x)).insert velocityY
          (.single velocity.y) }
  | move (position : Vec2) : Step agent o []
      { o with world := o.world.update agent (.ofPosition position) }
  | strike {target : String} {victim : Entity} (h : o.world.get? target = some victim)
      (damage : Float32) : Step agent o [.strike target damage]
      { o with
        world := (o.world.update target (.ofHealth (victim.health - damage))).emit "attack"
          (Action.attackReport agent target damage (victim.health - damage)) }
  | write {key : String} (h : key.isEmpty = false) (value : Json) : Step agent o [.write key value]
      { o with blackboard := o.blackboard.insert key value, saved := o.saved.insert key value }

/-- Any number of changes, with their deeds in order. -/
inductive Course (agent : String) : Surroundings → List Deed → Surroundings → Prop where
  | done (o : Surroundings) : Course agent o [] o
  | step {o o' o'' : Surroundings} {ds es : List Deed} (first : Step agent o ds o')
      (rest : Course agent o' es o'') : Course agent o (ds ++ es) o''

variable {agent : String} {o o' o'' : Surroundings} {ds es : List Deed}

theorem Step.course (h : Step agent o ds o') : Course agent o ds o' := by
  have hcourse := Course.step h (.done o')
  rwa [List.append_nil] at hcourse

theorem Course.append (h : Course agent o ds o') (h' : Course agent o' es o'') :
    Course agent o (ds ++ es) o'' := by
  induction h with
  | done o => exact h'
  | step first _ ih =>
    rw [List.append_assoc]
    exact .step first (ih h')

theorem Course.of_eq (h : o' = o) : Course agent o [] o' := by
  rw [h]
  exact .done o

end Surroundings

open Surroundings

section

variable {m : Moment} {s : Settings}

private theorem course_stepToward (start goal : Vec2) (speed : Float32) (f : Frame) :
    Course m.agent f.surroundings [] (Action.stepToward m start goal speed f).surroundings := by
  rw [Action.stepToward]
  dsimp only
  split
  · exact .done _
  · exact .step (.move _) (.step (.steer _) (.done _))

private theorem course_strike (me : Entity) (f : Frame) :
    Course m.agent f.surroundings (Action.attack.deeds s (Action.strike m s me f).1)
      (Action.strike m s me f).2.surroundings := by
  rw [Action.strike]
  dsimp only
  split
  · exact .done _
  · split
    · exact .done _
    · rename_i victim hvictim
      split
      · exact .done _
      · exact (Step.strike (o := f.surroundings) hvictim (s.number "damage")).course

private theorem course_fleeFrom (me : Entity) (f : Frame) :
    Course m.agent f.surroundings [] (Action.fleeFrom m s me f).2.surroundings := by
  rw [Action.fleeFrom]
  split
  · exact .done _
  · dsimp only
    split
    · exact .step (.steer _) (.done _)
    · exact .step (.move _) (.step (.steer _) (.done _))

private theorem course_walkRoute (me : Entity) (f : Frame) :
    Course m.agent f.surroundings [] (Action.walkRoute m s me f).2.surroundings := by
  rw [Action.walkRoute]
  dsimp only
  split
  · exact .done _
  · rename_i route _
    generalize hg : f.updateMemory s.node.id (fun memory =>
      { memory with waypointIndex := (f.memory s.node.id).waypointIndex % route.length }) = g
    have hf : f.surroundings = g.surroundings := by
      rw [← hg]
      rfl
    rw [hf]
    split
    · exact .step (.steer _) (.done _)
    · split
      · exact .done _
      · split
        · exact .step (.steer _) (.done _)
        · exact course_stepToward _ _ _ _

private theorem course_pause (f : Frame) :
    Course m.agent f.surroundings [] (Action.pause m s f).2.surroundings := by
  rw [Action.pause]
  split
  · exact .done _
  · exact .done _

private theorem course_setVariables (f : Frame) :
    Course m.agent f.surroundings (Action.setBlackboard.deeds s (Action.setVariables s f).1)
      (Action.setVariables s f).2.surroundings := by
  rw [Action.setVariables]
  dsimp only
  split
  · rename_i hempty
    simp only [Action.deeds, if_pos hempty]
    exact .done _
  · rename_i hkey
    rw [Bool.not_eq_true] at hkey
    simp only [Action.deeds, hkey]
    exact (Step.write (o := f.surroundings) hkey _).course

theorem course_action (a : Action) (me : Entity) (f : Frame) :
    Course m.agent f.surroundings (a.deeds s (a.run m s me f).1) (a.run m s me f).2.surroundings := by
  cases a with
  | move =>
    rw [Action.run, Action.moveTo]
    split
    · exact .done _
    · exact course_stepToward _ _ _ _
  | attack => exact course_strike me f
  | flee => exact course_fleeFrom me f
  | patrol => exact course_walkRoute me f
  | idle => exact .step (.steer .zero) (course_pause (f.setVelocity .zero))
  | wait => exact course_pause f
  | log => exact .done _
  | setBlackboard => exact course_setVariables f

end

namespace Index

variable {ix : Index} {m : Moment}

def deeds (ix : Index) (v : Visit ix.size) : List Deed :=
  match (ix.slot v.node).definition with
  | none => []
  | some d =>
    match d.kind with
    | .action a => a.deeds ⟨(ix.slot v.node).node, d⟩ v.status
    | _ => []

private theorem deeds_of_definition {v : Visit ix.size} {d : Definition} {a : Action}
    (hd : (ix.slot v.node).definition = some d) (ha : d.kind = .action a) :
    ix.deeds v = a.deeds ⟨(ix.slot v.node).node, d⟩ v.status := by
  rw [deeds, hd]
  dsimp only
  rw [ha]

private theorem deeds_of_inward {v : Visit ix.size}
    (h : ∀ d a, (ix.slot v.node).definition = some d → d.kind ≠ .action a) : ix.deeds v = [] := by
  rw [deeds]
  split
  · rfl
  · rename_i d hd
    split
    · rename_i a ha
      exact absurd ha (h d a hd)
    · rfl

private theorem course_visit {p : Fin ix.size} {d : Definition} {a : Action}
    (hd : (ix.slot p).definition = some d) (ha : d.kind = .action a) (room : Nat) (f : Frame) :
    let v := ix.visit m room p f
    Course m.agent f.surroundings (ix.deeds v) v.after.surroundings := by
  intro v
  rw [deeds_of_definition (v := v) hd ha]
  obtain ⟨hfails, hacts⟩ := surroundings_visit (m := m) hd ha room f
  cases hme : f.world.get? m.agent with
  | none =>
    obtain ⟨hstatus, hafter⟩ := hfails hme
    have hnone : ∀ s, a.deeds s .failure = [] := fun s => by cases a <;> rfl
    rw [hstatus, hnone]
    exact .of_eq hafter
  | some me =>
    obtain ⟨hstatus, hafter⟩ := hacts me hme
    rw [hstatus, hafter]
    exact course_action a me (ix.enter m room p f)

/-- A tick takes a course with the deeds of its visits. -/
theorem course_tick (ix : Index) (m : Moment) (room : Nat) (p : Fin ix.size) (f : Frame) :
    Course m.agent f.surroundings ((ix.visits m room p f).flatMap ix.deeds)
      (tick ix m room p f).2.surroundings :=
  surroundings_tell .done .append (fun hd ha => course_visit hd ha) (fun _ => deeds_of_inward) room p f

end Index

namespace Executor

def deeds (e : Executor) (i : Input) : List Deed :=
  (e.visits e.currentIndex i).flatMap e.currentIndex.deeds

theorem course_execute (e : Executor) (i : Input) {root : Fin e.currentIndex.size}
    (h : e.currentIndex.root = some root) :
    let done := e.execute i.agent i.dt i.scene
    Course i.agent
      ⟨i.scene.world, i.scene.blackboard.mergeMissing e.tree.blackboard, e.tree.blackboard⟩
      (e.deeds i) ⟨done.scene.world, done.scene.blackboard, done.executor.tree.blackboard⟩ := by
  rw [execute_of_root h, deeds, visits, h]
  exact Index.course_tick e.currentIndex ⟨i.agent, clampStep i.dt⟩ (e.currentIndex.size + 1) root
    (e.start i.scene)

end Executor

end BehaviorTree
