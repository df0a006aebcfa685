import BehaviorTree.Proofs.Tick.Clock

/-!
# Patrols

A patrol goes round its waypoints one by one. It begins to wait at a waypoint when its actor is there,
stands still while it waits, and goes on to the next one when the time is over: that is the sum of the
time steps on which the actor was in the world since waiting began.
-/

namespace BehaviorTree

section

variable {n : Nat}

def attended (x : Moment × Visit n) : Bool := (x.2.before.world.get? x.1.agent).isSome

/-- The last ticks of a patrol, as far as it was waiting before them. -/
def sinceArrival (id : String) (past : List (Moment × Visit n)) : List (Moment × Visit n) :=
  past.rtakeWhile fun x => (x.2.before.memory id).waiting

def waited (id : String) (past : List (Moment × Visit n)) : Float32 :=
  seconds ((sinceArrival id past).filter attended)

/-- Whether a patrol waits at a waypoint since a tick in the past in which it began to. -/
def Arrived (id : String) (index : Nat) (past : List (Moment × Visit n)) : Prop :=
  ∃ first x, past = first ++ x :: sinceArrival id past ∧
    ((x.2.before.memory id).waiting = false ∧ (x.2.after.memory id).waiting ∧
      (x.2.after.memory id).waypointIndex = index) ∧
    ∀ y ∈ sinceArrival id past, (y.2.before.memory id).waypointIndex = index

theorem sinceArrival_concat (id : String) (past : List (Moment × Visit n))
    (x : Moment × Visit n) : sinceArrival id (past ++ [x]) =
      if (x.2.before.memory id).waiting then sinceArrival id past ++ [x] else [] := by
  simp [sinceArrival, List.rtakeWhile_concat]

theorem waited_concat {id : String} {past : List (Moment × Visit n)} {x : Moment × Visit n}
    (hwaiting : (x.2.before.memory id).waiting) :
    waited id (past ++ [x]) = if attended x then waited id past + x.1.delta else waited id past := by
  rw [waited, sinceArrival_concat, if_pos hwaiting, List.filter_append]
  by_cases hx : attended x
  · rw [List.filter_cons_of_pos hx, if_pos hx, List.filter_nil, seconds_concat]
    rfl
  · rw [List.filter_cons_of_neg hx, if_neg hx, List.filter_nil, List.append_nil]
    rfl

theorem waited_of_arrival {id : String} {past : List (Moment × Visit n)} {x : Moment × Visit n}
    (hwaiting : (x.2.before.memory id).waiting = false) : waited id (past ++ [x]) = 0 := by
  rw [waited, sinceArrival_concat, if_neg (by simp [hwaiting])]
  rfl

end

namespace Visit

variable {n : Nat}

/-- Whether a tick leaves the world as it is and sets the velocity to zero. -/
structure Halts (v : Visit n) : Prop where
  world : v.after.world = v.before.world
  blackboard : v.after.blackboard =
    (v.before.blackboard.insert velocityX (.single 0)).insert velocityY (.single 0)

/-- What a tick of a patrol comes to, with no regard to the ticks before. -/
inductive Patrols (id : String) (m : Moment) (s : Settings) (route : List Vec2) (v : Visit n) :
    Prop where
  | absent (actor : v.before.world.get? m.agent = none) (status : v.status = .failure)
      (memory : v.after.memory id = v.before.memory id)
      (surroundings : v.after.surroundings = v.before.surroundings)
  | lingers (actor : (v.before.world.get? m.agent).isSome) (status : v.status = .running)
      (waiting : (v.before.memory id).waiting)
      (early : ¬ s.number "waitTime" ≤ (v.before.memory id).waitElapsed + m.delta)
      (memory : v.after.memory id =
        { v.before.memory id with waitElapsed := (v.before.memory id).waitElapsed + m.delta })
      (halts : v.Halts)
  | leaves (actor : (v.before.world.get? m.agent).isSome) (status : v.status = .running)
      (waiting : (v.before.memory id).waiting)
      (due : s.number "waitTime" ≤ (v.before.memory id).waitElapsed + m.delta)
      (memory : v.after.memory id =
        { v.before.memory id with
          waiting := false, waitElapsed := 0
          waypointIndex := ((v.before.memory id).waypointIndex + 1) % route.length })
      (halts : v.Halts)
  | arrives {me : Entity} {target : Vec2} (actor : v.before.world.get? m.agent = some me)
      (status : v.status = .running) (walking : (v.before.memory id).waiting = false)
      (waypoint : route[(v.before.memory id).waypointIndex]? = some target)
      (near : me.position.distance target ≤ s.number "arrivalThreshold")
      (memory : v.after.memory id =
        { v.before.memory id with waiting := true, waitElapsed := 0 }) (halts : v.Halts)
  | walks (actor : (v.before.world.get? m.agent).isSome) (status : v.status = .running)
      (walking : (v.before.memory id).waiting = false)
      (memory : v.after.memory id = v.before.memory id)

/-- Whether a tick of a patrol goes by its route, where the seconds of waiting come to a total. -/
structure KeepsRoute (id : String) (m : Moment) (s : Settings) (route : List Vec2) (total : Float32)
    (v : Visit n) : Prop where
  status : v.status = if (v.before.world.get? m.agent).isSome then .running else .failure
  absent : v.before.world.get? m.agent = none → v.after.memory id = v.before.memory id
  advances : (v.after.memory id).waypointIndex ≠ (v.before.memory id).waypointIndex →
    (v.after.memory id).waypointIndex = ((v.before.memory id).waypointIndex + 1) % route.length ∧
      (v.before.memory id).waiting ∧ (v.before.world.get? m.agent).isSome ∧
      s.number "waitTime" ≤ total
  leaves : (v.before.memory id).waiting →
    ((v.after.memory id).waiting = false ↔
      (v.before.world.get? m.agent).isSome ∧ s.number "waitTime" ≤ total) ∧
    ((v.after.memory id).waiting = false →
      (v.after.memory id).waypointIndex = ((v.before.memory id).waypointIndex + 1) % route.length)
  arrives : (v.before.memory id).waiting = false → (v.after.memory id).waiting →
    ∃ me target, v.before.world.get? m.agent = some me ∧
      route[(v.before.memory id).waypointIndex]? = some target ∧
      me.position.distance target ≤ s.number "arrivalThreshold"
  stands : (v.before.memory id).waiting ∨ (v.after.memory id).waiting →
    v.after.world = v.before.world ∧
      ((v.before.world.get? m.agent).isSome → v.after.blackboard =
        (v.before.blackboard.insert velocityX (.single 0)).insert velocityY (.single 0))

end Visit

theorem Waypoint.length_pos_of_route? {text : String} {route : List Vec2}
    (h : route? text = some route) : 0 < route.length := by
  obtain ⟨-, hsome⟩ := Option.filter_eq_some_iff.mp h
  rw [List.length_pos_iff]
  rintro rfl
  cases hsome

namespace Action

variable {m : Moment} {s : Settings} {me : Entity} {f : Frame} {route : List Vec2}

private theorem memory_stepToward (m : Moment) (start goal : Vec2) (speed : Float32) (f : Frame)
    (id : String) : (stepToward m start goal speed f).memory id = f.memory id := by
  rw [stepToward]
  dsimp only
  split <;> rfl

private theorem walkRoute_cases (hroute : Waypoint.route? (s.text "waypoints") = some route)
    {memory : Memory} (hmemory : f.memory s.node.id = memory)
    (hindex : memory.waypointIndex < route.length) (m : Moment) (me : Entity) :
    ∃ g, walkRoute m s me f = (.running, g) ∧
      ((memory.waiting ∧
          g.memory s.node.id = lingering m.delta (s.number "waitTime") route.length memory ∧
          g.surroundings = (f.setVelocity .zero).surroundings) ∨
        (∃ target, memory.waiting = false ∧ route[memory.waypointIndex]? = some target ∧
          me.position.distance target ≤ s.number "arrivalThreshold" ∧
          g.memory s.node.id = { memory with waiting := true, waitElapsed := 0 } ∧
          g.surroundings = (f.setVelocity .zero).surroundings) ∨
        (memory.waiting = false ∧ g.memory s.node.id = memory)) := by
  subst hmemory
  let f' := f.updateMemory s.node.id fun memory =>
    { memory with waypointIndex := (f.memory s.node.id).waypointIndex }
  have hsame : f'.memory s.node.id = f.memory s.node.id := Frame.memory_updateMemory_self f _ _
  have hstop : ∀ change, ((f'.updateMemory s.node.id change).setVelocity .zero).memory s.node.id =
      change (f.memory s.node.id) := by
    intro change
    rw [← hsame]
    exact Frame.memory_updateMemory_self f' _ change
  obtain ⟨target, htarget⟩ : ∃ target, route[(f.memory s.node.id).waypointIndex]? = some target :=
    ⟨_, List.getElem?_eq_getElem hindex⟩
  rw [walkRoute, hroute]
  dsimp only
  rw [Nat.mod_eq_of_lt hindex]
  change ∃ g, (if (f'.memory s.node.id).waiting then _ else _) = _ ∧ _
  rw [hsame, htarget]
  by_cases hwaiting : (f.memory s.node.id).waiting
  · rw [if_pos hwaiting]
    exact ⟨_, rfl, .inl ⟨hwaiting, hstop _, rfl⟩⟩
  rw [if_neg hwaiting]
  have hwalking : (f.memory s.node.id).waiting = false := by simpa using hwaiting
  dsimp only
  split
  · rename_i hnear
    exact ⟨_, rfl, .inr (.inl ⟨target, hwalking, rfl, hnear, hstop _, rfl⟩)⟩
  · refine ⟨_, rfl, .inr (.inr ⟨hwalking, ?_⟩)⟩
    rw [memory_stepToward]
    exact hsame

end Action

namespace Index

variable {ix : Index} {p : Fin ix.size} {d : Definition} {m : Moment} {route : List Vec2}

/-- A tick of a patrol whose position is a waypoint. -/
theorem patrols_visit (hd : (ix.slot p).definition = some d) (hkind : d.kind = .action .patrol)
    (hroute : Waypoint.route? ((⟨(ix.slot p).node, d⟩ : Settings).text "waypoints") = some route)
    (room : Nat) {f : Frame} (hindex : (f.memory (ix.name p)).waypointIndex < route.length) :
    (ix.visit m room p f).Patrols (ix.name p) m ⟨(ix.slot p).node, d⟩ route := by
  obtain ⟨habsent, hpresent⟩ := script_of_action hd hkind m (ix.enter m room p f)
  cases hme : f.world.get? m.agent with
  | none =>
    obtain ⟨hstatus, hsurroundings, hmemory⟩ := visit_of_idle (habsent hme)
    exact .absent hme hstatus hmemory hsurroundings
  | some me =>
    have hscript := hpresent me hme
    have hactor : (f.world.get? m.agent).isSome := by rw [hme, Option.isSome_some]
    rw [Action.run] at hscript
    obtain ⟨g, heq, hcases⟩ :=
      Action.walkRoute_cases hroute (memory_enter m room p f) hindex m me
    rw [heq] at hscript
    obtain ⟨hstatus, -, hmemory⟩ := visit_of_finish hscript
    have hsurroundings : (ix.visit m room p f).after.surroundings = g.surroundings := by
      rw [after_of_finish hscript]
      rfl
    have hhalts : g.surroundings = ((ix.enter m room p f).setVelocity .zero).surroundings →
        (ix.visit m room p f).Halts := by
      intro hg
      rw [hg] at hsurroundings
      exact ⟨congrArg (·.world) hsurroundings, congrArg (·.blackboard) hsurroundings⟩
    rcases hcases with ⟨hwaiting, hg, hstop⟩ | ⟨target, hwalking, htarget, hnear, hg, hstop⟩ |
      ⟨hwalking, hg⟩
    · have hlinger := hmemory.trans hg
      rw [Action.lingering] at hlinger
      by_cases hover :
          (⟨(ix.slot p).node, d⟩ : Settings).number "waitTime" ≤
            (f.memory (ix.name p)).waitElapsed + m.delta
      · rw [if_pos hover] at hlinger
        exact .leaves hactor hstatus hwaiting hover hlinger (hhalts hstop)
      · rw [if_neg hover] at hlinger
        exact .lingers hactor hstatus hwaiting hover hlinger (hhalts hstop)
    · exact .arrives hme hstatus hwalking htarget hnear (hmemory.trans hg) (hhalts hstop)
    · exact .walks hactor hstatus hwalking (hmemory.trans hg)

end Index

section

variable {n : Nat} {id : String} {count : Nat} {past : List (Moment × Visit n)}

/-- Whether a patrol remembers where it stands after some ticks. -/
structure Remembers (id : String) (count : Nat) (past : List (Moment × Visit n)) (memory : Memory) :
    Prop where
  index_lt : memory.waypointIndex < count
  rested : memory.waiting = false → memory.waitElapsed = 0
  waited : memory.waiting → memory.waitElapsed = waited id past
  arrived : memory.waiting → Arrived id memory.waypointIndex past

theorem remembers_nil (hcount : 0 < count) :
    Remembers id count ([] : List (Moment × Visit n)) .initial where
  index_lt := hcount
  rested _ := rfl
  waited h := absurd h (by decide)
  arrived h := absurd h (by decide)

theorem arrived_concat {index : Nat} {x : Moment × Visit n}
    (hwalking : (x.2.before.memory id).waiting = false) (hwaiting : (x.2.after.memory id).waiting)
    (hindex : (x.2.after.memory id).waypointIndex = index) : Arrived id index (past ++ [x]) := by
  rw [Arrived, sinceArrival_concat, if_neg (by simp [hwalking])]
  exact ⟨past, x, rfl, ⟨hwalking, hwaiting, hindex⟩, by simp⟩

theorem Arrived.concat {index : Nat} {x : Moment × Visit n} (h : Arrived id index past)
    (hwaiting : (x.2.before.memory id).waiting)
    (hindex : (x.2.before.memory id).waypointIndex = index) : Arrived id index (past ++ [x]) := by
  obtain ⟨first, y, hpast, hbegan, hsame⟩ := h
  rw [Arrived, sinceArrival_concat, if_pos hwaiting]
  refine ⟨first, y, ?_, hbegan, fun z hz => ?_⟩
  · nth_rewrite 1 [hpast]
    simp
  · rcases List.mem_append.mp hz with hz | hz
    · exact hsame z hz
    · rw [List.mem_singleton.mp hz]
      exact hindex

variable {m : Moment} {s : Settings} {route : List Vec2} {v : Visit n}

theorem Remembers.waited_of_attended (h : Remembers id count past (v.before.memory id))
    (hactor : (v.before.world.get? m.agent).isSome) (hwaiting : (v.before.memory id).waiting) :
    BehaviorTree.waited id (past ++ [(m, v)]) = (v.before.memory id).waitElapsed + m.delta := by
  rw [waited_concat hwaiting, h.waited hwaiting, if_pos]
  exact hactor

theorem Remembers.waited_of_absent (h : Remembers id count past (v.before.memory id))
    (hactor : v.before.world.get? m.agent = none) (hwaiting : (v.before.memory id).waiting) :
    BehaviorTree.waited id (past ++ [(m, v)]) = (v.before.memory id).waitElapsed := by
  rw [waited_concat hwaiting, h.waited hwaiting, if_neg]
  simp [attended, hactor]

theorem Remembers.concat (h : Remembers id route.length past (v.before.memory id))
    (hv : v.Patrols id m s route) :
    Remembers id route.length (past ++ [(m, v)]) (v.after.memory id) := by
  have hidle : v.after.memory id = v.before.memory id →
      ((v.before.memory id).waiting → v.before.world.get? m.agent = none) →
        Remembers id route.length (past ++ [(m, v)]) (v.after.memory id) := by
    intro hmemory habsent
    rw [hmemory]
    refine ⟨h.index_lt, h.rested, fun hwaiting => ?_, fun hwaiting => ?_⟩
    · exact (h.waited_of_absent (habsent hwaiting) hwaiting).symm
    · exact (h.arrived hwaiting).concat hwaiting rfl
  cases hv with
  | absent hactor _ hmemory => exact hidle hmemory fun _ => hactor
  | lingers hactor _ hwaiting _ hmemory =>
    rw [hmemory]
    refine ⟨h.index_lt, fun hrested => ?_, fun _ => ?_, fun _ => ?_⟩
    · exact absurd hrested (by simp [hwaiting])
    · exact (h.waited_of_attended hactor hwaiting).symm
    · exact (h.arrived hwaiting).concat hwaiting rfl
  | leaves _ _ _ _ hmemory =>
    rw [hmemory]
    exact ⟨Nat.mod_lt _ (Nat.zero_lt_of_lt h.index_lt), fun _ => rfl, by simp, by simp⟩
  | arrives hactor _ hwalking hwaypoint _ hmemory =>
    have hafter := hmemory
    rw [hmemory]
    refine ⟨h.index_lt, by simp, fun _ => ?_, fun _ => ?_⟩
    · exact (waited_of_arrival hwalking).symm
    · exact arrived_concat hwalking (by rw [hafter]) (by rw [hafter])
  | walks _ _ hwalking hmemory => exact hidle hmemory fun hw => absurd hw (by simp [hwalking])

/-- A tick of a patrol that remembers where it stands goes by its route. -/
theorem Remembers.keepsRoute (h : Remembers id route.length past (v.before.memory id))
    (hv : v.Patrols id m s route) :
    v.KeepsRoute id m s route (BehaviorTree.waited id (past ++ [(m, v)])) := by
  cases hv with
  | absent hactor hstatus hmemory hsurroundings =>
    refine ⟨by simp [hstatus, hactor], fun _ => hmemory, ?_, fun hwaiting => ?_, ?_, fun _ => ?_⟩
    · simp [hmemory]
    · simp [hmemory, hactor, hwaiting]
    · intro hwalking hwaiting
      rw [hmemory, hwalking] at hwaiting
      cases hwaiting
    · refine ⟨congrArg (·.world) hsurroundings, ?_⟩
      simp [hactor]
  | lingers hactor hstatus hwaiting hearly hmemory hhalts =>
    rw [h.waited_of_attended hactor hwaiting]
    refine ⟨by rw [hstatus, if_pos hactor], ?_, ?_, fun _ => ?_, ?_, fun _ => ?_⟩
    · intro hnone
      simp [hnone] at hactor
    · simp [hmemory]
    · simp [hmemory, hwaiting, hearly]
    · simp [hwaiting]
    · exact ⟨hhalts.world, fun _ => hhalts.blackboard⟩
  | leaves hactor hstatus hwaiting hdue hmemory hhalts =>
    rw [h.waited_of_attended hactor hwaiting]
    refine ⟨by rw [hstatus, if_pos hactor], ?_, fun _ => ?_, fun _ => ?_, ?_, fun _ => ?_⟩
    · intro hnone
      simp [hnone] at hactor
    · simp [hmemory, hwaiting, hactor, hdue]
    · simp [hmemory, hactor, hdue]
    · simp [hwaiting]
    · exact ⟨hhalts.world, fun _ => hhalts.blackboard⟩
  | @arrives me target hactor hstatus hwalking hwaypoint hnear hmemory hhalts =>
    refine ⟨by simp [hstatus, hactor], ?_, ?_, ?_, fun _ _ => ?_, fun _ => ?_⟩
    · simp [hactor]
    · simp [hmemory]
    · simp [hwalking]
    · exact ⟨me, target, hactor, hwaypoint, hnear⟩
    · exact ⟨hhalts.world, fun _ => hhalts.blackboard⟩
  | walks hactor hstatus hwalking hmemory =>
    refine ⟨by rw [hstatus, if_pos hactor], fun _ => hmemory, ?_, ?_, ?_, ?_⟩
    · simp [hmemory]
    · simp [hwalking]
    · simp [hmemory, hwalking]
    · simp [hmemory, hwalking]

end

namespace Executor

/-- In a run that starts without states, a patrol is running with its actor in the world, and else fails
and remembers what it did. It goes on from a waypoint to the next one at the end of a wait, which the time
steps since its arrival tell, begins to wait where its actor is near the waypoint, and stands still while
it waits. -/
theorem keepsRoute_of_patrol {t : Tree} (hfree : (Index.build t).CycleFree) (g : Generator)
    (inputs : List Input) {p : Fin (Index.build t).size} {d : Definition}
    (hd : ((Index.build t).slot p).definition = some d) (hkind : d.kind = .action .patrol)
    {route : List Vec2} (hroute : Waypoint.route?
      ((⟨((Index.build t).slot p).node, d⟩ : Settings).text "waypoints") = some route)
    {i : Nat} {m : Moment} {v : Visit (Index.build t).size}
    (h : (chronicleOf (.build t) (ofGenerator t g) inputs p)[i]? = some (m, v)) :
    let id := (Index.build t).name p
    let past := (chronicleOf (.build t) (ofGenerator t g) inputs p).take i
    Remembers id route.length past (v.before.memory id) ∧
      Remembers id route.length (past ++ [(m, v)]) (v.after.memory id) ∧
      v.KeepsRoute id m ⟨((Index.build t).slot p).node, d⟩ route (waited id (past ++ [(m, v)])) := by
  intro id past
  refine chronicle_law hfree
    (P := fun past s => Remembers id route.length past s.memory)
    (Q := fun past m v => Remembers id route.length (past ++ [(m, v)]) (v.after.memory id) ∧
      v.KeepsRoute id m ⟨((Index.build t).slot p).node, d⟩ route
        (waited id (past ++ [(m, v)]))) ?_ ?_ h
  · exact remembers_nil (Waypoint.length_pos_of_route? hroute)
  · intro past m room f hf v
    have hv := Index.patrols_visit hd hkind hroute room hf.index_lt (m := m)
    have hnext := hf.concat (v := v) hv
    exact ⟨⟨hnext, hf.keepsRoute (v := v) hv⟩, hnext⟩

/-- A patrol that waits a second at each of two waypoints, ticked every half of one with its actor at the
first: it goes on in its third tick. -/
theorem keepsRoute_of_patrol_turning :
    let nodes : List Node :=
      [⟨"root", "patrol", .ofList [("waypoints", .string "0,0; 3,4"), ("waitTime", .integer 1)]⟩]
    let t : Tree := { Tree.single "patrol" [] with nodes := nodes }
    let i : Input := ⟨"actor", 0.5, World.empty.insert (.create "actor" ⟨0, 0⟩), ∅⟩
    let p : Fin (Index.build t).size := ⟨0, by decide⟩
    let ticks := chronicleOf (.build t) (ofGenerator t ⟨0⟩) [i, i, i] p
    ticks.map (·.2.status) = [.running, .running, .running] ∧
      ∃ m v s, ticks[2]? = some (m, v) ∧ waited "root" (ticks.take 2 ++ [(m, v)]) = 1 ∧
        v.KeepsRoute "root" m s [⟨0, 0⟩, ⟨3, 4⟩] 1 ∧ (v.before.memory "root").waitElapsed = 0.5 ∧
        (v.after.memory "root").waypointIndex = 1 := by
  intro nodes t i p ticks
  have hvalid : t.fault? = none := by decide +kernel
  have hfree := Index.cycleFree_of_acyclic (Tree.fault?_eq_none_iff.mp hvalid).acyclic
  obtain ⟨d, hd⟩ : ∃ d, ((Index.build t).slot p).definition = some d := ⟨_, rfl⟩
  have hkind : d.kind = .action .patrol := by
    cases hd
    rfl
  have hroute : Waypoint.route? ((⟨((Index.build t).slot p).node, d⟩ : Settings).text "waypoints") =
      some [⟨0, 0⟩, ⟨3, 4⟩] := by
    cases hd
    decide +kernel
  have hsome : (ticks[2]?).isSome := by decide +kernel
  obtain ⟨⟨m, v⟩, hthird⟩ := Option.isSome_iff_exists.mp hsome
  have hnow : (ticks[2]?).map (fun x => (waited "root" (ticks.take 2 ++ [x]),
      (x.2.before.memory "root").waitElapsed, (x.2.after.memory "root").waypointIndex)) =
        some (1, 0.5, 1) := by decide +kernel
  rw [hthird, Option.map_some, Option.some.injEq, Prod.mk.injEq, Prod.mk.injEq] at hnow
  obtain ⟨htotal, helapsed, hindex⟩ := hnow
  obtain ⟨-, -, hkeeps⟩ :=
    keepsRoute_of_patrol hfree ⟨0⟩ [i, i, i] hd hkind hroute hthird
  change v.KeepsRoute "root" m _ _ (waited "root" (ticks.take 2 ++ [(m, v)])) at hkeeps
  rw [htotal] at hkeeps
  exact ⟨by decide +kernel, m, v, _, hthird, htotal, hkeeps, helapsed, hindex⟩

/-- A waiting patrol whose actor is not in the world sets no velocity. -/
theorem waiting_patrol_absent :
    let nodes : List Node := [⟨"root", "patrol", .ofList [("waypoints", .string "0,0")]⟩]
    let t : Tree := { Tree.single "patrol" [] with nodes := nodes }
    let p : Fin (Index.build t).size := ⟨0, by decide⟩
    let ticks := chronicleOf (.build t) (ofGenerator t ⟨0⟩)
      [⟨"actor", 0.5, World.empty.insert (.create "actor" ⟨0, 0⟩), ∅⟩, ⟨"actor", 0.5, ∅, ∅⟩] p
    t.fault? = none ∧ Waypoint.route? "0,0" = some [⟨0, 0⟩] ∧
      ticks.map (fun x => (x.2.status, (x.2.before.memory "root").waiting)) =
        [(.running, false), (.failure, true)] ∧
      ticks.map (fun x => x.2.after.blackboard.get? velocityX) = [some (.single 0), none] := by
  decide +kernel

end Executor

end BehaviorTree
