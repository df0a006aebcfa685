import BehaviorTree.Proofs.Tick.Clock

/-!
# Cooldowns

A cooldown ticks its child as soon as its duration has gone by since the child last ended a run under it,
by its own running time. Until then it does nothing but count.
-/

namespace BehaviorTree

/-- Whether a frame comes of another one by the state of one node, apart from the journal. -/
structure Frame.Records (id : String) (state : NodeState) (f g : Frame) : Prop where
  surroundings : g.surroundings = f.surroundings
  generator : g.generator = f.generator
  entries : ∀ id', g.store.get? id' = if id' = id then some state else f.store.get? id'

namespace Visit

variable {n : Nat}

def completes (v : Visit n) : Bool := v.results.any (·.2.isDone)

/-- Whether a tick at a running time fails with nothing else to show for it before a duration has gone by
since a last time, and from then on ticks a child once and returns its result. -/
structure Gated (id : String) (child : Fin n) (duration last now : Float32) (v : Visit n) : Prop where
  closed : now - last < duration →
    v.results = [] ∧ v.status = .failure ∧
      v.before.Records id { v.before.state id with status := .failure, runningTime := now } v.after
  opened : ¬ now - last < duration → v.results = [(child, v.status)]

theorem Gated.of_completes {id : String} {child : Fin n} {duration last now : Float32} {v : Visit n}
    (h : v.Gated id child duration last now) (hv : v.completes) : ¬ now - last < duration := by
  intro hclosed
  rw [completes, (h.closed hclosed).1] at hv
  cases hv

end Visit

private def Decorator.stamped (id : String) (status : Status) (f : Frame) : Status × Frame :=
  (status, f.updateState id fun state =>
    { state with memory := { state.memory with lastExecutionTime := state.runningTime } })

private theorem Decorator.memory_stamped (id : String) (status : Status) (f : Frame) :
    ((stamped id status f).2.memory id).lastExecutionTime = (f.state id).runningTime :=
  congrArg (·.memory.lastExecutionTime) (Frame.state_updateState_self f id _)

namespace Index

variable {ix : Index} {p : Fin ix.size} {d : Definition} {child : Fin ix.size} {m : Moment}

private theorem script_of_cooldown (hd : (ix.slot p).definition = some d)
    (hkind : d.kind = .decorator .cooldown) (hchild : (ix.slot p).children.head? = some child)
    {f : Frame} {last now : Float32} (hlast : (f.memory (ix.name p)).lastExecutionTime = last)
    (hnow : (f.state (ix.name p)).runningTime = now) :
    ix.script m p f =
      if now - last < (⟨(ix.slot p).node, d⟩ : Settings).number "duration" then .finish .failure f
      else Decorator.afterRun child f (Decorator.stamped (ix.name p)) := by
  subst hlast hnow
  rw [script_of_decorator hd hkind]
  simp only [Decorator.script, hchild]
  rfl

theorem records_visit {room : Nat} {f : Frame}
    (h : ix.script m p (ix.enter m room p f) = .finish .failure (ix.enter m room p f)) :
    f.Records (ix.name p) { f.state (ix.name p) with
      status := .failure, runningTime := (f.state (ix.name p)).runningTime + m.delta }
      (ix.visit m room p f).after := by
  rw [after_of_finish h]
  refine ⟨rfl, rfl, fun id => ?_⟩
  by_cases hid : id = ix.name p
  · rw [if_pos hid, hid]
    simp [leave, enter, Frame.note, Frame.updateState, Store.get?_update, Store.state_update,
      Frame.state]
  · rw [if_neg hid, get?_leave_of_ne _ hid, get?_enter_of_ne m room f hid]

/-- A cooldown is gated by the last time that it remembers, and then remembers the running time if its
child has ended a run. -/
theorem gated_visit (hd : (ix.slot p).definition = some d) (hkind : d.kind = .decorator .cooldown)
    (hchild : (ix.slot p).children.head? = some child)
    (havoids : ix.Avoids child (ix.name p)) (room : Nat) {f : Frame} {last now : Float32}
    (hlast : (f.memory (ix.name p)).lastExecutionTime = last)
    (hnow : (f.state (ix.name p)).runningTime + m.delta = now) :
    let v := ix.visit m room p f
    v.Gated (ix.name p) child ((⟨(ix.slot p).node, d⟩ : Settings).number "duration") last now ∧
      (v.after.memory (ix.name p)).lastExecutionTime = if v.completes then now else last := by
  intro v
  have hlast' := hlast
  have hnow' := hnow
  rw [← memory_enter m room p f] at hlast'
  rw [← runningTime_enter m room p f] at hnow'
  have hscript := script_of_cooldown hd hkind hchild hlast' hnow' (m := m)
  by_cases hclosed : now - last < (⟨(ix.slot p).node, d⟩ : Settings).number "duration"
  · rw [if_pos hclosed] at hscript
    obtain ⟨hstatus, hresults, hmemory⟩ := visit_of_finish hscript
    have hrecords := records_visit hscript
    rw [hnow] at hrecords
    refine ⟨⟨fun _ => ⟨hresults, hstatus, hrecords⟩, fun hopened => absurd hclosed hopened⟩, ?_⟩
    rw [hmemory, hlast', Visit.completes, hresults]
    rfl
  · rw [if_neg hclosed] at hscript
    obtain ⟨result, g, ⟨hresults, hrest⟩, hkeep⟩ := visit_of_afterRun havoids hscript
    have hcompletes : v.completes = result.isDone := by
      rw [Visit.completes, hresults]
      exact Bool.or_false _
    rw [hcompletes]
    split at hrest
    · rename_i hrunning
      subst hrunning
      refine ⟨⟨fun h => absurd h hclosed, fun _ => by rw [hresults, hrest.1]⟩, ?_⟩
      rw [hrest.2, Frame.memory, hkeep]
      exact hlast'
    · rename_i hended
      refine ⟨⟨fun h => absurd h hclosed, fun _ => by rw [hresults, hrest.1]; rfl⟩, ?_⟩
      rw [hrest.2, Decorator.memory_stamped, hkeep, hnow', if_pos]
      simpa [Status.isDone, Status.isRunning] using hended

end Index

namespace Executor

/-- In a run that starts without states, a cooldown is gated by its running time at the last of its ticks
in which its child ended a run, and by zero before there is one; that time is what it remembers. So its
child never ends two runs under it before the duration has gone by. -/
theorem gated_of_cooldown {t : Tree} (hfree : (Index.build t).CycleFree) (g : Generator)
    (inputs : List Input) {p : Fin (Index.build t).size} {d : Definition}
    (hd : ((Index.build t).slot p).definition = some d) (hkind : d.kind = .decorator .cooldown)
    {child : Fin (Index.build t).size} (hchild : ((Index.build t).slot p).children.head? = some child)
    {i : Nat} {m : Moment} {v : Visit (Index.build t).size}
    (h : (chronicleOf (.build t) (ofGenerator t g) inputs p)[i]? = some (m, v)) :
    let id := (Index.build t).name p
    let past := (chronicleOf (.build t) (ofGenerator t g) inputs p).take i
    let duration := (⟨((Index.build t).slot p).node, d⟩ : Settings).number "duration"
    let now := seconds (past ++ [(m, v)])
    let last := (lastTime Visit.completes past).getD 0
    (v.after.state id).runningTime = now ∧
      (v.before.memory id).lastExecutionTime = last ∧
      (v.after.memory id).lastExecutionTime =
        (lastTime Visit.completes (past ++ [(m, v)])).getD 0 ∧
      v.Gated id child duration last now ∧ (v.completes → ¬ now - last < duration) := by
  intro id past duration now last
  have hp := (mem_chronicleOf (List.mem_of_getElem? h)).1
  have havoids := Index.avoids_child hfree hp (List.mem_of_head? hchild)
  have hall := clocked_law hfree
    (P := fun past s => s.memory.lastExecutionTime = (lastTime Visit.completes past).getD 0)
    (Q := fun past m v => (v.after.memory id).lastExecutionTime =
        (lastTime Visit.completes (past ++ [(m, v)])).getD 0 ∧
      v.Gated id child duration ((lastTime Visit.completes past).getD 0)
        (seconds (past ++ [(m, v)]))) rfl ?_ h
  · obtain ⟨hnow, hlast, hafter, hgated⟩ := hall
    exact ⟨hnow, hlast, hafter, hgated, hgated.of_completes⟩
  · intro past m room f htime hlast v
    have hnow : (f.state id).runningTime + m.delta = seconds (past ++ [(m, v)]) := by
      rw [htime, seconds_concat]
    obtain ⟨hgated, hafter⟩ := Index.gated_visit hd hkind hchild havoids room hlast hnow
    have hremembered : (v.after.memory id).lastExecutionTime =
        (lastTime Visit.completes (past ++ [(m, v)])).getD 0 := by
      refine hafter.trans ?_
      rw [lastTime_concat]
      split <;> rfl
    exact ⟨⟨hremembered, hgated⟩, hremembered⟩

/-- A cooldown of a second over a child that waits for one, ticked every half of one: the first tick is
gated, the child waits in the next two, and the tick after its end is gated again. -/
theorem gated_of_cooldown_waiting :
    let nodes : List Node := [⟨"root", "cooldown", .ofList [("duration", .integer 1)]⟩,
      ⟨"leaf", "wait", .ofList [("duration", .integer 1)]⟩]
    let t : Tree := { Tree.single "cooldown" ["leaf"] with nodes := nodes }
    let i : Input := ⟨"actor", 0.5, World.empty.insert (.create "actor" ⟨0, 0⟩), ∅⟩
    let p : Fin (Index.build t).size := ⟨0, by decide⟩
    let leaf : Fin (Index.build t).size := ⟨1, by decide⟩
    let ticks := chronicleOf (.build t) (ofGenerator t ⟨0⟩) [i, i, i, i] p
    ticks.map (·.2.status) = [.failure, .running, .success, .failure] ∧
      lastTime Visit.completes (ticks.take 3) = some 1.5 ∧
      ∃ m v, ticks[3]? = some (m, v) ∧ seconds (ticks.take 3 ++ [(m, v)]) = 2 ∧
        (v.before.memory "root").lastExecutionTime = 1.5 ∧ v.Gated "root" leaf 1 1.5 2 := by
  intro nodes t i p leaf ticks
  have hvalid : t.fault? = none := by decide +kernel
  have hfree := Index.cycleFree_of_acyclic (Tree.fault?_eq_none_iff.mp hvalid).acyclic
  let d : Definition := ⟨"cooldown", .decorator .cooldown, [⟨"duration", .number 1⟩]⟩
  have hduration : (⟨((Index.build t).slot p).node, d⟩ : Settings).number "duration" = 1 := by
    decide +kernel
  have hchild : ((Index.build t).slot p).children.head? = some leaf := by decide +kernel
  have hlast : lastTime Visit.completes (ticks.take 3) = some 1.5 := by decide +kernel
  have hsome : (ticks[3]?).isSome := by decide +kernel
  obtain ⟨⟨m, v⟩, hfourth⟩ := Option.isSome_iff_exists.mp hsome
  have hnow : (ticks[3]?).map (fun x => seconds (ticks.take 3 ++ [x])) = some 2 := by decide +kernel
  rw [hfourth, Option.map_some, Option.some.injEq] at hnow
  obtain ⟨-, hbefore, -, hgated, -⟩ :=
    gated_of_cooldown hfree ⟨0⟩ [i, i, i, i] (d := d) rfl rfl hchild hfourth
  rw [hlast] at hbefore hgated
  rw [hduration, hnow] at hgated
  exact ⟨by decide +kernel, hlast, m, v, hfourth, hnow, hbefore, hgated⟩

end Executor

end BehaviorTree
