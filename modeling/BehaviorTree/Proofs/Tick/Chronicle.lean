import BehaviorTree.Proofs.Tick.Thread

/-!
# Chronicles

The visits of a node over a whole run of its tree, each with the moment of its tick. Where no cycle can
be reached, the state that a visit meets is the work of the visits before it.
-/

namespace BehaviorTree

/-- What holds of the first state of a thread, and is carried over by each visit, holds of the state that
a visit meets, told of the visits before it. -/
theorem Threads.invariant {n : Nat} {id : String} {P : List (Moment × Visit n) → NodeState → Prop}
    {prior past later : List (Moment × Visit n)} {x : Moment × Visit n} {s s' : NodeState}
    (h : Threads id s ((past ++ x :: later).map (·.2)) s') (start : P prior s)
    (step : ∀ prior, ∀ y ∈ past, P prior (y.2.before.state id) →
      P (prior ++ [y]) (y.2.after.state id)) :
    P (prior ++ past) (x.2.before.state id) := by
  induction past generalizing prior s with
  | nil =>
    rw [List.append_nil, h.1]
    exact start
  | cons y rest ih =>
    have hnext := step prior y List.mem_cons_self (by rw [h.1]; exact start)
    have hrest := ih h.2 hnext fun prior z hz => step prior z (List.mem_cons_of_mem y hz)
    rwa [List.append_assoc] at hrest

/-- Whether a visit ticks a child once, whose tick ends with a result in a frame, and does something
with the result if the run of the child has ended. -/
def Visit.GoesOn {n : Nat} (v : Visit n) (id : String) (child : Fin n)
    (done : Status → Frame → Status × Frame) (result : Status) (g : Frame) : Prop :=
  v.results = [(child, result)] ∧
    if result = .running then v.status = .running ∧ v.after.memory id = g.memory id
    else v.status = (done result g).1 ∧ v.after.memory id = (done result g).2.memory id

namespace Index

variable {ix : Index} {m : Moment} {room : Nat} {p : Fin ix.size} {f g : Frame}

theorem status_visit (ix : Index) (m : Moment) (room : Nat) (p : Fin ix.size) (f : Frame) :
    ((ix.visit m room p f).after.state (ix.name p)).status = (ix.visit m room p f).status := by
  rw [visit, tick_succ]
  exact congrArg (·.status) (state_leave p _ _)

theorem visit_of_finish {status : Status}
    (h : ix.script m p (ix.enter m room p f) = .finish status g) :
    let v := ix.visit m room p f
    v.status = status ∧ v.results = [] ∧ v.after.memory (ix.name p) = g.memory (ix.name p) := by
  simp [visit, Visit.results, tick_succ, h, Script.run, Script.calls]

theorem after_of_finish {status : Status}
    (h : ix.script m p (ix.enter m room p f) = .finish status g) :
    (ix.visit m room p f).after = ix.leave p status g := by
  simp [visit, tick_succ, h, Script.run]

theorem visit_of_idle {room : Nat} {f : Frame} {status : Status}
    (h : ix.script m p (ix.enter m room p f) = .finish status (ix.enter m room p f)) :
    let v := ix.visit m room p f
    v.status = status ∧ v.after.surroundings = v.before.surroundings ∧
      v.after.memory (ix.name p) = v.before.memory (ix.name p) := by
  intro v
  obtain ⟨hstatus, -, hmemory⟩ := visit_of_finish h
  refine ⟨hstatus, ?_, hmemory.trans (memory_enter m room p f)⟩
  rw [after_of_finish h]
  rfl

theorem visit_of_call {child : Fin ix.size}
    (h : ix.script m p (ix.enter m room p f) = .call child g .finish) :
    let v := ix.visit m room p f
    v.results = [(child, v.status)] ∧
      v.after.memory (ix.name p) = (tick ix m room child g).2.memory (ix.name p) := by
  simp [visit, Visit.results, tick_succ, h, Script.run, Script.calls]

/-- The visit of a node that does something with the result of a child that ended a run, told of the
frame in which the tick of the child ended. -/
theorem visit_goesOn {child : Fin ix.size} {done : Status → Frame → Status × Frame}
    (h : ix.script m p (ix.enter m room p f) = Decorator.afterRun child g done) :
    (ix.visit m room p f).GoesOn (ix.name p) child done (tick ix m room child g).1
      (tick ix m room child g).2 := by
  constructor
  · rw [Visit.results, visit, h, Decorator.calls_afterRun]
    rfl
  · rw [visit, tick_succ, h, Decorator.run_afterRun_eq]
    dsimp only
    rw [memory_leave]
    split
    · exact ⟨rfl, rfl⟩
    · exact ⟨rfl, rfl⟩

theorem visit_of_afterRun {child : Fin ix.size} {done : Status → Frame → Status × Frame}
    (havoids : ix.Avoids child (ix.name p))
    (h : ix.script m p (ix.enter m room p f) = Decorator.afterRun child g done) :
    let v := ix.visit m room p f
    ∃ result g', v.GoesOn (ix.name p) child done result g' ∧
      g'.state (ix.name p) = g.state (ix.name p) :=
  ⟨_, _, visit_goesOn h, havoids.state_tick m room g⟩

end Index

namespace Executor

def chronicle (ix : Index) : Executor → List Input → List (Moment × Visit ix.size)
  | _, [] => []
  | e, i :: rest =>
    (e.visits ix i).map (⟨i.agent, clampStep i.dt⟩, ·) ++
      chronicle ix (e.execute i.agent i.dt i.scene).executor rest

/-- The visits of the node at a position during some ticks of a tree, each with its moment. -/
def chronicleOf (ix : Index) (e : Executor) (inputs : List Input) (p : Fin ix.size) :
    List (Moment × Visit ix.size) :=
  (chronicle ix e inputs).filter (·.2.node = p)

section

variable {ix : Index} {e : Executor} {inputs : List Input}

theorem map_chronicle (ix : Index) (e : Executor) (inputs : List Input) :
    (chronicle ix e inputs).map (·.2) = history ix e inputs := by
  induction inputs generalizing e with
  | nil => rfl
  | cons i rest ih =>
    rw [chronicle, history, List.map_append, ih, List.map_map]
    exact congrArg (· ++ _) (List.map_id _)

theorem map_chronicleOf (ix : Index) (e : Executor) (inputs : List Input) (p : Fin ix.size) :
    (chronicleOf ix e inputs p).map (·.2) = (history ix e inputs).filter (·.node = p) := by
  rw [← map_chronicle, List.filter_map]
  rfl

theorem mem_chronicle {x : Moment × Visit ix.size} (h : x ∈ chronicle ix e inputs) :
    ix.Reachable x.2.node ∧ ∃ room f, x.2 = ix.visit x.1 room x.2.node f := by
  induction inputs generalizing e with
  | nil => exact absurd h List.not_mem_nil
  | cons i rest ih =>
    rcases List.mem_append.mp h with h | h
    · obtain ⟨v, hv, rfl⟩ := List.mem_map.mp h
      exact of_mem_visits hv
    · exact ih h

theorem mem_chronicleOf {p : Fin ix.size} {x : Moment × Visit ix.size}
    (h : x ∈ chronicleOf ix e inputs p) :
    ix.Reachable p ∧ ∃ room f, x.2 = ix.visit x.1 room p f := by
  obtain ⟨hmem, hnode⟩ := List.mem_filter.mp h
  rw [← of_decide_eq_true hnode]
  exact mem_chronicle hmem

end

/-- In a run that starts without states, what holds of the initial state and is carried over by each
visit of a node holds of the state that a visit meets, told of the visits before it. -/
theorem chronicle_induction {t : Tree} (hfree : (Index.build t).CycleFree) {g : Generator}
    {inputs : List Input} {p : Fin (Index.build t).size}
    {P : List (Moment × Visit (Index.build t).size) → NodeState → Prop} (start : P [] .initial)
    (step : ∀ past m room f, P past (f.state ((Index.build t).name p)) →
      P (past ++ [(m, (Index.build t).visit m room p f)])
        (((Index.build t).visit m room p f).after.state ((Index.build t).name p)))
    {i : Nat} {m : Moment} {v : Visit (Index.build t).size}
    (h : (chronicleOf (.build t) (ofGenerator t g) inputs p)[i]? = some (m, v)) :
    ∃ room f, v = (Index.build t).visit m room p f ∧
      P ((chronicleOf (.build t) (ofGenerator t g) inputs p).take i)
        (f.state ((Index.build t).name p)) := by
  obtain ⟨hp, room, f, hvisit⟩ := mem_chronicleOf (List.mem_of_getElem? h)
  have hthreads := threads_history (e := ofGenerator t g) hfree hp rfl inputs
  rw [← map_chronicleOf] at hthreads
  have hsplit : chronicleOf (.build t) (ofGenerator t g) inputs p =
      (chronicleOf (.build t) (ofGenerator t g) inputs p).take i ++
        (m, v) :: (chronicleOf (.build t) (ofGenerator t g) inputs p).drop (i + 1) := by
    obtain ⟨hlt, hget⟩ := List.getElem?_eq_some_iff.mp h
    rw [← hget, ← List.drop_eq_getElem_cons hlt, List.take_append_drop]
  rw [hsplit] at hthreads
  have hbefore := hthreads.invariant (P := P) start ?_
  · rw [List.nil_append] at hbefore
    dsimp only at hvisit hbefore
    rw [hvisit] at hbefore
    exact ⟨room, f, hvisit, hbefore⟩
  · intro past y hy hpast
    obtain ⟨-, room', f', hvisit'⟩ := mem_chronicleOf (List.mem_of_mem_take hy)
    obtain ⟨m', v'⟩ := y
    dsimp only at hvisit' hpast
    subst hvisit'
    exact step past m' room' f' hpast

/-- In a run that starts without states, a law of the visits of a node holds of each if it follows from
what holds of the state that a visit meets, and so does the same of the state that it leaves. -/
theorem chronicle_law {t : Tree} (hfree : (Index.build t).CycleFree) {g : Generator}
    {inputs : List Input} {p : Fin (Index.build t).size}
    {P : List (Moment × Visit (Index.build t).size) → NodeState → Prop}
    {Q : List (Moment × Visit (Index.build t).size) → Moment → Visit (Index.build t).size → Prop}
    (start : P [] .initial)
    (step : ∀ past m room f, P past (f.state ((Index.build t).name p)) →
      let v := (Index.build t).visit m room p f
      Q past m v ∧ P (past ++ [(m, v)]) (v.after.state ((Index.build t).name p)))
    {i : Nat} {m : Moment} {v : Visit (Index.build t).size}
    (h : (chronicleOf (.build t) (ofGenerator t g) inputs p)[i]? = some (m, v)) :
    let past := (chronicleOf (.build t) (ofGenerator t g) inputs p).take i
    P past (v.before.state ((Index.build t).name p)) ∧ Q past m v := by
  intro past
  obtain ⟨room, f, rfl, hbefore⟩ := chronicle_induction hfree (P := P) start
    (fun past m room f hf => (step past m room f hf).2) h
  exact ⟨hbefore, (step past m room f hbefore).1⟩

end Executor

end BehaviorTree
