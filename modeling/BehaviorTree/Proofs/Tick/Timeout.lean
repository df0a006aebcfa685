import BehaviorTree.Proofs.Tick.Clock

/-!
# Timeouts

A timeout adds up the seconds of its ticks since it was last not running. It ticks its child as long as
they are below its limit.
-/

namespace BehaviorTree

section

variable {n : Nat}

/-- Whether the state of a timeout after some ticks has it go on from the seconds since it ended. -/
def GoesOnFrom (past : List (Moment × Visit n)) (s : NodeState) : Prop :=
  (if s.status = .running then s.memory.elapsed else 0) = seconds (sinceEnded past)

/-- Whether a tick asks for one tick of a child and returns its result, or fails for want of a child. -/
def Visit.Forwards (child? : Option (Fin n)) (v : Visit n) : Prop :=
  match child? with
  | some child => v.results = [(child, v.status)]
  | none => v.results = [] ∧ v.status = .failure

/-- Whether a tick that comes to so many seconds fails at a limit without ticking a child, and leaves the
rest to its child below it. -/
def Visit.Limited (id : String) (child? : Option (Fin n)) (limit elapsed : Float32) (v : Visit n) :
    Prop :=
  if limit ≤ elapsed then
    v.status = .failure ∧ v.results = [] ∧ (v.after.memory id).elapsed = 0
  else v.Forwards child? ∧ (v.after.memory id).elapsed = elapsed

namespace Visit.Limited

variable {id : String} {child? : Option (Fin n)} {limit elapsed : Float32} {v : Visit n}

theorem of_running (h : v.Limited id child? limit elapsed) (hrunning : v.status = .running) :
    ¬ limit ≤ elapsed ∧ (v.after.memory id).elapsed = elapsed := by
  rw [Limited] at h
  split at h
  · rw [hrunning] at h
    exact absurd h.1 (by decide)
  · rename_i hlimit
    exact ⟨hlimit, h.2⟩

theorem next {past : List (Moment × Visit n)} {m : Moment}
    (h : v.Limited id child? limit (seconds (sinceEnded past ++ [(m, v)]))) :
    (if v.status = .running then (v.after.memory id).elapsed else 0) =
      seconds (sinceEnded (past ++ [(m, v)])) := by
  rw [sinceEnded_concat]
  by_cases hrunning : v.status = .running
  · rw [if_pos hrunning, if_pos hrunning, (h.of_running hrunning).2]
  · rw [if_neg hrunning, if_neg hrunning]
    rfl

end Visit.Limited

end

namespace Index

variable {ix : Index} {p : Fin ix.size} {d : Definition}

private theorem script_of_timeout (hd : (ix.slot p).definition = some d)
    (hkind : d.kind = .decorator .timeout) (m : Moment) (f : Frame) :
    ix.script m p f =
      Decorator.limitTimeScript m ⟨(ix.slot p).node, d⟩ (ix.slot p).children.head? f := by
  rw [script_of_decorator hd hkind]
  cases h : (ix.slot p).children.head? <;> simp only [Decorator.script, h]

private theorem limitTimeScript_eq {m : Moment} {s : Settings} {n : Nat} (child? : Option (Fin n))
    {f : Frame} {elapsed : Float32} (h : (if (f.state s.node.id).status = .running
      then (f.memory s.node.id).elapsed else 0) + m.delta = elapsed) :
    Decorator.limitTimeScript m s child? f =
      if s.number "timeout" ≤ elapsed then
        .finish .failure (f.updateMemory s.node.id fun m => { m with elapsed := 0 })
      else
        let f := f.updateMemory s.node.id fun m => { m with elapsed := elapsed }
        match child? with
        | none => .finish .failure f
        | some child => .call child f .finish := by
  subst h
  rfl

/-- A tick of a timeout comes to the seconds that it remembers, if it was running, and its own. -/
theorem limited_visit (hd : (ix.slot p).definition = some d) (hkind : d.kind = .decorator .timeout)
    (havoids : ∀ child, ix.Edge p child → ix.Avoids child (ix.name p)) {m : Moment} (room : Nat)
    {f : Frame} {elapsed : Float32} (h : (if (f.state (ix.name p)).status = .running
      then (f.memory (ix.name p)).elapsed else 0) + m.delta = elapsed) :
    (ix.visit m room p f).Limited (ix.name p) (ix.slot p).children.head?
      ((⟨(ix.slot p).node, d⟩ : Settings).number "timeout") elapsed := by
  rw [← status_enter m room p f, ← memory_enter m room p f] at h
  have hscript := (script_of_timeout hd hkind m (ix.enter m room p f)).trans (limitTimeScript_eq _ h)
  rw [Visit.Limited]
  by_cases hlimit : (⟨(ix.slot p).node, d⟩ : Settings).number "timeout" ≤ elapsed
  · rw [if_pos hlimit] at hscript ⊢
    obtain ⟨hstatus, hresults, hmemory⟩ := visit_of_finish hscript
    rw [hmemory]
    exact ⟨hstatus, hresults, congrArg (·.elapsed) (Frame.memory_updateMemory_self _ _ _)⟩
  · rw [if_neg hlimit] at hscript ⊢
    cases hchild : (ix.slot p).children.head? with
    | none =>
      rw [hchild] at hscript
      obtain ⟨hstatus, hresults, hmemory⟩ := visit_of_finish hscript
      rw [hmemory]
      exact ⟨⟨hresults, hstatus⟩, congrArg (·.elapsed) (Frame.memory_updateMemory_self _ _ _)⟩
    | some child =>
      rw [hchild] at hscript
      obtain ⟨hresults, hmemory⟩ := visit_of_call hscript
      have hkeep := (havoids child (List.mem_of_head? hchild)).state_tick m room
      rw [hmemory, Frame.memory, hkeep]
      exact ⟨hresults, congrArg (·.elapsed) (Frame.memory_updateMemory_self _ _ _)⟩

end Index

namespace Executor

/-- In a run that starts without states, a timeout is limited by the seconds of its ticks since the last
one that was not running. So it is never running at its limit, and counts anew after such a tick. -/
theorem limited_of_timeout {t : Tree} (hfree : (Index.build t).CycleFree) (g : Generator)
    (inputs : List Input) {p : Fin (Index.build t).size} {d : Definition}
    (hd : ((Index.build t).slot p).definition = some d) (hkind : d.kind = .decorator .timeout)
    {i : Nat} {m : Moment} {v : Visit (Index.build t).size}
    (h : (chronicleOf (.build t) (ofGenerator t g) inputs p)[i]? = some (m, v)) :
    let past := (chronicleOf (.build t) (ofGenerator t g) inputs p).take i
    let limit := (⟨((Index.build t).slot p).node, d⟩ : Settings).number "timeout"
    let elapsed := seconds (sinceEnded past ++ [(m, v)])
    v.Limited ((Index.build t).name p) ((Index.build t).slot p).children.head? limit elapsed ∧
      (v.status = .running → ¬ limit ≤ elapsed) ∧
      ∀ x ∈ past.getLast?, x.2.status ≠ .running → elapsed = 0 + m.delta := by
  intro past limit elapsed
  have hp := (mem_chronicleOf (List.mem_of_getElem? h)).1
  have hlimited : ∀ past m room f, GoesOnFrom past (f.state ((Index.build t).name p)) →
      ((Index.build t).visit m room p f).Limited ((Index.build t).name p)
        ((Index.build t).slot p).children.head? limit
        (seconds (sinceEnded past ++ [(m, (Index.build t).visit m room p f)])) := by
    intro past m room f hpast
    apply Index.limited_visit hd hkind (fun c hc => Index.avoids_child hfree hp hc) room
    rw [seconds_concat, ← hpast]
    rfl
  have hstep : ∀ past m room f, GoesOnFrom past (f.state ((Index.build t).name p)) →
      GoesOnFrom (past ++ [(m, (Index.build t).visit m room p f)])
        (((Index.build t).visit m room p f).after.state ((Index.build t).name p)) := by
    intro past m room f hpast
    rw [GoesOnFrom, Index.status_visit]
    exact (hlimited past m room f hpast).next
  obtain ⟨room, f, rfl, hbefore⟩ := chronicle_induction hfree rfl hstep h
  have hv := hlimited past m room f hbefore
  refine ⟨hv, fun hrunning => (hv.of_running hrunning).1, fun x hx hended => ?_⟩
  obtain ⟨first, hfirst⟩ := List.getLast?_eq_some_iff.mp hx
  have hnone : sinceEnded past = [] := by rw [hfirst, sinceEnded_concat, if_neg hended]
  change seconds (sinceEnded past ++ [_]) = _
  rw [hnone]
  rfl

/-- A timeout of a second over a child that waits for two, ticked every half of one: the second tick fails,
and the third counts anew. -/
theorem limited_of_timeout_waiting :
    let nodes : List Node := [⟨"root", "timeout", .ofList [("timeout", .integer 1)]⟩,
      ⟨"leaf", "wait", .ofList [("duration", .integer 2)]⟩]
    let t : Tree := { Tree.single "timeout" ["leaf"] with nodes := nodes }
    let i : Input := ⟨"actor", 0.5, World.empty.insert (.create "actor" ⟨0, 0⟩), ∅⟩
    let p : Fin (Index.build t).size := ⟨0, by decide⟩
    let ticks := chronicleOf (.build t) (ofGenerator t ⟨0⟩) [i, i, i] p
    ticks.map (·.2.status) = [.running, .failure, .running] ∧
      ∃ m v, ticks[2]? = some (m, v) ∧
        v.Limited "root" ((Index.build t).slot p).children.head? 1
          (seconds (sinceEnded (ticks.take 2) ++ [(m, v)])) ∧
        seconds (sinceEnded (ticks.take 2) ++ [(m, v)]) = 0 + m.delta := by
  intro nodes t i p ticks
  have hvalid : t.fault? = none := by decide +kernel
  have hfree := Index.cycleFree_of_acyclic (Tree.fault?_eq_none_iff.mp hvalid).acyclic
  let d : Definition := ⟨"timeout", .decorator .timeout, [⟨"timeout", .number 5⟩]⟩
  have hlimit : (⟨((Index.build t).slot p).node, d⟩ : Settings).number "timeout" = 1 := by
    decide +kernel
  have hsome : (ticks[2]?).isSome := by decide +kernel
  have hlast : (ticks.take 2).getLast?.map (·.2.status) = some .failure := by decide +kernel
  obtain ⟨⟨m, v⟩, hthird⟩ := Option.isSome_iff_exists.mp hsome
  obtain ⟨x, hx, hstatus⟩ := Option.map_eq_some_iff.mp hlast
  obtain ⟨hlimited, -, hanew⟩ := limited_of_timeout hfree ⟨0⟩ [i, i, i] (d := d) rfl rfl hthird
  rw [hlimit] at hlimited
  exact ⟨by decide +kernel, m, v, hthird, hlimited, hanew x hx (by rw [hstatus]; decide)⟩

end Executor

end BehaviorTree
